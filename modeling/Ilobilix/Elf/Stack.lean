import Ilobilix.Foundation.Bytes
import Ilobilix.Memory.Vmm.Object

/-!
# The initial stack of an ELF program

`format::load` lays out the strings, the auxiliary vector and the pointer tables of a new program
downwards from the top of a buffer whose size it computes first, and writes the buffer to the end of
the user stack. `buildStack` follows it step by step. Sizes are natural numbers: a request whose
strings do not fit a `std::size_t` does not fit the stack either.

`decode` is the other side, the reading of the stack by the System V ABI. The main result says that
it reads back what was given to `load`, whatever the numbers and lengths of the strings are.
-/

namespace Ilobilix.Elf

open Ilobilix.Vmm

/-! ## The user stack -/

/-- `boot::ustack_size`. -/
def ustackSize : ℕ := 0x200000

/-- `process::initial_stck_top`. -/
def initialStckTop : ℕ := 0x7FFFFFFFF000

/-- `ustack_top` of the user thread that `thread::create` makes after `created` others. -/
def ustackTop (created : ℕ) : ℕ := initialStckTop - created * ustackSize

/-! ## Building the stack -/

/-- `struct auxval`. -/
structure Auxval where
  atEntry : UInt64
  atPhdr : UInt64
  atPhent : UInt64
  atPhnum : UInt64

def atNull : ℕ := 0
def atPhdr : ℕ := 3
def atPhent : ℕ := 4
def atPhnum : ℕ := 5
def atEntry : ℕ := 9
def atSecure : ℕ := 23

def numAuxvals : ℕ := 6

/-- The bytes that a list of strings takes, each with its zero byte. -/
def stringsSize (strings : List (List UInt8)) : ℕ :=
  strings.foldl (fun acc string => acc + string.length + 1) 0

def oneMore (argv envp : List (List UInt8)) : Bool := (argv.length + envp.length + 1) % 2 == 1

/-- `required_size`. -/
def requiredSize (argv envp : List (List UInt8)) : ℕ :=
  (stringsSize envp + stringsSize argv + 15) / 16 * 16 + (if oneMore argv envp then 8 else 0) +
    numAuxvals * 16 + 8 + envp.length * 8 + 8 + argv.length * 8 + 8

/-- The state of the construction: `offset` in the stack, and the bytes of `stack_buffer`. -/
structure Builder where
  offset : ℕ
  buffer : ℕ → UInt8

namespace Builder

variable (required : ℕ)

/-- The position in the buffer that `sptr ()` points to. -/
def sptr (b : Builder) : ℕ := required - (ustackSize - b.offset)

/-- `offset -= size` and a store of that many bytes to `sptr ()`. -/
def push (bytes : List UInt8) (b : Builder) : Builder :=
  let offset := b.offset - bytes.length
  let at' := sptr required { b with offset := offset }
  { offset := offset
    buffer := fun j =>
      if at' ≤ j ∧ j < at' + bytes.length then bytes.getD (j - at') 0 else b.buffer j }

/-- `offset -= 8` and `*sptr () = value`. -/
def pushWord (value : ℕ) (b : Builder) : Builder := b.push required (encodeLE 8 value)

/-- The loops over `envp` and `argv`: the strings with their zero bytes, and their addresses. -/
def pushStrings (addrBottom : ℕ) : List (List UInt8) → Builder → Builder × List ℕ
  | [], b => (b, [])
  | string :: strings, b =>
      let b := b.push required (string ++ [0])
      let (b', offsets) := pushStrings addrBottom strings b
      (b', (addrBottom + b.offset) :: offsets)

/-- The loops over the addresses, from the last one to the first. -/
def pushPointers (offsets : List ℕ) (b : Builder) : Builder :=
  offsets.reverse.foldl (fun b offset => b.pushWord required offset) b

/-- `write_auxv`; `none` if there are more values than `num_auxvals`. -/
def writeAuxv (type value : ℕ) (b : Builder × ℕ) : Option (Builder × ℕ) :=
  if b.2 = numAuxvals then none
  else some ((b.1.pushWord required value).pushWord required type, b.2 + 1)

/-- The six calls of `write_auxv`. -/
def writeAuxvals (auxv : Auxval) (b : Builder) : Option (Builder × ℕ) := do
  let b ← writeAuxv required atNull 0 (b, 0)
  let b ← writeAuxv required atPhdr auxv.atPhdr.toNat b
  let b ← writeAuxv required atPhent auxv.atPhent.toNat b
  let b ← writeAuxv required atPhnum auxv.atPhnum.toNat b
  let b ← writeAuxv required atEntry auxv.atEntry.toNat b
  writeAuxv required atSecure 0 b

/-- The strings and the padding below them, with the addresses of the strings. -/
def layStrings (addrBottom : ℕ) (argv envp : List (List UInt8)) (b : Builder) :
    Builder × List ℕ × List ℕ :=
  let (b, envpOffsets) := b.pushStrings required addrBottom envp
  let (b, argvOffsets) := b.pushStrings required addrBottom argv
  let b := { b with offset := b.offset / 16 * 16 }
  (if oneMore argv envp then b.pushWord required 0 else b, argvOffsets, envpOffsets)

/-- The auxiliary vector, the tables of pointers and `argc`. -/
def layTables (auxv : Auxval) (argc : ℕ) (argvOffsets envpOffsets : List ℕ) (b : Builder) :
    Option Builder := do
  let (b, _) ← b.writeAuxvals required auxv
  let b := (b.pushWord required 0).pushPointers required envpOffsets
  let b := (b.pushWord required 0).pushPointers required argvOffsets
  return b.pushWord required argc

end Builder

/-- What `load` leaves behind: the memory object of the stack, the stack pointer, and where the
strings are. -/
structure UserStack where
  obj : Object
  sp : ℕ
  argvOffsets : List ℕ
  envpOffsets : List ℕ

/-- The stack part of `format::load`, on a fresh memory object; `none` if a `bug_on` or a `panic`
fires. -/
def buildStack (addrBottom : ℕ) (argv envp : List (List UInt8)) (auxv : Auxval) :
    Option UserStack := do
  let required := requiredSize argv envp
  if required % 16 ≠ 0 then none
  let (b, argvOffsets, envpOffsets) :=
    Builder.layStrings required addrBottom argv envp ⟨ustackSize, fun _ => 0⟩
  let b ← b.layTables required auxv argv.length argvOffsets envpOffsets
  if ustackSize - b.offset ≠ required then none
  let stackBuffer := (List.range required).map b.buffer
  let (obj, written) := Object.new.write (fun _ => true) b.offset stackBuffer
  if written ≠ stackBuffer.length then none
  return ⟨obj, addrBottom + b.offset, argvOffsets, envpOffsets⟩

/-! ## Reading the stack -/

/-- What a program finds on its stack. -/
structure InitialStack where
  argc : ℕ
  argv : List (List UInt8)
  envp : List (List UInt8)
  auxv : List (ℕ × ℕ)
  deriving DecidableEq

/-- The pairs of the auxiliary vector up to the one with type `AT_NULL`. -/
def readAuxv (mem : ℕ → UInt8) : (fuel a : ℕ) → Option (List (ℕ × ℕ))
  | 0, _ => none
  | fuel + 1, a =>
      if readLE mem 8 a = atNull then some []
      else (readAuxv mem fuel (a + 16)).map ((readLE mem 8 a, readLE mem 8 (a + 8)) :: ·)

/-- The process stack at program start by the System V ABI: `argc`, the `argv` pointers, a null
pointer, the `envp` pointers, a null pointer and the auxiliary vector. -/
def decode (fuel : ℕ) (mem : ℕ → UInt8) (sp : ℕ) : Option InitialStack := do
  let argc := readLE mem 8 sp
  let argvPtrs := readWords mem 8 argc (sp + 8)
  if readLE mem 8 (sp + 8 + 8 * argc) ≠ 0 then none
  let envpPtrs ← readTable mem 8 fuel (sp + 8 + 8 * argc + 8)
  let auxv ← readAuxv mem fuel (sp + 8 + 8 * argc + 8 + 8 * envpPtrs.length + 8)
  let argv ← readStrings mem fuel argvPtrs
  let envp ← readStrings mem fuel envpPtrs
  return ⟨argc, argv, envp, auxv⟩

/-- The memory a program sees on its stack. -/
def UserStack.memory (stack : UserStack) (addrBottom a : ℕ) : UInt8 :=
  stack.obj.byte (a - addrBottom)

/-- The tables and the strings, each with its address and size. -/
def UserStack.regions (stack : UserStack) (argv envp : List (List UInt8)) : List (ℕ × ℕ) :=
  let envpTable := stack.sp + 8 + 8 * (argv.length + 1)
  let auxvTable := envpTable + 8 * (envp.length + 1)
  [(stack.sp, 8), (stack.sp + 8, 8 * (argv.length + 1)), (envpTable, 8 * (envp.length + 1)),
    (auxvTable, 16 * numAuxvals)] ++
    stack.argvOffsets.zip (argv.map fun s => s.length + 1) ++
    stack.envpOffsets.zip (envp.map fun s => s.length + 1)

/-! ## The image

`Holds required b image` says that the construction has laid out `image` between `offset` and the
top of the stack. Every store puts its bytes in front of the image. -/

namespace Builder

variable {required : ℕ} {b : Builder} {image : List UInt8}

structure Holds (required : ℕ) (b : Builder) (image : List UInt8) : Prop where
  offset : b.offset + image.length = ustackSize
  buffer : ∀ j, b.buffer j =
    if required ≤ j + image.length ∧ j < required then image.getD (j + image.length - required) 0
    else 0

theorem Holds.new : Holds required ⟨ustackSize, fun _ => 0⟩ [] := by
  refine ⟨rfl, fun j => ?_⟩
  rw [if_neg (by simp)]

theorem getD_append_eq (xs ys : List UInt8) (k : ℕ) :
    (xs ++ ys).getD k 0 = if k < xs.length then xs.getD k 0 else ys.getD (k - xs.length) 0 := by
  split
  · rename_i h
    rw [List.getD_append _ _ _ _ h]
  · rename_i h
    rw [List.getD_append_right _ _ _ _ (Nat.le_of_not_lt h)]

theorem Holds.push (h : Holds required b image) (hfit : required ≤ ustackSize) {bytes : List UInt8}
    (hcap : bytes.length + image.length ≤ required) :
    Holds required (b.push required bytes) (bytes ++ image) := by
  have hoff := h.offset
  refine ⟨?_, fun j => ?_⟩
  · simp only [Builder.push, List.length_append]
    omega
  · have hat : sptr required { b with offset := b.offset - bytes.length } =
        required - (image.length + bytes.length) := by
      simp only [sptr]
      omega
    simp only [Builder.push, hat, List.length_append, getD_append_eq, h.buffer j]
    by_cases hin : required - (image.length + bytes.length) ≤ j ∧
        j < required - (image.length + bytes.length) + bytes.length
    · rw [if_pos hin, if_pos (by omega), if_pos (by omega)]
      congr 1
      omega
    · rw [if_neg hin]
      by_cases hold : required ≤ j + image.length ∧ j < required
      · rw [if_pos hold, if_pos (by omega), if_neg (by omega)]
        congr 1
        omega
      · rw [if_neg hold, if_neg (by omega)]

theorem Holds.pushWord (h : Holds required b image) (hfit : required ≤ ustackSize) (value : ℕ)
    (hcap : 8 + image.length ≤ required) :
    Holds required (b.pushWord required value) (encodeLE 8 value ++ image) :=
  h.push hfit (by simpa using hcap)

/-- The bytes that aligning the offset skips are zero. -/
theorem Holds.align (h : Holds required b image) :
    Holds required { b with offset := b.offset / 16 * 16 }
      (List.replicate ((image.length + 15) / 16 * 16 - image.length) 0 ++ image) := by
  have hoff := h.offset
  have htop : ustackSize = 131072 * 16 := rfl
  refine ⟨?_, fun j => ?_⟩
  · simp only [List.length_append, List.length_replicate]
    omega
  · simp only [h.buffer j, List.length_append, List.length_replicate, getD_append_eq]
    by_cases hold : required ≤ j + image.length ∧ j < required
    · rw [if_pos hold, if_pos (by omega), if_neg (by omega)]
      congr 1
      omega
    · rw [if_neg hold]
      split
      · rw [if_pos (by omega)]
        simp [List.getD_eq_getElem?_getD]
      · rfl

theorem Holds.pushPointers (h : Holds required b image) (hfit : required ≤ ustackSize)
    (offsets : List ℕ) (hcap : 8 * offsets.length + image.length ≤ required) :
    Holds required (b.pushPointers required offsets) (encodeTable 8 offsets ++ image) := by
  induction offsets with
  | nil => exact h
  | cons offset offsets ih =>
      rw [List.length_cons] at hcap
      have h' := (ih (by omega)).pushWord hfit offset (by simp; omega)
      simpa [Builder.pushPointers, encodeTable, List.foldl_append] using h'

/-- The words of the auxiliary vector, from the lowest address up. -/
def auxWords (auxv : Auxval) : List ℕ :=
  [atSecure, 0, atEntry, auxv.atEntry.toNat, atPhnum, auxv.atPhnum.toNat, atPhent,
    auxv.atPhent.toNat, atPhdr, auxv.atPhdr.toNat, atNull, 0]

theorem Holds.writeAuxvals (h : Holds required b image) (hfit : required ≤ ustackSize)
    (auxv : Auxval) (hcap : 96 + image.length ≤ required) : ∃ b' num,
    b.writeAuxvals required auxv = some (b', num) ∧
      Holds required b' (encodeTable 8 (auxWords auxv) ++ image) := by
  refine ⟨b.pushPointers required (auxWords auxv), numAuxvals, ?_, ?_⟩
  · simp [Builder.writeAuxvals, writeAuxv, numAuxvals, Builder.pushPointers, auxWords]
  · exact h.pushPointers hfit (auxWords auxv) (by simpa [auxWords] using hcap)

/-- The size of the strings by recursion. -/
theorem stringsSize_cons (string : List UInt8) (strings : List (List UInt8)) :
    stringsSize (string :: strings) = string.length + 1 + stringsSize strings := by
  have hacc : ∀ (strings : List (List UInt8)) (n : ℕ),
      strings.foldl (fun acc string => acc + string.length + 1) n = n + stringsSize strings := by
    intro strings
    induction strings with
    | nil => simp [stringsSize]
    | cons string strings ih =>
        intro n
        have hcons : stringsSize (string :: strings) = 0 + string.length + 1 + stringsSize strings :=
          ih _
        rw [List.foldl_cons, ih, hcons]
        omega
  rw [stringsSize, List.foldl_cons, hacc]
  omega

/-- Where a list of strings lies: between two offsets, each string below the one before it. -/
structure Laid (low high : ℕ) (offsets : List ℕ) (strings : List (List UInt8)) : Prop where
  length : offsets.length = strings.length
  bounds : ∀ r ∈ offsets.zip (strings.map fun s => s.length + 1), low ≤ r.1 ∧ r.1 + r.2 ≤ high
  below : (offsets.zip (strings.map fun s => s.length + 1)).Pairwise fun r r' => r'.1 + r'.2 ≤ r.1

theorem Laid.mono {low low' high high' : ℕ} {offsets : List ℕ} {strings : List (List UInt8)}
    (h : Laid low high offsets strings) (hlow : low' ≤ low) (hhigh : high ≤ high') :
    Laid low' high' offsets strings := by
  refine ⟨h.length, fun r hr => ?_, h.below⟩
  have := h.bounds r hr
  omega

/-- The strings are put in front of the image, and the addresses point to them. -/
theorem Holds.pushStrings (hfit : required ≤ ustackSize) (addrBottom : ℕ)
    (strings : List (List UInt8)) :
    ∀ {b : Builder} {image : List UInt8}, Holds required b image →
      stringsSize strings + image.length ≤ required → ∃ b' offsets bytes,
      b.pushStrings required addrBottom strings = (b', offsets) ∧
      bytes.length = stringsSize strings ∧ Holds required b' (bytes ++ image) ∧
      Laid (addrBottom + b'.offset) (addrBottom + b.offset) offsets strings ∧
      ∀ mem, BytesAt mem (addrBottom + b'.offset) bytes →
        List.Forall₂ (fun p s => BytesAt mem p (s ++ [0])) offsets strings := by
  induction strings with
  | nil =>
      intro b image h _
      exact ⟨b, [], [], rfl, rfl, h, ⟨rfl, by simp, by simp⟩, fun _ _ => .nil⟩
  | cons string strings ih =>
      intro b image h hcap
      rw [stringsSize_cons] at hcap ⊢
      have hbytes : (string ++ [0]).length + image.length ≤ required := by
        rw [List.length_append, List.length_singleton]
        omega
      have h₁ := h.push hfit hbytes
      obtain ⟨b', offsets, bytes, heq, hlen, h', hlaid, hmem⟩ := ih h₁ (by simp; omega)
      have hoff := h.offset
      have hoff₁ := h₁.offset
      have hoff' := h'.offset
      simp only [List.length_append, List.length_singleton] at hoff₁ hoff'
      refine ⟨b', (addrBottom + (b.push required (string ++ [0])).offset) :: offsets,
        bytes ++ (string ++ [0]), ?_, ?_, ?_, ⟨?_, ?_, ?_⟩, ?_⟩
      · rw [Builder.pushStrings, heq]
      · simp only [List.length_append, List.length_singleton]
        omega
      · rw [List.append_assoc]
        exact h'
      · simp [hlaid.length]
      · intro r hr
        simp only [List.map_cons, List.zip_cons_cons, List.mem_cons] at hr
        obtain rfl | hr := hr
        · simp only
          omega
        · have := hlaid.bounds r hr
          omega
      · simp only [List.map_cons, List.zip_cons_cons, List.pairwise_cons]
        exact ⟨fun r hr => (hlaid.bounds r hr).2, hlaid.below⟩
      · intro mem hbytes
        obtain ⟨hrest, hstring⟩ := BytesAt.append_iff.1 hbytes
        refine .cons ?_ (hmem mem hrest)
        have haddr : addrBottom + b'.offset + bytes.length =
            addrBottom + (b.push required (string ++ [0])).offset := by omega
        rwa [haddr] at hstring

end Builder

/-! ## The whole stack -/

section Layout

variable {argv envp : List (List UInt8)}

theorem requiredSize_mod (argv envp : List (List UInt8)) : requiredSize argv envp % 16 = 0 := by
  unfold requiredSize oneMore numAuxvals
  by_cases h : (argv.length + envp.length + 1) % 2 = 1
  · simp only [h, beq_self_eq_true, if_true]
    omega
  · simp only [beq_iff_eq, h, if_false]
    omega

/-- The image of the stack: the tables from the stack pointer up, padding, and the strings. -/
structure Image (addrBottom : ℕ) (argv envp : List (List UInt8)) (auxv : Auxval)
    (stack : UserStack) : Prop where
  sp : stack.sp = addrBottom + (ustackSize - requiredSize argv envp)
  argvLaid : Builder.Laid (stack.sp + (16 + 8 * argv.length + 8 + 8 * envp.length + 96))
    (addrBottom + ustackSize) stack.argvOffsets argv
  envpLaid : Builder.Laid (stack.sp + (16 + 8 * argv.length + 8 + 8 * envp.length + 96))
    (addrBottom + ustackSize) stack.envpOffsets envp
  apart : ∀ r ∈ stack.argvOffsets.zip (argv.map fun s => s.length + 1),
    ∀ r' ∈ stack.envpOffsets.zip (envp.map fun s => s.length + 1), r.1 + r.2 ≤ r'.1
  tables : BytesAt (stack.memory addrBottom) stack.sp
    (encodeLE 8 argv.length ++ (encodeTable 8 stack.argvOffsets ++ (encodeLE 8 0 ++
      (encodeTable 8 stack.envpOffsets ++ (encodeLE 8 0 ++
        encodeTable 8 (Builder.auxWords auxv))))))
  argvStrings : List.Forall₂ (fun p s => BytesAt (stack.memory addrBottom) p (s ++ [0]))
    stack.argvOffsets argv
  envpStrings : List.Forall₂ (fun p s => BytesAt (stack.memory addrBottom) p (s ++ [0]))
    stack.envpOffsets envp

/-- A finished image is what the buffer holds, byte by byte. -/
theorem Builder.Holds.buffer_eq {required : ℕ} {b : Builder} {image : List UInt8}
    (h : Holds required b image) (hlen : image.length = required) :
    (List.range required).map b.buffer = image := by
  refine List.ext_getElem (by simp [hlen]) fun k hk hk' => ?_
  rw [List.getElem_map, List.getElem_range, h.buffer k, if_pos (by omega)]
  rw [show k + image.length - required = k by omega]
  simp [List.getD_eq_getElem?_getD, hk']

/-- The memory object holds the image from `offset` on. -/
theorem bytesAt_write (addrBottom : ℕ) {offset : ℕ} {image : List UInt8}
    (hrange : offset + image.length ≤ 2 ^ 64) (sp : ℕ) (argvOffsets envpOffsets : List ℕ) :
    BytesAt (UserStack.memory ⟨(Object.new.write (fun _ => true) offset image).1, sp, argvOffsets,
      envpOffsets⟩ addrBottom) (addrBottom + offset) image := by
  intro k hk
  rw [UserStack.memory, Object.write, Object.byte_store _ hrange, if_pos (by omega)]
  rw [show addrBottom + offset + k - addrBottom - offset = k by omega]
  simp [List.getD_eq_getElem?_getD, hk]

/-- The strings end up at the top of the stack, above the padding. -/
theorem Builder.Holds.layStrings {required : ℕ} (addrBottom : ℕ) (argv envp : List (List UInt8))
    (hfit : required ≤ ustackSize) (hcap : (stringsSize envp + stringsSize argv + 15) / 16 * 16 +
      (if oneMore argv envp then 8 else 0) ≤ required) :
    ∃ b argvOffsets envpOffsets front argvBytes envpBytes,
      Builder.layStrings required addrBottom argv envp ⟨ustackSize, fun _ => 0⟩ =
        (b, argvOffsets, envpOffsets) ∧
      Holds required b (front ++ (argvBytes ++ envpBytes)) ∧
      (front ++ (argvBytes ++ envpBytes)).length = (stringsSize envp + stringsSize argv + 15) / 16 * 16 +
        (if oneMore argv envp then 8 else 0) ∧
      argvBytes.length = stringsSize argv ∧ envpBytes.length = stringsSize envp ∧
      Laid (addrBottom + (ustackSize - stringsSize envp - stringsSize argv))
        (addrBottom + (ustackSize - stringsSize envp)) argvOffsets argv ∧
      Laid (addrBottom + (ustackSize - stringsSize envp)) (addrBottom + ustackSize) envpOffsets envp ∧
      (∀ mem, BytesAt mem (addrBottom + (ustackSize - stringsSize envp - stringsSize argv)) argvBytes →
        List.Forall₂ (fun p s => BytesAt mem p (s ++ [0])) argvOffsets argv) ∧
      (∀ mem, BytesAt mem (addrBottom + (ustackSize - stringsSize envp)) envpBytes →
        List.Forall₂ (fun p s => BytesAt mem p (s ++ [0])) envpOffsets envp) := by
  have hnew : Holds required ⟨ustackSize, fun _ => 0⟩ [] := .new
  obtain ⟨b₁, envpOffsets, envpBytes, heq₁, hlen₁, h₁, hlaid₁, hmem₁⟩ :=
    pushStrings hfit addrBottom envp hnew (by simp; omega)
  rw [List.append_nil] at h₁
  obtain ⟨b₂, argvOffsets, argvBytes, heq₂, hlen₂, h₂, hlaid₂, hmem₂⟩ :=
    pushStrings hfit addrBottom argv h₁ (by omega)
  have hoff₁ : b₁.offset = ustackSize - stringsSize envp := by
    have := h₁.offset
    omega
  have hoff₂ : b₂.offset = ustackSize - stringsSize envp - stringsSize argv := by
    have := h₂.offset
    rw [List.length_append] at this
    omega
  rw [hoff₁] at hlaid₁ hmem₁ hlaid₂
  rw [hoff₂] at hlaid₂ hmem₂
  have h₃ := h₂.align
  generalize hgap : List.replicate (((argvBytes ++ envpBytes).length + 15) / 16 * 16 -
    (argvBytes ++ envpBytes).length) (0 : UInt8) = gap at h₃
  have hlen : (gap ++ (argvBytes ++ envpBytes)).length =
      (stringsSize envp + stringsSize argv + 15) / 16 * 16 := by
    rw [← hgap]
    simp only [List.length_append, List.length_replicate]
    omega
  unfold Builder.layStrings
  simp only [heq₁, heq₂]
  cases hone : oneMore argv envp with
  | true =>
      simp only [hone, if_true] at hcap ⊢
      have h₄ := h₃.pushWord hfit 0 (by omega)
      rw [← List.append_assoc] at h₄
      refine ⟨_, _, _, _, _, _, rfl, h₄, ?_, hlen₂, hlen₁, hlaid₂, hlaid₁, hmem₂, hmem₁⟩
      rw [List.append_assoc, List.length_append, hlen, length_encodeLE, Nat.add_comm]
  | false =>
      refine ⟨_, _, _, _, _, _, rfl, h₃, ?_, hlen₂, hlen₁, hlaid₂, hlaid₁, hmem₂, hmem₁⟩
      simp [hlen]

/-- The tables end up below the strings. -/
theorem Builder.Holds.layTables {required : ℕ} {b : Builder} {image : List UInt8}
    (h : Holds required b image) (hfit : required ≤ ustackSize) (auxv : Auxval) (argc : ℕ)
    (argvOffsets envpOffsets : List ℕ)
    (hcap : 96 + 8 + 8 * envpOffsets.length + 8 + 8 * argvOffsets.length + 8 + image.length ≤
      required) : ∃ b', b.layTables required auxv argc argvOffsets envpOffsets = some b' ∧
      Holds required b' (encodeLE 8 argc ++ (encodeTable 8 argvOffsets ++ (encodeLE 8 0 ++
        (encodeTable 8 envpOffsets ++ (encodeLE 8 0 ++
          (encodeTable 8 (auxWords auxv) ++ image)))))) := by
  obtain ⟨b₁, num, heq, h₁⟩ := h.writeAuxvals hfit auxv (by omega)
  have hlen : (encodeTable 8 (auxWords auxv)).length = 96 := by simp [auxWords]
  have h₂ := (h₁.pushWord hfit 0 (by simp [hlen]; omega)).pushPointers hfit envpOffsets
    (by simp [hlen]; omega)
  have h₃ := (h₂.pushWord hfit 0 (by simp [hlen]; omega)).pushPointers hfit argvOffsets
    (by simp [hlen]; omega)
  refine ⟨_, ?_, h₃.pushWord hfit argc (by simp [hlen]; omega)⟩
  simp [Builder.layTables, heq]

/-- An image in memory is its tables and the strings at its end. -/
theorem parts_of_image {mem : ℕ → UInt8} {a : ℕ}
    {image tables front argvBytes envpBytes : List UInt8} (h : BytesAt mem a image)
    (himage : image = tables ++ (front ++ (argvBytes ++ envpBytes))) : BytesAt mem a tables ∧
      BytesAt mem (a + tables.length + front.length) argvBytes ∧
      BytesAt mem (a + tables.length + front.length + argvBytes.length) envpBytes := by
  rw [himage] at h
  obtain ⟨htables, h⟩ := BytesAt.append_iff.1 h
  obtain ⟨-, h⟩ := BytesAt.append_iff.1 h
  exact ⟨htables, BytesAt.append_iff.1 h⟩

theorem buildStack_image (addrBottom : ℕ) (argv envp : List (List UInt8)) (auxv : Auxval)
    (hfit : requiredSize argv envp ≤ ustackSize) : ∃ stack,
    buildStack addrBottom argv envp auxv = some stack ∧ Image addrBottom argv envp auxv stack := by
  have hmod := requiredSize_mod argv envp
  generalize hR : requiredSize argv envp = required at hfit hmod
  have hreq : (stringsSize envp + stringsSize argv + 15) / 16 * 16 +
      (if oneMore argv envp then 8 else 0) + 96 + 8 + envp.length * 8 + 8 + argv.length * 8 + 8 =
      required := hR
  obtain ⟨b, argvOffsets, envpOffsets, front, argvBytes, envpBytes, heq, h, hlen, hargvLen,
    henvpLen, hargv, henvp, hargvMem, henvpMem⟩ :=
    Builder.Holds.layStrings addrBottom argv envp hfit (by omega)
  have hargvOffs := hargv.length
  have henvpOffs := henvp.length
  obtain ⟨b', heq', h'⟩ := h.layTables hfit auxv argv.length argvOffsets envpOffsets (by omega)
  generalize himage : encodeLE 8 argv.length ++ (encodeTable 8 argvOffsets ++ (encodeLE 8 0 ++
    (encodeTable 8 envpOffsets ++ (encodeLE 8 0 ++ (encodeTable 8 (Builder.auxWords auxv) ++
      (front ++ (argvBytes ++ envpBytes))))))) = image at h'
  obtain ⟨tables, htables⟩ : ∃ tables, tables = encodeLE 8 argv.length ++
    (encodeTable 8 argvOffsets ++ (encodeLE 8 0 ++ (encodeTable 8 envpOffsets ++
      (encodeLE 8 0 ++ encodeTable 8 (Builder.auxWords auxv))))) := ⟨_, rfl⟩
  have hsplit : image = tables ++ (front ++ (argvBytes ++ envpBytes)) := by
    simp only [← himage, htables, List.append_assoc]
  have htablesLen : tables.length = 8 * argv.length + 8 * envp.length + 120 := by
    simp [htables, Builder.auxWords, hargvOffs, henvpOffs]
    omega
  have hlen' : image.length = required := by
    rw [hsplit, List.length_append, hlen]
    omega
  have hoffset : b'.offset = ustackSize - required := by
    have := h'.offset
    omega
  have hfits : ustackSize - required + image.length ≤ 2 ^ 64 := by
    rw [hlen', Nat.sub_add_cancel hfit]
    decide
  have hbytes := bytesAt_write addrBottom hfits
    (addrBottom + (ustackSize - required)) argvOffsets envpOffsets
  refine ⟨⟨(Object.new.write (fun _ => true) (ustackSize - required) image).1,
    addrBottom + (ustackSize - required), argvOffsets, envpOffsets⟩, ?_, ?_⟩
  · have hwritten : (Object.new.write (fun _ => true) (ustackSize - required) image).2 =
        image.length := Object.store_progress _ _ _ _
    unfold buildStack
    simp only [hR, hmod, heq, heq', h'.buffer_eq hlen', hoffset, hwritten,
      Nat.sub_sub_self hfit, ne_eq, not_true_eq_false, if_false, Option.bind_eq_bind,
      Option.bind_some, Option.pure_def]
  · obtain ⟨htab, hargvBytes, henvpBytes⟩ := parts_of_image hbytes hsplit
    simp only [List.length_append] at hlen
    refine ⟨by rw [hR], hargv.mono ?_ ?_, henvp.mono ?_ (le_refl _), fun r hr r' hr' => ?_,
      htables ▸ htab, hargvMem _ ?_, henvpMem _ ?_⟩
    · simp only
      omega
    · omega
    · simp only
      omega
    · have h₁ := (hargv.bounds r hr).2
      have h₂ := (henvp.bounds r' hr').1
      omega
    · convert hargvBytes using 1
      omega
    · convert henvpBytes using 1
      omega

/-! ## Reading it back -/

theorem readAuxv_eq {mem : ℕ → UInt8} {pairs : List (ℕ × ℕ)} {a fuel : ℕ}
    (h : BytesAt mem a (encodeTable 8 (pairs.flatMap (fun p => [p.1, p.2]) ++ [atNull, 0])))
    (hpairs : ∀ p ∈ pairs, 0 < p.1 ∧ p.1 < 256 ^ 8 ∧ p.2 < 256 ^ 8) (hfuel : pairs.length < fuel) :
    readAuxv mem fuel a = some pairs := by
  induction pairs generalizing a fuel with
  | nil =>
      obtain ⟨fuel, rfl⟩ := Nat.exists_eq_add_of_lt hfuel
      have hnull : readLE mem 8 a = atNull :=
        (BytesAt.append_iff.1 h).1.readLE_eq (by decide)
      simp [readAuxv, hnull]
  | cons p pairs ih =>
      obtain ⟨htype, h⟩ := BytesAt.append_iff.1 h
      obtain ⟨hvalue, h⟩ := BytesAt.append_iff.1 h
      rw [length_encodeLE] at hvalue h
      rw [length_encodeLE, Nat.add_assoc] at h
      obtain ⟨hpos, htlt, hvlt⟩ := hpairs p (List.mem_cons_self ..)
      rw [List.length_cons] at hfuel
      obtain ⟨fuel, rfl⟩ := Nat.exists_eq_add_of_lt (Nat.lt_of_le_of_lt (Nat.zero_le _) hfuel)
      rw [Nat.zero_add, readAuxv, htype.readLE_eq htlt, hvalue.readLE_eq hvlt,
        if_neg (by rw [atNull]; omega),
        ih h (fun q hq => hpairs q (List.mem_cons_of_mem _ hq)) (by omega)]
      rfl

/-- The auxiliary vector that the program finds. -/
def givenAuxv (auxv : Auxval) : List (ℕ × ℕ) :=
  [(atSecure, 0), (atEntry, auxv.atEntry.toNat), (atPhnum, auxv.atPhnum.toNat),
    (atPhent, auxv.atPhent.toNat), (atPhdr, auxv.atPhdr.toNat)]

theorem givenAuxv_lt (auxv : Auxval) :
    ∀ p ∈ givenAuxv auxv, 0 < p.1 ∧ p.1 < 256 ^ 8 ∧ p.2 < 256 ^ 8 := by
  have h₁ := auxv.atEntry.toNat_lt
  have h₂ := auxv.atPhnum.toNat_lt
  have h₃ := auxv.atPhent.toNat_lt
  have h₄ := auxv.atPhdr.toNat_lt
  simp only [givenAuxv, List.forall_mem_cons, atSecure, atEntry, atPhnum, atPhent, atPhdr]
  refine ⟨by omega, by omega, by omega, by omega, by omega, by simp⟩

/-- A string and its zero byte are at most as long as all strings together. -/
theorem length_lt_stringsSize {s : List UInt8} {strings : List (List UInt8)} (h : s ∈ strings) :
    s.length < stringsSize strings := by
  induction strings with
  | nil => cases h
  | cons string strings ih =>
      rw [Builder.stringsSize_cons]
      obtain rfl | h := List.mem_cons.1 h
      · omega
      · have := ih h
        omega

/-- The addresses of the strings are words other than the null pointer. -/
theorem Builder.Laid.pos_lt {low high : ℕ} {offsets : List ℕ} {strings : List (List UInt8)}
    (h : Laid low high offsets strings) (hlow : 0 < low) (hhigh : high < 256 ^ 8) :
    ∀ p ∈ offsets, 0 < p ∧ p < 256 ^ 8 := by
  intro p hp
  obtain ⟨i, hi, rfl⟩ := List.getElem_of_mem hp
  have hmem : (offsets[i], (strings.get ⟨i, h.length ▸ hi⟩).length + 1) ∈
      offsets.zip (strings.map fun s => s.length + 1) := by
    rw [List.mem_iff_getElem]
    refine ⟨i, by simp [h.length ▸ hi, hi], by simp⟩
  have := h.bounds _ hmem
  omega

/-- Reading the tables of an image. -/
theorem decode_eq {mem : ℕ → UInt8} {sp fuel : ℕ} {argvOffsets envpOffsets : List ℕ}
    {auxv : Auxval} (htables : BytesAt mem sp
      (encodeLE 8 argv.length ++ (encodeTable 8 argvOffsets ++ (encodeLE 8 0 ++
        (encodeTable 8 envpOffsets ++ (encodeLE 8 0 ++
          encodeTable 8 (Builder.auxWords auxv)))))))
    (hargc : argv.length < 256 ^ 8) (hlen : argvOffsets.length = argv.length)
    (hargvOffs : ∀ p ∈ argvOffsets, p < 256 ^ 8)
    (henvpOffs : ∀ p ∈ envpOffsets, 0 < p ∧ p < 256 ^ 8)
    (hfuel : envpOffsets.length < fuel) (hfuel' : 5 < fuel)
    (hargv : readStrings mem fuel argvOffsets = some argv)
    (henvp : readStrings mem fuel envpOffsets = some envp) :
    decode fuel mem sp = some ⟨argv.length, argv, envp, givenAuxv auxv⟩ := by
  obtain ⟨hA, h⟩ := BytesAt.append_iff.1 htables
  obtain ⟨hB, h⟩ := BytesAt.append_iff.1 h
  obtain ⟨hC, h⟩ := BytesAt.append_iff.1 h
  obtain ⟨hD, h⟩ := BytesAt.append_iff.1 h
  obtain ⟨hE, hF⟩ := BytesAt.append_iff.1 h
  simp only [length_encodeLE, length_encodeTable, hlen] at hB hC hD hE hF
  have hptrs := hB.readWords_eq hargvOffs
  have hnull := hC.readLE_eq (Nat.pow_pos (by omega))
  have henvpTable : BytesAt mem (sp + 8 + 8 * argv.length + 8)
      (encodeTable 8 envpOffsets ++ encodeLE 8 0) := by
    refine BytesAt.append_iff.2 ⟨hD, ?_⟩
    rwa [length_encodeTable]
  have htable := henvpTable.readTable_eq henvpOffs hfuel
  have hauxv : readAuxv mem fuel (sp + 8 + 8 * argv.length + 8 + 8 * envpOffsets.length + 8) =
      some (givenAuxv auxv) := readAuxv_eq hF (givenAuxv_lt auxv) hfuel'
  rw [hlen] at hptrs
  simp [decode, hA.readLE_eq hargc, hptrs, hnull, htable, hauxv, hargv, henvp]

theorem Image.decode_eq {addrBottom : ℕ} {auxv : Auxval} {stack : UserStack}
    (h : Image addrBottom argv envp auxv stack) (hargv : ∀ s ∈ argv, (0 : UInt8) ∉ s)
    (henvp : ∀ s ∈ envp, (0 : UInt8) ∉ s) (hfit : requiredSize argv envp ≤ ustackSize)
    (htop : addrBottom + ustackSize < 256 ^ 8) {fuel : ℕ} (hfuel : requiredSize argv envp ≤ fuel) :
    decode fuel (stack.memory addrBottom) stack.sp =
      some ⟨argv.length, argv, envp, givenAuxv auxv⟩ := by
  have hreq : stringsSize envp + stringsSize argv + envp.length * 8 + argv.length * 8 + 96 ≤
      requiredSize argv envp := by
    unfold requiredSize numAuxvals
    omega
  have hsp := h.sp
  refine Elf.decode_eq h.tables (by omega) h.argvLaid.length
    (fun p hp => (h.argvLaid.pos_lt (by omega) htop p hp).2) (h.envpLaid.pos_lt (by omega) htop)
    (by rw [h.envpLaid.length]; omega) (by omega)
    (readStrings_eq h.argvStrings fun s hs => ⟨hargv s hs, ?_⟩)
    (readStrings_eq h.envpStrings fun s hs => ⟨henvp s hs, ?_⟩)
  · have := length_lt_stringsSize hs
    omega
  · have := length_lt_stringsSize hs
    omega

theorem Image.regions_apart {addrBottom : ℕ} {auxv : Auxval} {stack : UserStack}
    (h : Image addrBottom argv envp auxv stack) :
    (stack.regions argv envp).Pairwise fun r r' => r.1 + r.2 ≤ r'.1 ∨ r'.1 + r'.2 ≤ r.1 := by
  have hbelow : ∀ r ∈ stack.argvOffsets.zip (argv.map fun s => s.length + 1) ++
      stack.envpOffsets.zip (envp.map fun s => s.length + 1),
      stack.sp + (16 + 8 * argv.length + 8 + 8 * envp.length + 96) ≤ r.1 := by
    intro r hr
    obtain hr | hr := List.mem_append.1 hr
    · exact (h.argvLaid.bounds r hr).1
    · exact (h.envpLaid.bounds r hr).1
  unfold UserStack.regions numAuxvals
  rw [List.append_assoc, List.pairwise_append, List.pairwise_append]
  refine ⟨?_, ⟨?_, ?_, fun r hr r' hr' => .inl (h.apart r hr r' hr')⟩, fun r hr r' hr' => ?_⟩
  · simp only [List.pairwise_cons, List.forall_mem_cons, List.not_mem_nil, List.Pairwise.nil,
      false_implies, implies_true, and_true]
    omega
  · exact h.argvLaid.below.imp .inr
  · exact h.envpLaid.below.imp .inr
  · have hr'' := hbelow r' hr'
    left
    simp only [List.mem_cons, List.not_mem_nil, or_false] at hr
    obtain rfl | rfl | rfl | rfl := hr <;> simp only <;> omega

theorem Image.regions_inside {addrBottom : ℕ} {auxv : Auxval} {stack : UserStack}
    (h : Image addrBottom argv envp auxv stack) (hfit : requiredSize argv envp ≤ ustackSize) :
    ∀ r ∈ stack.regions argv envp, stack.sp ≤ r.1 ∧ r.1 + r.2 ≤ addrBottom + ustackSize := by
  have hsp := h.sp
  have hreq : envp.length * 8 + argv.length * 8 + 120 ≤ requiredSize argv envp := by
    unfold requiredSize numAuxvals
    omega
  intro r hr
  unfold UserStack.regions numAuxvals at hr
  obtain hr | hr := List.mem_append.1 hr
  · obtain hr | hr := List.mem_append.1 hr
    · simp only [List.mem_cons, List.not_mem_nil, or_false] at hr
      obtain rfl | rfl | rfl | rfl := hr <;> simp only <;> omega
    · have := h.argvLaid.bounds r hr
      omega
  · have := h.envpLaid.bounds r hr
    omega

end Layout

/-- Whatever the arguments are, if they fit the stack: no check of `load` fails, the stack pointer is
aligned, the program reads back `argc`, `argv`, `envp` and the auxiliary vector, and no two of the
tables and strings overlap. -/
theorem stack_round_trip (created : ℕ) (hcreated : (created + 1) * ustackSize ≤ initialStckTop)
    (argv envp : List (List UInt8)) (hargv : ∀ s ∈ argv, (0 : UInt8) ∉ s)
    (henvp : ∀ s ∈ envp, (0 : UInt8) ∉ s) (auxv : Auxval)
    (hfit : requiredSize argv envp ≤ ustackSize) :
    ∃ stack, buildStack (ustackTop created - ustackSize) argv envp auxv = some stack ∧
      stack.sp % 16 = 0 ∧
      (∀ fuel, requiredSize argv envp ≤ fuel →
        decode fuel (stack.memory (ustackTop created - ustackSize)) stack.sp =
          some ⟨argv.length, argv, envp, givenAuxv auxv⟩) ∧
      ((stack.regions argv envp).Pairwise fun r r' => r.1 + r.2 ≤ r'.1 ∨ r'.1 + r'.2 ≤ r.1) ∧
      ∀ r ∈ stack.regions argv envp, stack.sp ≤ r.1 ∧ r.1 + r.2 ≤ ustackTop created := by
  have htop : ustackTop created - ustackSize + ustackSize = ustackTop created := by
    simp only [ustackTop, ustackSize, initialStckTop] at hcreated ⊢
    omega
  obtain ⟨stack, heq, himage⟩ :=
    buildStack_image (ustackTop created - ustackSize) argv envp auxv hfit
  refine ⟨stack, heq, ?_, fun fuel hfuel => himage.decode_eq hargv henvp hfit ?_ hfuel,
    himage.regions_apart, ?_⟩
  · have hmod := requiredSize_mod argv envp
    rw [himage.sp]
    simp only [ustackTop, ustackSize, initialStckTop] at hcreated hfit ⊢
    omega
  · rw [htop]
    simp only [ustackTop, ustackSize, initialStckTop]
    omega
  · have hinside := himage.regions_inside hfit
    rwa [htop] at hinside

/-- `/bin/sh -c` with one variable, on the first stack of a process. -/
theorem stack_round_trip_sh : ∃ stack, buildStack (ustackTop 0 - ustackSize)
    [[47, 98, 105, 110, 47, 115, 104], [45, 99]] [[65, 61, 49]] ⟨0x401000, 0x400040, 56, 9⟩ =
      some stack ∧ stack.sp % 16 = 0 ∧
      decode ustackSize (stack.memory (ustackTop 0 - ustackSize)) stack.sp =
        some ⟨2, [[47, 98, 105, 110, 47, 115, 104], [45, 99]], [[65, 61, 49]],
          [(23, 0), (9, 0x401000), (5, 9), (4, 56), (3, 0x400040)]⟩ := by
  obtain ⟨stack, heq, hsp, hdecode, -, -⟩ := stack_round_trip 0 (by decide)
    [[47, 98, 105, 110, 47, 115, 104], [45, 99]] [[65, 61, 49]] (by decide) (by decide)
    ⟨0x401000, 0x400040, 56, 9⟩ (by decide)
  exact ⟨stack, heq, hsp, hdecode ustackSize (by decide)⟩

end Ilobilix.Elf
