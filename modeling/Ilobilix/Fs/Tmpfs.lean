import Ilobilix.Foundation.Transition
import Ilobilix.Lib.Math
import Ilobilix.Memory.Vmm.Model
import Ilobilix.Memory.Vmm.Object

/-!
# Regular files of tmpfs

A regular file is an inode with a size and a memory object that never shrinks. `trunc` clears what it
cuts off, so that the bytes behind the end of the file are zero whenever the file grows again.

`ByteFile` is what a file is meant to be: a sequence of bytes with `write`, `trunc` and `read`. Two
slips keep the inode from refining it in all runs: a write of no bytes behind the end of the file
moves the end, and a read that starts behind the end computes a length below zero, which wraps around
and exceeds the buffer. `read_prefix_iff` says of every 64-bit offset and length whether a read is
right.
-/

namespace Ilobilix.Fs

open Ilobilix.Lib Ilobilix.Vmm

/-! ## The inode -/

/-- What `read`, `write` and `trunc` use of a tmpfs inode. `stSize` is the bit pattern of the signed
`st_size`. -/
structure Inode where
  stSize : ℕ
  stBlocks : ℕ
  stBlksize : ℕ
  memory : Object

namespace Inode

/-- The inode that `inode::inode` makes. -/
def new : Inode := ⟨0, 0, 512, .new⟩

/-- `ops::read` into a buffer of `size` bytes: the new state and what was read, or `none` if the part
of the buffer to read into is not in the buffer. -/
def read (alloc : ℕ → Bool) (inod : Inode) (offset size : ℕ) : Inode × Option (List UInt8) :=
  let stop := (offset + size) % 2 ^ 64
  let realSize := if inod.stSize ≤ stop then wsub size (wsub stop inod.stSize) else size
  if realSize = 0 then (inod, some [])
  else if size < realSize then (inod, none)
  else
    let (memory, buffer) := inod.memory.read alloc offset realSize
    ({ inod with memory := memory }, some buffer)

/-- `ops::write`. -/
def write (alloc : ℕ → Bool) (inod : Inode) (offset : ℕ) (buffer : List UInt8) : Inode × ℕ :=
  let size := buffer.length
  let (memory, _) := inod.memory.write alloc offset buffer
  let stop := (offset + size) % 2 ^ 64
  if inod.stSize ≤ stop then
    ({ inod with
      memory := memory, stSize := stop, stBlocks := divRoundup stop inod.stBlksize }, size)
  else ({ inod with memory := memory }, size)

/-- `ops::trunc`. -/
def trunc (alloc : ℕ → Bool) (inod : Inode) (size : ℕ) : Inode :=
  let currentSize := inod.stSize
  if size = currentSize then inod
  else
    let (memory, _) :=
      if size < currentSize then inod.memory.clear alloc size 0 (currentSize - size)
      else inod.memory.clear alloc currentSize 0 (size - currentSize)
    { inod with memory := memory, stSize := size, stBlocks := divRoundup size inod.stBlksize }

end Inode

/-! ## Byte sequences -/

/-- The contents of a file. -/
abbrev ByteFile := List UInt8

namespace ByteFile

/-- A write of some bytes changes exactly the bytes it covers, and fills a gap with zeroes. -/
def write (file : ByteFile) (offset : ℕ) (buffer : List UInt8) : ByteFile :=
  if buffer = [] then file
  else
    (List.range (max file.length (offset + buffer.length))).map fun i =>
      if offset ≤ i ∧ i < offset + buffer.length then buffer.getD (i - offset) 0
      else file.getD i 0

/-- Cut off or filled up with zeroes. -/
def trunc (file : ByteFile) (size : ℕ) : ByteFile :=
  (List.range size).map fun i => file.getD i 0

/-- The bytes from `offset` on, at most `size` of them. -/
def read (file : ByteFile) (offset size : ℕ) : List UInt8 := (file.drop offset).take size

end ByteFile

/-! ## The runs -/

/-- A call with its result. -/
inductive FileCall
  | write (offset : ℕ) (buffer : List UInt8) (ret : ℕ)
  | trunc (size : ℕ)
  | read (offset size : ℕ) (result : Option (List UInt8))
  deriving DecidableEq

/-- Offsets and lengths whose sum fits a signed 64-bit integer. -/
def FileCall.InRange : FileCall → Prop
  | .write offset buffer _ => offset + buffer.length < 2 ^ 63
  | .trunc size => size < 2 ^ 63
  | .read offset size _ => offset + size < 2 ^ 63

/-- The calls on one inode, when page allocation succeeds. -/
def tmpfsSystem : TransitionSystem Inode FileCall where
  init inod := inod = .new
  step inod call inod' := call.InRange ∧
    match call with
    | .write offset buffer ret => inod.write (fun _ => true) offset buffer = (inod', ret)
    | .trunc size => inod.trunc (fun _ => true) size = inod'
    | .read offset size result => inod.read (fun _ => true) offset size = (inod', result)

/-- The calls on a byte sequence. -/
def byteFileSystem : TransitionSystem ByteFile FileCall where
  init file := file = []
  step file call file' :=
    match call with
    | .write offset buffer ret => file' = file.write offset buffer ∧ ret = buffer.length
    | .trunc size => file' = file.trunc size
    | .read offset size result => file' = file ∧ result = some (file.read offset size)

/-- The inode stands for a byte sequence: its size, its number of 512-byte blocks and all bytes,
those behind the end being zero. -/
structure Inode.Represents (inod : Inode) (file : ByteFile) : Prop where
  size : inod.stSize = file.length
  blocks : inod.stBlocks = (inod.stSize + 511) / 512
  blksize : inod.stBlksize = 512
  small : inod.stSize < 2 ^ 63
  byte : ∀ i, inod.memory.byte i = file.getD i 0

/-- A write of no bytes and a read do not start behind the end of the file. -/
def Inode.StartsInFile (inod : Inode) : FileCall → Prop
  | .write offset buffer _ => buffer = [] → offset ≤ inod.stSize
  | .trunc _ => True
  | .read offset _ _ => offset ≤ inod.stSize

/-! ## Simulation -/

theorem getD_map_range (n i : ℕ) (f : ℕ → UInt8) :
    ((List.range n).map f).getD i 0 = if i < n then f i else 0 := by
  by_cases hi : i < n <;> simp [List.getD_eq_getElem?_getD, hi]

namespace ByteFile

theorem getD_of_le {file : ByteFile} {i : ℕ} (h : file.length ≤ i) : file.getD i 0 = 0 := by
  simp [List.getD_eq_getElem?_getD, h]

theorem getD_trunc (file : ByteFile) (size i : ℕ) :
    (file.trunc size).getD i 0 = if i < size then file.getD i 0 else 0 :=
  getD_map_range _ _ _

theorem getD_write {file : ByteFile} {offset : ℕ} {buffer : List UInt8} (hb : buffer ≠ [])
    (i : ℕ) : (file.write offset buffer).getD i 0 =
      if offset ≤ i ∧ i < offset + buffer.length then buffer.getD (i - offset) 0
      else file.getD i 0 := by
  rw [write, if_neg hb, getD_map_range]
  by_cases hi : i < max file.length (offset + buffer.length)
  · rw [if_pos hi]
  · rw [if_neg hi, if_neg (by omega), getD_of_le (by omega)]

theorem length_write {file : ByteFile} {offset : ℕ} {buffer : List UInt8} (hb : buffer ≠ []) :
    (file.write offset buffer).length = max file.length (offset + buffer.length) := by
  simp [write, hb]

/-- A read inside the file, byte by byte. -/
theorem read_eq_map (file : ByteFile) (offset size : ℕ) :
    file.read offset size =
      (List.range (min size (file.length - offset))).map fun k => file.getD (offset + k) 0 := by
  refine List.ext_getElem (by simp [read]) fun k hk _ => ?_
  simp only [read, List.length_take, List.length_drop] at hk
  have hlt : offset + k < file.length := by omega
  simp [read, List.getD_eq_getElem?_getD, hlt]

end ByteFile

namespace Inode.Represents

variable {inod : Inode} {file : ByteFile}

theorem divRoundup_512 {n : ℕ} (h : n < 2 ^ 63) : divRoundup n 512 = (n + 511) / 512 := by
  have := divRoundup_two_pow (n := n) (k := 9) (by omega) (by omega)
  simpa using this

/-- What the memory object holds after `object::write`. -/
theorem byte_write (h : inod.Represents file) {offset : ℕ} {buffer : List UInt8}
    (hrange : offset + buffer.length < 2 ^ 63) (i : ℕ) :
    (inod.memory.write (fun _ => true) offset buffer).1.byte i =
      (file.write offset buffer).getD i 0 := by
  rw [Object.write, Object.byte_store _ (by omega), h.byte i]
  by_cases hb : buffer = []
  · rw [if_neg (by simp [hb])]
    simp [ByteFile.write, hb]
  · rw [ByteFile.getD_write hb]

/-- The size that `ops::write` sets is the length of the new contents. -/
theorem size_write (h : inod.Represents file) {offset : ℕ} {buffer : List UInt8}
    (hstart : buffer = [] → offset ≤ inod.stSize) :
    (if inod.stSize ≤ offset + buffer.length then offset + buffer.length else inod.stSize) =
      (file.write offset buffer).length := by
  by_cases hb : buffer = []
  · have hle := hstart hb
    have hsize := h.size
    simp only [ByteFile.write, hb, if_true, List.length_nil, Nat.add_zero]
    split <;> omega
  · rw [ByteFile.length_write hb, h.size]
    split <;> omega

theorem write (h : inod.Represents file) {offset : ℕ} {buffer : List UInt8}
    (hrange : offset + buffer.length < 2 ^ 63) (hstart : buffer = [] → offset ≤ inod.stSize) :
    (inod.write (fun _ => true) offset buffer).1.Represents (file.write offset buffer) ∧
      (inod.write (fun _ => true) offset buffer).2 = buffer.length := by
  have hstop : (offset + buffer.length) % 2 ^ 64 = offset + buffer.length :=
    Nat.mod_eq_of_lt (by omega)
  have hsize := h.size_write hstart
  unfold Inode.write
  dsimp only
  rw [hstop]
  by_cases hle : inod.stSize ≤ offset + buffer.length
  · rw [if_pos hle] at hsize ⊢
    refine ⟨⟨hsize, ?_, h.blksize, hrange, h.byte_write hrange⟩, rfl⟩
    simp only [h.blksize]
    exact divRoundup_512 hrange
  · rw [if_neg hle] at hsize ⊢
    exact ⟨⟨hsize, h.blocks, h.blksize, h.small, h.byte_write hrange⟩, rfl⟩

theorem trunc (h : inod.Represents file) {size : ℕ} (hrange : size < 2 ^ 63) :
    (inod.trunc (fun _ => true) size).Represents (file.trunc size) := by
  have hlen : (file.trunc size).length = size := by simp [ByteFile.trunc]
  have hbyte := h.byte
  have hsize := h.size
  have hsmall := h.small
  unfold Inode.trunc
  dsimp only
  split
  · rename_i heq
    refine ⟨by rw [hlen, heq], h.blocks, h.blksize, h.small, fun i => ?_⟩
    rw [ByteFile.getD_trunc, hbyte i]
    split
    · rfl
    · exact ByteFile.getD_of_le (by omega)
  · -- Both branches clear the bytes between the two sizes; those behind them are zero already.
    refine ⟨hlen.symm, ?_, h.blksize, hrange, fun i => ?_⟩
    · simp only [h.blksize]
      exact divRoundup_512 hrange
    · rw [ByteFile.getD_trunc]
      split
      · rw [Object.clear, Object.byte_store _ (by omega), hbyte i]
        by_cases hi : i < size
        · rw [if_neg (by omega), if_pos hi]
        · rw [if_neg hi]
          split
          · rfl
          · exact ByteFile.getD_of_le (by omega)
      · rw [Object.clear, Object.byte_store _ (by omega), hbyte i]
        by_cases hi : i < size
        · rw [if_pos hi]
          split
          · exact (ByteFile.getD_of_le (by omega)).symm
          · rfl
        · rw [if_neg (by omega), if_neg hi]
          exact ByteFile.getD_of_le (by omega)

/-- The length that `ops::read` computes, for a read that starts in the file. -/
theorem realSize_eq {stSize offset size : ℕ} (hsmall : stSize < 2 ^ 63)
    (hrange : offset + size < 2 ^ 63) (hstart : offset ≤ stSize) :
    (if stSize ≤ (offset + size) % 2 ^ 64 then
      wsub size (wsub ((offset + size) % 2 ^ 64) stSize) else size) =
      min size (stSize - offset) := by
  rw [Nat.mod_eq_of_lt (by omega)]
  unfold wsub
  split <;> omega

theorem read (h : inod.Represents file) {offset size : ℕ} (hrange : offset + size < 2 ^ 63)
    (hstart : offset ≤ inod.stSize) :
    (inod.read (fun _ => true) offset size).1.Represents file ∧
      (inod.read (fun _ => true) offset size).2 = some (file.read offset size) := by
  have hmap := ByteFile.read_eq_map file offset size
  have hreal := realSize_eq h.small hrange hstart
  rw [← h.size] at hmap
  unfold Inode.read
  dsimp only
  rw [hreal]
  by_cases h0 : min size (inod.stSize - offset) = 0
  · rw [if_pos h0, hmap, h0]
    exact ⟨h, rfl⟩
  · rw [if_neg h0, if_neg (by omega), hmap, Object.read_eq _ (by omega)]
    refine ⟨⟨h.size, h.blocks, h.blksize, h.small, fun i => ?_⟩, ?_⟩
    · rw [Object.byte_read, h.byte i]
    · simp only [h.byte]

end Inode.Represents

instance : (call : FileCall) → Decidable call.InRange
  | .write offset buffer _ => inferInstanceAs (Decidable (offset + buffer.length < 2 ^ 63))
  | .trunc size => inferInstanceAs (Decidable (size < 2 ^ 63))
  | .read offset size _ => inferInstanceAs (Decidable (offset + size < 2 ^ 63))

instance (inod : Inode) : (call : FileCall) → Decidable (inod.StartsInFile call)
  | .write offset buffer _ => inferInstanceAs (Decidable (buffer = [] → offset ≤ inod.stSize))
  | .trunc _ => isTrue trivial
  | .read offset _ _ => inferInstanceAs (Decidable (offset ≤ inod.stSize))

namespace Inode

/-- `st_size` with its sign. -/
def size (inod : Inode) : ℤ := (BitVec.ofNat 64 inod.stSize).toInt

/-- `file::pread` with the `off_t` of the system call. -/
def pread (alloc : ℕ → Bool) (inod : Inode) (offset : ℤ) (size : ℕ) : Inode × Option (List UInt8) :=
  inod.read alloc (BitVec.ofInt 64 offset).toNat size

/-- A read returns what there is from `offset` on, but not more than the buffer holds. -/
def ReadsPrefix (inod : Inode) (offset size : ℕ) : Prop :=
  (inod.read (fun _ => true) offset size).2 =
    some ((List.range (min (size : ℤ) (max 0 (inod.size - offset))).toNat).map fun k =>
      inod.memory.byte (offset + k))

/-- The length that `ops::read` computes. -/
def realSize (inod : Inode) (offset size : ℕ) : ℕ :=
  let stop := (offset + size) % 2 ^ 64
  if inod.stSize ≤ stop then wsub size (wsub stop inod.stSize) else size

theorem size_eq {inod : Inode} (h : inod.stSize < 2 ^ 64) :
    inod.size = if inod.stSize < 2 ^ 63 then (inod.stSize : ℤ) else inod.stSize - 2 ^ 64 := by
  rw [size, BitVec.toInt_eq_toNat_cond, BitVec.toNat_ofNat, Nat.mod_eq_of_lt h]
  split <;> split <;> omega

theorem read_of_le {inod : Inode} {offset size : ℕ} (h : inod.realSize offset size ≤ size) :
    (inod.read (fun _ => true) offset size).2 =
      some (inod.memory.read (fun _ => true) offset (inod.realSize offset size)).2 := by
  have hread : inod.realSize offset size = 0 → ([] : List UInt8) =
      (inod.memory.read (fun _ => true) offset (inod.realSize offset size)).2 := fun h0 =>
    (List.eq_nil_of_length_eq_zero ((Object.length_read _ _ _).trans h0)).symm
  unfold Inode.read
  change (if inod.realSize offset size = 0 then _ else
    if size < inod.realSize offset size then _ else _ : Inode × Option (List UInt8)).2 = _
  by_cases h0 : inod.realSize offset size = 0
  · rw [if_pos h0, hread h0]
  · rw [if_neg h0, if_neg (Nat.not_lt.mpr h)]
    rfl

/-- Beyond the buffer. -/
theorem read_of_gt {inod : Inode} {offset size : ℕ} (h : size < inod.realSize offset size) :
    (inod.read (fun _ => true) offset size).2 = none := by
  unfold Inode.read
  change (if inod.realSize offset size = 0 then _ else
    if size < inod.realSize offset size then _ else _ : Inode × Option (List UInt8)).2 = _
  rw [if_neg (by omega), if_pos h]

/-- A read is right exactly if the length is. -/
theorem readsPrefix_iff {inod : Inode} {offset size : ℕ} (hst : inod.stSize < 2 ^ 64)
    (hoffset : offset < 2 ^ 64) :
    inod.ReadsPrefix offset size ↔
      (inod.realSize offset size : ℤ) = min (size : ℤ) (max 0 (inod.size - offset)) := by
  have hsize := size_eq hst
  generalize hn : (min (size : ℤ) (max 0 (inod.size - offset))).toNat = n
  have hcast : (n : ℤ) = min (size : ℤ) (max 0 (inod.size - offset)) := by omega
  rw [ReadsPrefix, hn, ← hcast, Int.natCast_inj]
  constructor
  · intro h
    by_contra hne
    by_cases hle : inod.realSize offset size ≤ size
    · have hlen := congrArg List.length (Option.some.inj ((read_of_le hle).symm.trans h))
      rw [Object.length_read, List.length_map, List.length_range] at hlen
      exact hne hlen
    · rw [read_of_gt (by omega)] at h
      cases h
  · intro h
    have hle : inod.realSize offset size ≤ size := by omega
    have hrange : offset + inod.realSize offset size ≤ 2 ^ 64 := by
      split at hsize <;> omega
    rw [read_of_le hle, Object.read_eq _ hrange, h]

end Inode

end Ilobilix.Fs
