import Ilobilix.Fs.Open
import Ilobilix.Fs.Tmpfs

/-!
# Reads and writes of files: `read`, `readv` and their kin in `system/syscall/vfs.cpp`

A vectored call goes through its list of buffers with one `file::read` or `file::write` each. A flat call
makes one of them with a buffer of the total length. On a file of tmpfs the two mostly agree.

* `readv` and `preadv` stop at a read of no bytes, which is the end of the file or an empty buffer.
* `read` and `pread` refuse directories, and `readv` and `preadv` do not.
* A write of no bytes can move the end of the file, so that an empty list is not a write of nothing.
* Offsets wrap around, and the end of a write that does not reach that far is kept as the size.

`vectored_iff` says when each of the four pairs agrees, for every file, offset and list of buffers.
Page allocation succeeds.
-/

namespace Ilobilix.Fs

open Vmm

def isRead (flags : BitVec 32) : Prop :=
  flags &&& oAccmode = oRdonly ∨ flags &&& oAccmode = oRdwr

instance (flags : BitVec 32) : Decidable (isRead flags) := inferInstanceAs (Decidable (_ ∨ _))

/-- What the calls use of an open file of tmpfs. -/
structure TmpfsFile where
  inode : Inode
  offset : ℕ
  flags : BitVec 32
  isDir : Bool

/-- The number that a call returns, or its error. -/
abbrev Ret : Type := Except Errno ℕ

namespace TmpfsFile

/-- `file::read`. -/
def read (file : TmpfsFile) (count : ℕ) : TmpfsFile × Option (List UInt8) :=
  match file.inode.read (fun _ => true) file.offset count with
  | (inode, none) => ({ file with inode := inode }, none)
  | (inode, some data) =>
      ({ file with
        inode := inode
        offset := if 0 < data.length then (file.offset + data.length) % 2 ^ 64 else file.offset },
        some data)

/-- `file::write`. -/
def write (file : TmpfsFile) (buffer : List UInt8) : TmpfsFile × ℕ :=
  let (inode, ret) := file.inode.write (fun _ => true) file.offset buffer
  ({ file with
    inode := inode
    offset := if 0 < ret then (file.offset + ret) % 2 ^ 64 else file.offset }, ret)

end TmpfsFile

/-- `copy_to_user` of what was read to the start of a buffer. -/
def deliver (data buf : List UInt8) : List UInt8 := data ++ buf.drop data.length

namespace Syscall

/-! ## The flat calls -/

/-- The file, the result and the buffer. There are none if the read leaves the buffer of the kernel. -/
def read (file : TmpfsFile) (buf : List UInt8) : Option (TmpfsFile × Ret × List UInt8) :=
  if ¬ isRead file.flags then some (file, .error .ebadf, buf)
  else if file.isDir then some (file, .error .eisdir, buf)
  else
    match file.read buf.length with
    | (_, none) => none
    | (file, some data) => some (file, .ok data.length, deliver data buf)

/-- The offset is the bit pattern of an `off_t`. -/
def pread (file : TmpfsFile) (buf : List UInt8) (offset : ℕ) :
    Option (TmpfsFile × Ret × List UInt8) :=
  if ¬ isRead file.flags then some (file, .error .ebadf, buf)
  else if file.isDir then some (file, .error .eisdir, buf)
  else
    match file.inode.read (fun _ => true) offset buf.length with
    | (_, none) => none
    | (inode, some data) => some ({ file with inode := inode }, .ok data.length, deliver data buf)

def write (file : TmpfsFile) (buf : List UInt8) : TmpfsFile × Ret :=
  if ¬ isWrite file.flags then (file, .error .ebadf)
  else
    let (file, ret) := file.write buf
    (file, .ok ret)

def pwrite (file : TmpfsFile) (buf : List UInt8) (offset : ℕ) : TmpfsFile × Ret :=
  if ¬ isWrite file.flags then (file, .error .ebadf)
  else
    let (inode, ret) := file.inode.write (fun _ => true) offset buf
    ({ file with inode := inode }, .ok ret)

/-! ## The vectored calls -/

/-- The file, the total, and the buffers. -/
def readvLoop : List (List UInt8) → TmpfsFile → Option (TmpfsFile × ℕ × List (List UInt8))
  | [], file => some (file, 0, [])
  | buf :: iov, file =>
      match file.read buf.length with
      | (_, none) => none
      | (file, some data) =>
          if data.length = 0 then some (file, 0, buf :: iov)
          else (readvLoop iov file).map fun (file, total, iov) =>
            (file, data.length + total, deliver data buf :: iov)

def readv (file : TmpfsFile) (iov : List (List UInt8)) :
    Option (TmpfsFile × Ret × List (List UInt8)) :=
  if ¬ isRead file.flags then some (file, .error .ebadf, iov)
  else (readvLoop iov file).map fun (file, total, iov) => (file, .ok total, iov)

def writevLoop : List (List UInt8) → TmpfsFile → TmpfsFile × ℕ
  | [], file => (file, 0)
  | buf :: iov, file =>
      let (file, ret) := file.write buf
      let (file, total) := writevLoop iov file
      (file, ret + total)

def writev (file : TmpfsFile) (iov : List (List UInt8)) : TmpfsFile × Ret :=
  if ¬ isWrite file.flags then (file, .error .ebadf)
  else
    let (file, total) := writevLoop iov file
    (file, .ok total)

/-- The inode, the offset behind the last read, the total, and the buffers. -/
def preadvLoop : List (List UInt8) → Inode → (offset : ℕ) →
    Option (Inode × ℕ × ℕ × List (List UInt8))
  | [], inode, offset => some (inode, offset, 0, [])
  | buf :: iov, inode, offset =>
      match inode.read (fun _ => true) offset buf.length with
      | (_, none) => none
      | (inode, some data) =>
          if data.length = 0 then some (inode, offset, 0, buf :: iov)
          else (preadvLoop iov inode ((offset + data.length) % 2 ^ 64)).map
            fun (inode, offset, total, iov) =>
              (inode, offset, data.length + total, deliver data buf :: iov)

def preadv (file : TmpfsFile) (iov : List (List UInt8)) (offset : ℕ) :
    Option (TmpfsFile × Ret × List (List UInt8)) :=
  if ¬ isRead file.flags then some (file, .error .ebadf, iov)
  else (preadvLoop iov file.inode offset).map fun (inode, _, total, iov) =>
    ({ file with inode := inode }, .ok total, iov)

def pwritevLoop : List (List UInt8) → Inode → (offset : ℕ) → Inode × ℕ × ℕ
  | [], inode, offset => (inode, offset, 0)
  | buf :: iov, inode, offset =>
      let (inode, ret) := inode.write (fun _ => true) offset buf
      let (inode, offset, total) := pwritevLoop iov inode ((offset + ret) % 2 ^ 64)
      (inode, offset, ret + total)

def pwritev (file : TmpfsFile) (iov : List (List UInt8)) (offset : ℕ) : TmpfsFile × Ret :=
  if ¬ isWrite file.flags then (file, .error .ebadf)
  else
    let (inode, _, total) := pwritevLoop iov file.inode offset
    ({ file with inode := inode }, .ok total)

end Syscall

/-! ## Agreement -/

/-- Both reads return, with the same result, offset and bytes in the buffers one after the other. -/
def ReadsAgree (flat : Option (TmpfsFile × Ret × List UInt8))
    (vectored : Option (TmpfsFile × Ret × List (List UInt8))) : Prop :=
  ∃ file ret buf file' iov, flat = some (file, ret, buf) ∧ vectored = some (file', ret, iov) ∧
    iov.flatten = buf ∧ file'.offset = file.offset

/-- The writes have the same result and leave the same offset, size and bytes. -/
def WritesAgree (flat vectored : TmpfsFile × Ret) : Prop :=
  vectored.2 = flat.2 ∧ vectored.1.offset = flat.1.offset ∧
    vectored.1.inode.stSize = flat.1.inode.stSize ∧
    ∀ i, vectored.1.inode.memory.byte i = flat.1.inode.memory.byte i

/-- A read from inside the file on, which has a size below zero and is so long that it wraps around. -/
def Wraps (stSize offset : ℕ) (lens : List ℕ) : Prop :=
  offset ≤ stSize ∧ 2 ^ 64 ≤ offset + lens.sum

/-- When a vectored read at `offset` is like the flat one, by the size and the lengths of the buffers. -/
structure ReadsFlat (stSize offset : ℕ) (lens : List ℕ) : Prop where
  /-- The read starts in the file, or the first buffer goes over the last offset. -/
  start : offset ≤ stSize ∨ ∃ n ∈ lens.head?, 2 ^ 64 ≤ offset + n
  /-- An empty buffer comes when all was read, or behind all that is not empty. -/
  empty : ∀ pre post, lens = pre ++ 0 :: post →
    post.sum = 0 ∨ (¬ Wraps stSize offset lens ∧ wsub stSize offset ≤ pre.sum)
  /-- No buffer ends between the size and the last offset. -/
  wrap : Wraps stSize offset lens → ∀ pre post, lens = pre ++ post →
    offset + pre.sum ≤ stSize ∨ 2 ^ 64 ≤ offset + pre.sum

/-- When a vectored write is like the flat one. -/
structure WritesFlat (stSize offset : ℕ) (lens : List ℕ) : Prop where
  /-- The flat write of nothing does not move the end of the file. -/
  nil : lens = [] → offset ≤ stSize
  /-- Nothing is written behind what is the end of the file after the flat write. -/
  le : ∀ pre post, lens = pre ++ post → pre ≠ [] →
    (offset + pre.sum) % 2 ^ 64 ≤ max stSize ((offset + lens.sum) % 2 ^ 64)

/-! ## The length of a read -/

/-- The length that `ops::read` computes, by the size. -/
def readLen (stSize offset size : ℕ) : ℕ :=
  let stop := (offset + size) % 2 ^ 64
  if stSize ≤ stop then wsub size (wsub stop stSize) else size

section Lengths

variable {stSize offset n t : ℕ} {lens : List ℕ}

theorem wsub_eq (hst : stSize < 2 ^ 64) (hoffset : offset < 2 ^ 64) :
    wsub stSize offset = if offset ≤ stSize then stSize - offset else 2 ^ 64 - offset + stSize := by
  unfold wsub
  split <;> omega

/-- A read gets what there is from `offset` on, or what the buffer holds. -/
theorem readLen_eq (hst : stSize < 2 ^ 64) (hoffset : offset < 2 ^ 64) (hn : n < 2 ^ 63) :
    readLen stSize offset n =
      if offset ≤ stSize then if offset + n < 2 ^ 64 then min n (stSize - offset) else n
      else if offset + n < 2 ^ 64 then 2 ^ 64 - offset + stSize
      else min n (2 ^ 64 - offset + stSize) := by
  unfold readLen wsub
  dsimp only
  split <;> split <;> split <;> omega

/-- A read that does not fill its buffer gets all there is. -/
theorem readLen_of_lt (hst : stSize < 2 ^ 64) (hoffset : offset < 2 ^ 64) (hn : n < 2 ^ 63)
    (hshort : readLen stSize offset n < n) :
    (offset ≤ stSize ∧ offset + n < 2 ^ 64 ∧ readLen stSize offset n = stSize - offset) ∨
    (stSize < offset ∧ 2 ^ 64 ≤ offset + n ∧
      readLen stSize offset n = 2 ^ 64 - offset + stSize) := by
  rw [readLen_eq hst hoffset hn] at hshort ⊢
  by_cases hle : offset ≤ stSize <;> by_cases hfit : offset + n < 2 ^ 64
  · rw [if_pos hle, if_pos hfit] at hshort ⊢
    omega
  · rw [if_pos hle, if_neg hfit] at hshort
    omega
  · rw [if_neg hle, if_pos hfit] at hshort
    omega
  · rw [if_neg hle, if_neg hfit] at hshort ⊢
    omega

/-- A read that fills its buffer starts in the file, or goes over the last offset. -/
theorem readLen_of_eq (hst : stSize < 2 ^ 64) (hoffset : offset < 2 ^ 64) (hn : n < 2 ^ 63)
    (hfull : readLen stSize offset n = n) :
    (offset ≤ stSize ∧ (offset + n ≤ stSize ∨ 2 ^ 64 ≤ offset + n)) ∨
    (stSize < offset ∧ 2 ^ 64 ≤ offset + n ∧ offset + n ≤ 2 ^ 64 + stSize) := by
  rw [readLen_eq hst hoffset hn] at hfull
  by_cases hle : offset ≤ stSize <;> by_cases hfit : offset + n < 2 ^ 64
  · rw [if_pos hle, if_pos hfit] at hfull
    omega
  · omega
  · rw [if_neg hle, if_pos hfit] at hfull
    omega
  · rw [if_neg hle, if_neg hfit] at hfull
    omega

/-- It leaves the rest of a longer one. -/
theorem readLen_add (hst : stSize < 2 ^ 64) (hoffset : offset < 2 ^ 64) (hn : n + t < 2 ^ 63)
    (hfull : readLen stSize offset n = n) :
    readLen stSize offset (n + t) = n + readLen stSize ((offset + n) % 2 ^ 64) t := by
  have hcases := readLen_of_eq hst hoffset (by omega) hfull
  have hstart : (offset + n) % 2 ^ 64 ≤ stSize := by omega
  rw [readLen_eq hst hoffset hn, readLen_eq hst (Nat.mod_lt _ (by norm_num)) (by omega), if_pos hstart]
  rcases hcases with ⟨hle, hin | hwrap⟩ | ⟨hlt, hwrap, hin⟩
  · rw [if_pos hle, Nat.mod_eq_of_lt (by omega)]
    by_cases hlong : offset + (n + t) < 2 ^ 64
    · rw [if_pos hlong, if_pos (by omega)]
      omega
    · rw [if_neg hlong, if_neg (by omega)]
  · rw [if_pos hle, if_neg (by omega), if_pos (by omega)]
    omega
  · rw [if_neg (by omega), if_neg (by omega), if_pos (by omega)]
    omega

/-- So does a longer one, unless it wraps around. -/
theorem readLen_short (hst : stSize < 2 ^ 64) (hoffset : offset < 2 ^ 64) (hn : n + t < 2 ^ 63)
    (hshort : readLen stSize offset n < n) :
    readLen stSize offset (n + t) = readLen stSize offset n ∨
      (readLen stSize offset (n + t) = n + t ∧ offset ≤ stSize ∧ 2 ^ 64 ≤ offset + (n + t)) := by
  have hcases := readLen_of_lt hst hoffset (by omega) hshort
  rw [readLen_eq hst hoffset hn]
  rcases hcases with ⟨hle, hfit, heq⟩ | ⟨hlt, hwrap, heq⟩
  · rw [if_pos hle]
    split <;> omega
  · rw [if_neg (by omega), if_neg (by omega)]
    omega

/-- Behind such a read there is nothing left. -/
theorem readLen_rest (hst : stSize < 2 ^ 64) (hoffset : offset < 2 ^ 64) (hn : n + t < 2 ^ 63)
    (hshort : readLen stSize offset n < n)
    (hsame : readLen stSize offset (n + t) = readLen stSize offset n) {k : ℕ} (hk : k ≤ t) :
    readLen stSize ((offset + readLen stSize offset n) % 2 ^ 64) k = 0 := by
  have hcases := readLen_of_lt hst hoffset (by omega) hshort
  have hstart : (offset + readLen stSize offset n) % 2 ^ 64 = stSize := by
    rcases hcases with ⟨hle, hfit, heq⟩ | ⟨hlt, hwrap, heq⟩ <;> omega
  have hfit : stSize + k < 2 ^ 64 := by
    rcases hcases with ⟨hle, hfit, heq⟩ | ⟨hlt, hwrap, heq⟩
    · by_contra hlong
      rw [heq, readLen_eq hst hoffset hn, if_pos hle, if_neg (by omega)] at hsame
      omega
    · omega
  rw [hstart, readLen_eq hst hst (by omega), if_pos (le_refl _), if_pos hfit]
  omega

end Lengths

namespace ReadsFlat

variable {stSize offset n : ℕ} {lens : List ℕ}

theorem nil_iff : ReadsFlat stSize offset [] ↔ offset ≤ stSize := by
  refine ⟨fun h => ?_, fun h => ⟨Or.inl h, ?_, ?_⟩⟩
  · rcases h.start with hle | ⟨n, hn, -⟩
    · exact hle
    · cases hn
  · intro pre post heq
    exact absurd heq.symm (by simp)
  · intro _ pre post heq
    obtain ⟨rfl, rfl⟩ := List.append_eq_nil_iff.mp heq.symm
    exact Or.inl h

/-- The first read keeps to its buffer. -/
theorem readLen_le (h : ReadsFlat stSize offset (n :: lens)) (hst : stSize < 2 ^ 64)
    (hoffset : offset < 2 ^ 64) (hn : n < 2 ^ 63) : readLen stSize offset n ≤ n := by
  rw [readLen_eq hst hoffset hn]
  rcases h.start with hle | ⟨m, hm, hwrap⟩
  · rw [if_pos hle]
    split <;> omega
  · cases hm
    rw [if_neg (Nat.not_lt.mpr hwrap), if_neg (Nat.not_lt.mpr hwrap)]
    split <;> omega

/-- A first read that fills its buffer leaves the rest to the others. -/
theorem of_full (h : ReadsFlat stSize offset (n :: lens)) (hst : stSize < 2 ^ 64)
    (hoffset : offset < 2 ^ 64) (hn : n + lens.sum < 2 ^ 63) (hfull : readLen stSize offset n = n) :
    ReadsFlat stSize ((offset + n) % 2 ^ 64) lens := by
  have hcases := readLen_of_eq hst hoffset (by omega) hfull
  have hwraps : Wraps stSize ((offset + n) % 2 ^ 64) lens → Wraps stSize offset (n :: lens) := by
    rintro ⟨hle, hlong⟩
    rw [Wraps, List.sum_cons]
    omega
  refine ⟨Or.inl (by omega), fun pre post heq => ?_, fun hw pre post heq => ?_⟩
  · rcases h.empty (n :: pre) post (by rw [heq, List.cons_append]) with hzero | ⟨hnot, hpre⟩
    · exact Or.inl hzero
    · refine Or.inr ⟨fun hw => hnot (hwraps hw), ?_⟩
      rw [Wraps, List.sum_cons] at hnot
      rw [List.sum_cons, wsub_eq hst hoffset] at hpre
      rw [wsub_eq hst (Nat.mod_lt _ (by norm_num)), if_pos (by omega)]
      split at hpre <;> omega
  · have hpre := h.wrap (hwraps hw) (n :: pre) post (by rw [heq, List.cons_append])
    have hlong := hw.2
    rw [List.sum_cons] at hpre
    omega

/-- A first read that does not is like a read for all buffers. -/
theorem of_short (h : ReadsFlat stSize offset (n :: lens)) (hst : stSize < 2 ^ 64)
    (hoffset : offset < 2 ^ 64) (hn : n + lens.sum < 2 ^ 63)
    (hshort : n = 0 ∨ readLen stSize offset n < n) :
    readLen stSize offset (n + lens.sum) = readLen stSize offset n := by
  rcases hshort with rfl | hshort
  · have hzero := h.readLen_le hst hoffset (by omega)
    have hstart : offset ≤ stSize := by
      rcases h.start with hle | ⟨m, hm, hwrap⟩
      · exact hle
      · cases hm
        omega
    rw [Nat.le_zero.mp hzero, Nat.zero_add]
    rcases h.empty [] lens rfl with hrest | ⟨hnot, hall⟩
    · rw [hrest]
      exact Nat.le_zero.mp hzero
    · rw [Wraps, List.sum_cons] at hnot
      rw [wsub_eq hst hoffset, List.sum_nil] at hall
      rw [readLen_eq hst hoffset (by omega), if_pos hstart, if_pos (by omega)]
      rw [if_pos hstart] at hall
      omega
  · rcases readLen_short hst hoffset hn hshort with heq | ⟨-, hle, hlong⟩
    · exact heq
    · have hcases := readLen_of_lt hst hoffset (by omega) hshort
      have hpre := h.wrap ⟨hle, by rwa [List.sum_cons]⟩ [n] lens rfl
      rw [List.sum_singleton] at hpre
      omega

theorem cons_full (h : ReadsFlat stSize ((offset + n) % 2 ^ 64) lens) (hst : stSize < 2 ^ 64)
    (hoffset : offset < 2 ^ 64) (hn : n + lens.sum < 2 ^ 63) (hpos : 0 < n)
    (hfull : readLen stSize offset n = n) : ReadsFlat stSize offset (n :: lens) := by
  have hcases := readLen_of_eq hst hoffset (by omega) hfull
  refine ⟨?_, fun pre post heq => ?_, fun hw pre post heq => ?_⟩
  · by_cases hle : offset ≤ stSize
    · exact Or.inl hle
    · exact Or.inr ⟨n, rfl, by omega⟩
  · rcases List.cons_eq_append_iff.mp heq with ⟨-, hzero⟩ | ⟨pre', rfl, hlens⟩
    · cases hzero
      omega
    · rcases h.empty pre' post hlens with hrest | ⟨hnot, hpre⟩
      · exact Or.inl hrest
      · rw [Wraps] at hnot
        rw [wsub_eq hst (Nat.mod_lt _ (by norm_num)), if_pos (by omega)] at hpre
        by_cases hwrap : Wraps stSize offset (n :: lens)
        · -- the first read has gone over the last offset, and all that is left can be read
          left
          have hle := hwrap.1
          have hlong := hwrap.2
          have hsum := congrArg List.sum hlens
          rw [List.sum_cons] at hlong
          rw [List.sum_append, List.sum_cons] at hsum
          omega
        · refine Or.inr ⟨hwrap, ?_⟩
          rw [Wraps, List.sum_cons] at hwrap
          rw [List.sum_cons, wsub_eq hst hoffset]
          split <;> omega
  · rcases List.cons_eq_append_iff.mp heq.symm.symm with ⟨rfl, -⟩ | ⟨pre', rfl, hlens⟩
    · exact Or.inl hw.1
    · have hlong := hw.2
      have hle := hw.1
      rw [List.sum_cons] at hlong ⊢
      by_cases hwrap : 2 ^ 64 ≤ offset + n
      · right
        omega
      · have hpre := h.wrap ⟨by omega, by omega⟩ pre' post hlens
        omega

theorem cons_short (hst : stSize < 2 ^ 64) (hoffset : offset < 2 ^ 64)
    (hn : n + lens.sum < 2 ^ 63) (hle : readLen stSize offset n ≤ n)
    (hshort : n = 0 ∨ readLen stSize offset n < n)
    (hsame : readLen stSize offset (n + lens.sum) = readLen stSize offset n) :
    ReadsFlat stSize offset (n :: lens) := by
  have hlen := readLen_eq hst hoffset (by omega : n < 2 ^ 63)
  have hlong := readLen_eq hst hoffset hn
  -- a read for all buffers does not wrap around, unless they are all empty
  have hwraps : Wraps stSize offset (n :: lens) → lens.sum = 0 ∧ n = 0 := by
    rintro ⟨hin, hwrap⟩
    rw [List.sum_cons] at hwrap
    rw [if_pos hin, if_neg (by omega)] at hlong
    omega
  have hnot : ¬ Wraps stSize offset (n :: lens) := by
    intro hwrap
    have hzero := hwraps hwrap
    have hend := hwrap.2
    rw [List.sum_cons] at hend
    omega
  have hall : lens.sum = 0 ∨ wsub stSize offset ≤ n := by
    rw [wsub_eq hst hoffset]
    rw [Wraps, List.sum_cons] at hnot
    by_cases hin : offset ≤ stSize
    · rw [if_pos hin, if_pos (by omega)] at hlen hlong
      rw [if_pos hin]
      omega
    · rw [if_neg hin] at hlen hlong ⊢
      by_cases hfit : offset + n < 2 ^ 64
      · rw [if_pos hfit] at hlen
        omega
      · rw [if_neg hfit] at hlen
        omega
  refine ⟨?_, fun pre post heq => ?_, fun hw => absurd hw hnot⟩
  · by_cases hin : offset ≤ stSize
    · exact Or.inl hin
    · refine Or.inr ⟨n, rfl, ?_⟩
      by_contra hfit
      rw [if_neg hin, if_pos (by omega)] at hlen
      omega
  · have hsum := congrArg List.sum heq
    rw [List.sum_append, List.sum_cons, List.sum_cons] at hsum
    rcases hall with hrest | hall
    · left
      rcases List.cons_eq_append_iff.mp heq with ⟨-, hpost⟩ | ⟨pre', rfl, hlens⟩
      · cases hpost
        exact hrest
      · rw [List.sum_cons] at hsum
        omega
    · rcases List.cons_eq_append_iff.mp heq with ⟨rfl, hpost⟩ | ⟨pre', rfl, hlens⟩
      · cases hpost
        exact Or.inr ⟨hnot, by simpa using hall⟩
      · refine Or.inr ⟨hnot, ?_⟩
        rw [List.sum_cons]
        omega

end ReadsFlat

/-! ## Reads -/

/-- The bytes from an offset on. -/
def Inode.bytesFrom (inode : Inode) (offset len : ℕ) : List UInt8 :=
  (List.range len).map fun k => inode.memory.byte ((offset + k) % 2 ^ 64)

theorem Inode.bytesFrom_add (inode : Inode) (offset n t : ℕ) : inode.bytesFrom offset (n + t) =
    inode.bytesFrom offset n ++ inode.bytesFrom ((offset + n) % 2 ^ 64) t := by
  rw [bytesFrom, List.range_add, List.map_append, List.map_map]
  refine congrArg (_ ++ ·) (List.map_congr_left fun k _ => ?_)
  rw [Function.comp_apply, Nat.mod_add_mod, Nat.add_assoc]

/-- The inode has other pages, perhaps, but the same size and bytes. -/
structure Inode.Same (inode inode' : Inode) : Prop where
  size : inode'.stSize = inode.stSize
  byte : ∀ i, inode'.memory.byte i = inode.memory.byte i

theorem Inode.Same.trans {inode inode' last : Inode} (h : inode.Same inode') (h' : inode'.Same last) :
    inode.Same last :=
  ⟨h'.size.trans h.size, fun i => (h'.byte i).trans (h.byte i)⟩

theorem Inode.Same.bytesFrom {inode inode' : Inode} (h : inode.Same inode') (offset len : ℕ) :
    inode'.bytesFrom offset len = inode.bytesFrom offset len := by
  simp only [Inode.bytesFrom, h.byte]

section Reads

variable {inode : Inode} {offset n : ℕ}

theorem Inode.read_eq (h : readLen inode.stSize offset n ≤ n) :
    ∃ inode', inode.Same inode' ∧ inode.read (fun _ => true) offset n =
      (inode', some (inode.bytesFrom offset (readLen inode.stSize offset n))) := by
  unfold Inode.read
  change ∃ inode', inode.Same inode' ∧ (if readLen inode.stSize offset n = 0 then _ else
    if n < readLen inode.stSize offset n then _ else _ : Inode × Option (List UInt8)) = _
  by_cases hzero : readLen inode.stSize offset n = 0
  · rw [if_pos hzero, hzero]
    exact ⟨inode, ⟨rfl, fun _ => rfl⟩, rfl⟩
  · rw [if_neg hzero, if_neg (Nat.not_lt.mpr h)]
    refine ⟨{ inode with
      memory := (inode.memory.read (fun _ => true) offset (readLen inode.stSize offset n)).1 },
      ⟨rfl, Object.byte_read _ _ _⟩, ?_⟩
    exact Prod.ext rfl (congrArg some (Object.read_eq_wrap _ _ _))

theorem Inode.read_none (h : n < readLen inode.stSize offset n) :
    ∃ inode', inode.read (fun _ => true) offset n = (inode', none) :=
  ⟨_, Prod.ext rfl (Inode.read_of_gt h)⟩

theorem deliver_append {data rest buf bufs : List UInt8} (h : data.length = buf.length) :
    deliver data buf ++ deliver rest bufs = deliver (data ++ rest) (buf ++ bufs) := by
  have hfirst : buf.drop data.length = [] := List.drop_eq_nil_of_le (by omega)
  have hrest : (buf ++ bufs).drop (data ++ rest).length = bufs.drop rest.length := by
    simp [List.drop_append, h]
  rw [deliver, deliver, deliver, hfirst, hrest, List.append_nil, List.append_assoc]

theorem deliver_append_of_le {data buf bufs : List UInt8} (h : data.length ≤ buf.length) :
    deliver data buf ++ bufs = deliver data (buf ++ bufs) := by
  rw [deliver, deliver, List.append_assoc, List.drop_append_of_le_length h]

@[simp] theorem Inode.length_bytesFrom (inode : Inode) (offset len : ℕ) :
    (inode.bytesFrom offset len).length = len := by
  simp [bytesFrom]

theorem length_flatten_eq (iov : List (List UInt8)) :
    iov.flatten.length = (iov.map List.length).sum :=
  List.length_flatten

namespace Syscall

/-- One turn of the loop of `preadv`. -/
theorem preadvLoop_cons (iov : List (List UInt8)) {buf : List UInt8}
    (h : readLen inode.stSize offset buf.length ≤ buf.length) :
    ∃ inode', inode.Same inode' ∧ preadvLoop (buf :: iov) inode offset =
      if readLen inode.stSize offset buf.length = 0 then some (inode', offset, 0, buf :: iov)
      else (preadvLoop iov inode' ((offset + readLen inode.stSize offset buf.length) % 2 ^ 64)).map
        fun (inode, offset', total, iov) =>
          (inode, offset', readLen inode'.stSize offset buf.length + total,
            deliver (inode'.bytesFrom offset (readLen inode'.stSize offset buf.length)) buf :: iov) := by
  obtain ⟨inode', hsame, hread⟩ := Inode.read_eq h
  refine ⟨inode', hsame, ?_⟩
  simp only [preadvLoop, hread, Inode.length_bytesFrom, hsame.size, hsame.bytesFrom]

/-- Behind the end the loop stops at once. -/
theorem preadvLoop_end (inode : Inode) (offset : ℕ) (iov : List (List UInt8))
    (h : ∀ k ≤ (iov.map List.length).sum, readLen inode.stSize offset k = 0) :
    ∃ inode', inode.Same inode' ∧ preadvLoop iov inode offset = some (inode', offset, 0, iov) := by
  cases iov with
  | nil => exact ⟨inode, ⟨rfl, fun _ => rfl⟩, rfl⟩
  | cons buf iov =>
      have hzero := h buf.length (by rw [List.map_cons, List.sum_cons]; omega)
      obtain ⟨inode', hsame, hloop⟩ := preadvLoop_cons iov (hzero ▸ Nat.zero_le _)
      exact ⟨inode', hsame, by rw [hloop, if_pos hzero]⟩

theorem preadvLoop_total_le {iov : List (List UInt8)} :
    ∀ {inode : Inode} {offset : ℕ} {inode' offset' total iov'},
      preadvLoop iov inode offset = some (inode', offset', total, iov') →
      total ≤ (iov.map List.length).sum := by
  induction iov with
  | nil =>
      intro _ _ _ _ _ _ h
      cases h
      exact Nat.zero_le _
  | cons buf iov ih =>
      intro inode offset inode' offset' total iov' h
      rw [List.map_cons, List.sum_cons]
      by_cases hle : readLen inode.stSize offset buf.length ≤ buf.length
      · obtain ⟨next, hsame, hloop⟩ := preadvLoop_cons iov hle
        rw [hloop] at h
        split at h
        · cases h
          omega
        · obtain ⟨⟨_, _, rest, _⟩, hrest, heq⟩ := Option.map_eq_some_iff.mp h
          cases heq
          have := ih hrest
          rw [hsame.size]
          omega
      · obtain ⟨next, hnone⟩ := Inode.read_none (Nat.lt_of_not_le hle)
        rw [preadvLoop, hnone] at h
        cases h

/-- Under the condition the loop delivers what one read for all buffers gets. -/
theorem preadvLoop_of_readsFlat {iov : List (List UInt8)} : ∀ {inode : Inode} {offset : ℕ},
    inode.stSize < 2 ^ 64 → offset < 2 ^ 64 → (iov.map List.length).sum < 2 ^ 63 →
    ReadsFlat inode.stSize offset (iov.map List.length) →
    ∃ len inode' iov', readLen inode.stSize offset (iov.map List.length).sum = len ∧
      len ≤ (iov.map List.length).sum ∧ inode.Same inode' ∧
      preadvLoop iov inode offset = some (inode', (offset + len) % 2 ^ 64, len, iov') ∧
      iov'.flatten = deliver (inode.bytesFrom offset len) iov.flatten := by
  induction iov with
  | nil =>
      intro inode offset hst hoffset hn h
      have hzero : readLen inode.stSize offset 0 = 0 := by
        rw [readLen_eq hst hoffset (by norm_num), if_pos (ReadsFlat.nil_iff.mp h), if_pos (by omega)]
        omega
      exact ⟨0, inode, [], hzero, le_rfl, ⟨rfl, fun _ => rfl⟩,
        by rw [preadvLoop, Nat.add_zero, Nat.mod_eq_of_lt hoffset], rfl⟩
  | cons buf iov ih =>
      intro inode offset hst hoffset hn h
      rw [List.map_cons] at h hn ⊢
      rw [List.sum_cons] at hn ⊢
      have hle := h.readLen_le hst hoffset (by omega)
      obtain ⟨inode', hsame, hloop⟩ := preadvLoop_cons iov hle
      rw [hloop, hsame.size, hsame.bytesFrom]
      by_cases hfull : readLen inode.stSize offset buf.length = buf.length ∧ 0 < buf.length
      · -- the buffer is filled, and the others get what is left
        obtain ⟨hfull, hpos⟩ := hfull
        have hrest := h.of_full hst hoffset hn hfull
        rw [← hsame.size] at hrest
        obtain ⟨len, last, iov', hlen, hbound, hlast, hrun, hdata⟩ :=
          ih (hsame.size ▸ hst) (Nat.mod_lt _ (by norm_num)) (by omega) hrest
        rw [hsame.size] at hlen
        refine ⟨buf.length + len, last, deliver (inode.bytesFrom offset buf.length) buf :: iov', ?_,
          by omega, hsame.trans hlast, ?_, ?_⟩
        · rw [readLen_add hst hoffset hn hfull, hlen]
        · rw [hfull, if_neg (by omega), hrun, Nat.mod_add_mod, Nat.add_assoc]
          rfl
        · rw [List.flatten_cons, hdata, hsame.bytesFrom, deliver_append (Inode.length_bytesFrom ..),
            ← Inode.bytesFrom_add, List.flatten_cons]
      · -- nothing is left
        have hshort : buf.length = 0 ∨ readLen inode.stSize offset buf.length < buf.length := by omega
        have hall := h.of_short hst hoffset hn hshort
        by_cases hzero : readLen inode.stSize offset buf.length = 0
        · refine ⟨0, inode', buf :: iov, hall.trans hzero, Nat.zero_le _, hsame, ?_, rfl⟩
          rw [if_pos hzero, Nat.add_zero, Nat.mod_eq_of_lt hoffset]
        · have hlt : readLen inode.stSize offset buf.length < buf.length := by omega
          obtain ⟨last, hlast, hrun⟩ := preadvLoop_end inode' _ iov fun k hk => by
            rw [hsame.size]
            exact readLen_rest hst hoffset hn hlt hall hk
          refine ⟨readLen inode.stSize offset buf.length, last,
            deliver (inode.bytesFrom offset (readLen inode.stSize offset buf.length)) buf :: iov, hall,
            by omega, hsame.trans hlast, ?_, ?_⟩
          · rw [if_neg hzero, hrun]
            rfl
          · exact deliver_append_of_le (by rw [Inode.length_bytesFrom]; omega)

/-- Without it the totals are different. -/
theorem readsFlat_of_preadvLoop {iov : List (List UInt8)} :
    ∀ {inode : Inode} {offset : ℕ} {inode' offset' iov'},
    inode.stSize < 2 ^ 64 → offset < 2 ^ 64 → (iov.map List.length).sum < 2 ^ 63 →
    readLen inode.stSize offset (iov.map List.length).sum ≤ (iov.map List.length).sum →
    preadvLoop iov inode offset =
      some (inode', offset', readLen inode.stSize offset (iov.map List.length).sum, iov') →
    ReadsFlat inode.stSize offset (iov.map List.length) := by
  induction iov with
  | nil =>
      intro inode offset _ _ _ hst hoffset _ hle _
      rw [List.map_nil, ReadsFlat.nil_iff]
      rw [List.map_nil, List.sum_nil, readLen_eq hst hoffset (by norm_num)] at hle
      by_contra hlt
      rw [if_neg hlt, if_pos (by omega)] at hle
      omega
  | cons buf iov ih =>
      intro inode offset inode' offset' iov' hst hoffset hn hflat h
      rw [List.map_cons] at h hn hflat ⊢
      rw [List.sum_cons] at h hn hflat
      by_cases hle : readLen inode.stSize offset buf.length ≤ buf.length
      · obtain ⟨next, hsame, hloop⟩ := preadvLoop_cons iov hle
        rw [hloop, hsame.size] at h
        by_cases hzero : readLen inode.stSize offset buf.length = 0
        · rw [if_pos hzero] at h
          have htotal : 0 = readLen inode.stSize offset (buf.length + (iov.map List.length).sum) :=
            congrArg (fun r => r.2.2.1) (Option.some.inj h)
          exact ReadsFlat.cons_short hst hoffset hn hle (by omega) (by omega)
        · rw [if_neg hzero] at h
          obtain ⟨⟨_, _, total, _⟩, hrest, heq⟩ := Option.map_eq_some_iff.mp h
          have htotal : readLen inode.stSize offset buf.length + total =
              readLen inode.stSize offset (buf.length + (iov.map List.length).sum) :=
            congrArg (fun r => r.2.2.1) heq
          have hbound := preadvLoop_total_le hrest
          by_cases hfull : readLen inode.stSize offset buf.length = buf.length
          · rw [readLen_add hst hoffset hn hfull] at htotal hflat
            rw [hfull] at hrest htotal
            have htail : total = readLen next.stSize ((offset + buf.length) % 2 ^ 64)
                (iov.map List.length).sum := by
              rw [hsame.size]
              omega
            rw [htail] at hrest
            have hread := ih (hsame.size ▸ hst) (Nat.mod_lt _ (by norm_num)) (by omega)
              (by rw [hsame.size]; omega) hrest
            rw [hsame.size] at hread
            exact ReadsFlat.cons_full hread hst hoffset hn (by omega) hfull
          · have hcases := readLen_short hst hoffset hn (by omega)
            exact ReadsFlat.cons_short hst hoffset hn hle (by omega) (by omega)
      · obtain ⟨next, hnone⟩ := Inode.read_none (Nat.lt_of_not_le hle)
        rw [preadvLoop, hnone] at h
        cases h

/-- The loop of `readv` moves the offset of the file as that of `preadv` moves its own. -/
theorem readvLoop_eq {iov : List (List UInt8)} : ∀ {file : TmpfsFile},
    readvLoop iov file = (preadvLoop iov file.inode file.offset).map fun (inode, offset, total, iov) =>
      ({ file with inode := inode, offset := offset }, total, iov) := by
  induction iov with
  | nil => exact rfl
  | cons buf iov ih =>
      intro file
      rw [readvLoop, preadvLoop, TmpfsFile.read]
      rcases hread : file.inode.read (fun _ => true) file.offset buf.length with ⟨inode, _ | data⟩
      · rfl
      · dsimp only
        by_cases hzero : data.length = 0
        · rw [if_pos hzero, if_pos hzero, if_neg (by omega)]
          rfl
        · rw [if_neg hzero, if_neg hzero, if_pos (by omega), ih, Option.map_map, Option.map_map]
          rfl

/-- The loop gets as many bytes as one read for all buffers exactly under the condition. -/
theorem preadvLoop_iff {iov : List (List UInt8)} (hst : inode.stSize < 2 ^ 64)
    (hoffset : offset < 2 ^ 64) (hn : (iov.map List.length).sum < 2 ^ 63) {len : ℕ}
    (hlen : readLen inode.stSize offset (iov.map List.length).sum = len)
    (hle : len ≤ (iov.map List.length).sum) :
    (∃ inode' iov', preadvLoop iov inode offset = some (inode', (offset + len) % 2 ^ 64, len, iov') ∧
      iov'.flatten = deliver (inode.bytesFrom offset len) iov.flatten) ↔
    ReadsFlat inode.stSize offset (iov.map List.length) := by
  constructor
  · rintro ⟨inode', iov', hrun, -⟩
    exact readsFlat_of_preadvLoop hst hoffset hn (hlen ▸ hle) (hlen ▸ hrun)
  · intro h
    obtain ⟨len', inode', iov', hlen', -, -, hrun, hdata⟩ := preadvLoop_of_readsFlat hst hoffset hn h
    rw [← hlen', hlen] at hrun hdata
    exact ⟨inode', iov', hrun, hdata⟩

/-- A vectored read does not meet the condition if one for all buffers would leave its buffer. -/
theorem not_readsFlat {lens : List ℕ} (hst : inode.stSize < 2 ^ 64) (hoffset : offset < 2 ^ 64)
    (hn : lens.sum < 2 ^ 63) (hlt : lens.sum < readLen inode.stSize offset lens.sum) :
    ¬ ReadsFlat inode.stSize offset lens := by
  intro h
  have hlen := readLen_eq hst hoffset hn
  rcases h.start with hle | ⟨n, hmem, hwrap⟩
  · rw [if_pos hle] at hlen
    split at hlen <;> omega
  · obtain ⟨rest, rfl⟩ := List.head?_eq_some_iff.mp hmem
    rw [List.sum_cons] at hlt hlen
    by_cases hle : offset ≤ inode.stSize
    · rw [if_pos hle, if_neg (by omega)] at hlen
      omega
    · rw [if_neg hle, if_neg (by omega)] at hlen
      omega

theorem fileRead_eq {file : TmpfsFile} (hoffset : file.offset < 2 ^ 64)
    (h : readLen file.inode.stSize file.offset n ≤ n) :
    ∃ inode', file.read n = ({ file with
        inode := inode'
        offset := (file.offset + readLen file.inode.stSize file.offset n) % 2 ^ 64 },
      some (file.inode.bytesFrom file.offset (readLen file.inode.stSize file.offset n))) := by
  obtain ⟨inode', -, hread⟩ := Inode.read_eq h
  refine ⟨inode', ?_⟩
  rw [TmpfsFile.read, hread]
  dsimp only
  rw [Inode.length_bytesFrom]
  by_cases hpos : 0 < readLen file.inode.stSize file.offset n
  · rw [if_pos hpos]
  · rw [if_neg hpos, Nat.eq_zero_of_not_pos hpos, Nat.add_zero, Nat.mod_eq_of_lt hoffset]

/-- A read that fails does not agree with one that returns a number of bytes. -/
theorem not_readsAgree_error {file : TmpfsFile} {e : Errno} {buf : List UInt8}
    {vectored : Option (TmpfsFile × Ret × List (List UInt8))}
    (h : ∀ ret, vectored = some ret → ∃ n, ret.2.1 = .ok n) :
    ¬ ReadsAgree (some (file, .error e, buf)) vectored := by
  rintro ⟨_, _, _, _, _, hflat, hvec, -⟩
  obtain ⟨n, hn⟩ := h _ hvec
  cases hflat
  cases hn

theorem not_readsAgree_none {vectored : Option (TmpfsFile × Ret × List (List UInt8))} :
    ¬ ReadsAgree none vectored := by
  rintro ⟨_, _, _, _, _, hflat, -⟩
  cases hflat

theorem read_agrees_iff (file : TmpfsFile) (iov : List (List UInt8)) (hst : file.inode.stSize < 2 ^ 64)
    (hoffset : file.offset < 2 ^ 64) (hlen : (iov.map List.length).sum < 2 ^ 63) :
    ReadsAgree (read file iov.flatten) (readv file iov) ↔ (isRead file.flags →
      file.isDir = false ∧ ReadsFlat file.inode.stSize file.offset (iov.map List.length)) := by
  by_cases hflags : isRead file.flags
  · rw [read, readv, if_neg (not_not.mpr hflags), if_neg (not_not.mpr hflags), readvLoop_eq,
      Option.map_map, length_flatten_eq]
    simp only [hflags, true_imp_iff]
    by_cases hdir : file.isDir
    · rw [if_pos hdir]
      refine iff_of_false (not_readsAgree_error fun ret hret => ?_) fun h => ?_
      · obtain ⟨_, -, rfl⟩ := Option.map_eq_some_iff.mp hret
        exact ⟨_, rfl⟩
      · exact absurd (hdir.symm.trans h.1) (by decide)
    · rw [if_neg hdir]
      by_cases hle : readLen file.inode.stSize file.offset (iov.map List.length).sum ≤
          (iov.map List.length).sum
      · obtain ⟨inode', hread⟩ := fileRead_eq hoffset hle
        rw [hread]
        dsimp only
        rw [Inode.length_bytesFrom, ← preadvLoop_iff hst hoffset hlen rfl hle]
        constructor
        · rintro ⟨_, _, _, _, _, hflat, hvec, hdata, hend⟩
          obtain ⟨⟨last, offset', total, iov'⟩, hrun, heq⟩ := Option.map_eq_some_iff.mp hvec
          cases hflat
          cases heq
          cases hend
          exact ⟨by simpa using hdir, last, iov', hrun, hdata⟩
        · rintro ⟨-, last, iov', hrun, hdata⟩
          rw [hrun]
          exact ⟨_, _, _, _, _, rfl, rfl, hdata, rfl⟩
      · have hlt := Nat.lt_of_not_le hle
        obtain ⟨inode', hnone⟩ := Inode.read_none hlt
        rw [TmpfsFile.read, hnone]
        exact iff_of_false not_readsAgree_none fun h => not_readsFlat hst hoffset hlen hlt h.2
  · rw [read, readv, if_pos hflags, if_pos hflags]
    exact ⟨fun _ h => absurd h hflags, fun _ => ⟨_, _, _, _, _, rfl, rfl, rfl, rfl⟩⟩

theorem pread_agrees_iff (file : TmpfsFile) (iov : List (List UInt8))
    (hst : file.inode.stSize < 2 ^ 64) (hoffset : offset < 2 ^ 64)
    (hlen : (iov.map List.length).sum < 2 ^ 63) :
    ReadsAgree (pread file iov.flatten offset) (preadv file iov offset) ↔ (isRead file.flags →
      file.isDir = false ∧ ReadsFlat file.inode.stSize offset (iov.map List.length)) := by
  by_cases hflags : isRead file.flags
  · rw [pread, preadv, if_neg (not_not.mpr hflags), if_neg (not_not.mpr hflags), length_flatten_eq]
    simp only [hflags, true_imp_iff]
    by_cases hdir : file.isDir
    · rw [if_pos hdir]
      refine iff_of_false (not_readsAgree_error fun ret hret => ?_) fun h => ?_
      · obtain ⟨_, -, rfl⟩ := Option.map_eq_some_iff.mp hret
        exact ⟨_, rfl⟩
      · exact absurd (hdir.symm.trans h.1) (by decide)
    · rw [if_neg hdir]
      by_cases hle : readLen file.inode.stSize offset (iov.map List.length).sum ≤
          (iov.map List.length).sum
      · obtain ⟨inode', -, hread⟩ := Inode.read_eq hle
        rw [hread]
        dsimp only
        rw [Inode.length_bytesFrom]
        constructor
        · rintro ⟨_, _, _, _, _, hflat, hvec, hdata, hend⟩
          obtain ⟨⟨last, offset', total, iov'⟩, hrun, heq⟩ := Option.map_eq_some_iff.mp hvec
          cases hflat
          cases heq
          exact ⟨by simpa using hdir, readsFlat_of_preadvLoop hst hoffset hlen hle hrun⟩
        · rintro ⟨-, hread⟩
          obtain ⟨last, iov', hrun, hdata⟩ := (preadvLoop_iff hst hoffset hlen rfl hle).mpr hread
          rw [hrun]
          exact ⟨_, _, _, _, _, rfl, rfl, hdata, rfl⟩
      · have hlt := Nat.lt_of_not_le hle
        obtain ⟨inode', hnone⟩ := Inode.read_none hlt
        rw [hnone]
        exact iff_of_false not_readsAgree_none fun h => not_readsFlat hst hoffset hlen hlt h.2
  · rw [pread, preadv, if_pos hflags, if_pos hflags]
    exact ⟨fun _ h => absurd h hflags, fun _ => ⟨_, _, _, _, _, rfl, rfl, rfl, rfl⟩⟩

end Syscall

end Reads

/-! ## Writes -/

section Writes

variable {inode : Inode} {offset : ℕ} {buf : List UInt8}

/-- The bytes after a write, which may go over the last offset. -/
def storedByte (inode : Inode) (offset : ℕ) (buf : List UInt8) (i : ℕ) : UInt8 :=
  if i < 2 ^ 64 ∧ (i + 2 ^ 64 - offset) % 2 ^ 64 < buf.length then
    buf.getD ((i + 2 ^ 64 - offset) % 2 ^ 64) 0
  else inode.memory.byte i

theorem Inode.write_ret (inode : Inode) (offset : ℕ) (buf : List UInt8) :
    (inode.write (fun _ => true) offset buf).2 = buf.length := by
  unfold Inode.write
  dsimp only
  split <;> rfl

theorem Inode.write_size (inode : Inode) (offset : ℕ) (buf : List UInt8) :
    (inode.write (fun _ => true) offset buf).1.stSize =
      max inode.stSize ((offset + buf.length) % 2 ^ 64) := by
  unfold Inode.write
  dsimp only
  split
  · exact (Nat.max_eq_right ‹_›).symm
  · exact (Nat.max_eq_left (Nat.le_of_not_le ‹_›)).symm

theorem Inode.write_byte (inode : Inode) (hoffset : offset < 2 ^ 64) (hbuf : buf.length ≤ 2 ^ 64) (i : ℕ) :
    (inode.write (fun _ => true) offset buf).1.memory.byte i = storedByte inode offset buf i := by
  have hstore := Object.byte_store_wrap inode.memory hoffset hbuf (fun k => buf.getD k 0) i
  unfold Inode.write
  dsimp only
  split <;> exact hstore

/-- A write behind another one. -/
theorem storedByte_append {next : Inode} {rest : List UInt8} (hoffset : offset < 2 ^ 64)
    (hlen : buf.length + rest.length < 2 ^ 63)
    (hnext : ∀ i, next.memory.byte i = storedByte inode offset buf i) (i : ℕ) :
    storedByte next ((offset + buf.length) % 2 ^ 64) rest i =
      storedByte inode offset (buf ++ rest) i := by
  unfold storedByte at hnext ⊢
  rw [hnext i, List.length_append]
  by_cases hi : i < 2 ^ 64
  · generalize hdist : (i + 2 ^ 64 - offset) % 2 ^ 64 = dist
    by_cases hfirst : dist < buf.length
    · have hout : ¬ (i + 2 ^ 64 - (offset + buf.length) % 2 ^ 64) % 2 ^ 64 < rest.length := by omega
      rw [if_neg fun h => hout h.2, if_pos ⟨hi, hfirst⟩, if_pos ⟨hi, Nat.lt_add_right _ hfirst⟩,
        List.getD_append _ _ _ _ hfirst]
    · have hrest : (i + 2 ^ 64 - (offset + buf.length) % 2 ^ 64) % 2 ^ 64 = dist - buf.length := by
        omega
      rw [hrest]
      by_cases hin : dist < buf.length + rest.length
      · rw [if_pos ⟨hi, by omega⟩, if_pos ⟨hi, hin⟩,
          List.getD_append_right _ _ _ _ (Nat.le_of_not_lt hfirst)]
      · have hout : ¬ dist - buf.length < rest.length := by omega
        rw [if_neg fun h => hout h.2, if_neg fun h => hfirst h.2, if_neg fun h => hin h.2]
  · rw [if_neg fun h => hi h.1, if_neg fun h => hi h.1, if_neg fun h => hi h.1]

namespace Syscall

/-- The loop stores the buffers one behind the other, and the size becomes the largest of the ends. -/
theorem pwritevLoop_spec {iov : List (List UInt8)} : ∀ (inode : Inode) {offset : ℕ}, offset < 2 ^ 64 →
    (iov.map List.length).sum < 2 ^ 63 →
    ∃ inode', pwritevLoop iov inode offset =
        (inode', (offset + (iov.map List.length).sum) % 2 ^ 64, (iov.map List.length).sum) ∧
      (∀ i, inode'.memory.byte i = storedByte inode offset iov.flatten i) ∧
      ∀ size, inode'.stSize ≤ size ↔ inode.stSize ≤ size ∧
        ∀ pre post, iov.map List.length = pre ++ post → pre ≠ [] →
          (offset + pre.sum) % 2 ^ 64 ≤ size := by
  induction iov with
  | nil =>
      intro inode offset hoffset _
      refine ⟨inode, ?_, fun i => (if_neg (by simp)).symm, fun size => ?_⟩
      · rw [pwritevLoop, List.map_nil, List.sum_nil, Nat.add_zero, Nat.mod_eq_of_lt hoffset]
      · refine ⟨fun h => ⟨h, fun pre post heq hne => ?_⟩, fun h => h.1⟩
        exact absurd (List.append_eq_nil_iff.mp heq.symm).1 hne
  | cons buf iov ih =>
      intro inode offset hoffset hlen
      rw [List.map_cons, List.sum_cons] at hlen ⊢
      rcases hwrite : inode.write (fun _ => true) offset buf with ⟨next, ret⟩
      have hret : ret = buf.length := by rw [← inode.write_ret offset buf, hwrite]
      have hsize := inode.write_size offset buf
      have hbyte := fun i => Inode.write_byte inode hoffset (by omega : buf.length ≤ 2 ^ 64) i
      rw [hwrite] at hsize hbyte
      obtain ⟨last, hrun, hlast, hends⟩ := ih next
        (Nat.mod_lt (offset + buf.length) (by norm_num)) (by omega)
      refine ⟨last, ?_, fun i => ?_, fun size => ?_⟩
      · rw [pwritevLoop, hwrite, hret]
        dsimp only
        rw [hrun, Nat.mod_add_mod, Nat.add_assoc]
      · rw [hlast i, List.flatten_cons]
        exact storedByte_append hoffset (by rw [length_flatten_eq]; omega) hbyte i
      · rw [hends size, hsize, Nat.max_le]
        constructor
        · rintro ⟨⟨hst, hfirst⟩, hrest⟩
          refine ⟨hst, fun pre post heq hne => ?_⟩
          rcases List.cons_eq_append_iff.mp heq with ⟨hnil, -⟩ | ⟨pre', rfl, hlens⟩
          · exact absurd hnil hne
          · by_cases hnil : pre' = []
            · rw [hnil, List.sum_singleton]
              exact hfirst
            · have hle := hrest pre' post hlens hnil
              rwa [Nat.mod_add_mod, Nat.add_assoc, ← List.sum_cons] at hle
        · rintro ⟨hst, hall⟩
          refine ⟨⟨hst, ?_⟩, fun pre post heq hne => ?_⟩
          · have hfirst := hall [buf.length] (iov.map List.length) rfl (by simp)
            rwa [List.sum_singleton] at hfirst
          · have hle := hall (buf.length :: pre) post (by rw [heq, List.cons_append]) (by simp)
            rwa [List.sum_cons, ← Nat.add_assoc, ← Nat.mod_add_mod] at hle

/-- The loop of `writev` moves the offset of the file as that of `pwritev` moves its own. -/
theorem writevLoop_eq {iov : List (List UInt8)} : ∀ {file : TmpfsFile}, file.offset < 2 ^ 64 →
    writevLoop iov file = ({ file with
        inode := (pwritevLoop iov file.inode file.offset).1
        offset := (pwritevLoop iov file.inode file.offset).2.1 },
      (pwritevLoop iov file.inode file.offset).2.2) := by
  induction iov with
  | nil => exact fun _ => rfl
  | cons buf iov ih =>
      intro file hoffset
      rw [writevLoop, pwritevLoop, TmpfsFile.write]
      rcases hwrite : file.inode.write (fun _ => true) file.offset buf with ⟨inode, ret⟩
      have hend : (if 0 < ret then (file.offset + ret) % 2 ^ 64 else file.offset) =
          (file.offset + ret) % 2 ^ 64 := by
        split
        · rfl
        · rw [Nat.mod_eq_of_lt (by omega)]
          omega
      dsimp only
      rw [hend, ih (Nat.mod_lt _ (by norm_num))]

/-- The size after the loop is that after the flat write exactly under the condition. -/
theorem size_eq_iff {last : Inode} {lens : List ℕ} (hoffset : offset < 2 ^ 64)
    (hends : ∀ size, last.stSize ≤ size ↔ inode.stSize ≤ size ∧
      ∀ pre post, lens = pre ++ post → pre ≠ [] → (offset + pre.sum) % 2 ^ 64 ≤ size) :
    last.stSize = max inode.stSize ((offset + lens.sum) % 2 ^ 64) ↔
      WritesFlat inode.stSize offset lens := by
  obtain ⟨hst, hlast⟩ := (hends last.stSize).mp le_rfl
  by_cases hnil : lens = []
  · subst hnil
    have hsame : last.stSize = inode.stSize :=
      Nat.le_antisymm ((hends _).mpr ⟨le_rfl, fun pre post heq hne =>
        absurd (List.append_eq_nil_iff.mp heq.symm).1 hne⟩) hst
    rw [hsame, List.sum_nil, Nat.add_zero, Nat.mod_eq_of_lt hoffset, left_eq_sup]
    exact ⟨fun h => ⟨fun _ => h, fun pre post heq hne =>
      absurd (List.append_eq_nil_iff.mp heq.symm).1 hne⟩, fun h => h.nil rfl⟩
  · have hall := hlast lens [] (List.append_nil _).symm hnil
    constructor
    · intro heq
      refine ⟨fun h => absurd h hnil, fun pre post hlens hne => ?_⟩
      exact heq ▸ hlast pre post hlens hne
    · intro h
      exact Nat.le_antisymm ((hends _).mpr ⟨Nat.le_max_left _ _, h.le⟩) (Nat.max_le.mpr ⟨hst, hall⟩)

theorem pwrite_agrees_iff (file : TmpfsFile) (iov : List (List UInt8)) (hoffset : offset < 2 ^ 64)
    (hlen : (iov.map List.length).sum < 2 ^ 63) :
    WritesAgree (pwrite file iov.flatten offset) (pwritev file iov offset) ↔
      (isWrite file.flags → WritesFlat file.inode.stSize offset (iov.map List.length)) := by
  by_cases hflags : isWrite file.flags
  · obtain ⟨last, hrun, hbyte, hends⟩ := pwritevLoop_spec file.inode hoffset hlen
    have hsize := file.inode.write_size offset iov.flatten
    have hret := file.inode.write_ret offset iov.flatten
    have hflat := fun i => file.inode.write_byte hoffset (by rw [length_flatten_eq]; omega :
      iov.flatten.length ≤ 2 ^ 64) i
    rw [pwrite, pwritev, if_neg (not_not.mpr hflags), if_neg (not_not.mpr hflags), hrun]
    rcases hwrite : file.inode.write (fun _ => true) offset iov.flatten with ⟨inode, ret⟩
    simp only [hwrite] at hsize hret hflat
    dsimp only
    rw [length_flatten_eq] at hsize hret
    simp only [hflags, true_imp_iff]
    rw [← size_eq_iff hoffset hends, ← hsize, WritesAgree]
    exact ⟨fun h => h.2.2.1, fun h => ⟨by rw [hret], rfl, h, fun i => (hbyte i).trans (hflat i).symm⟩⟩
  · rw [pwrite, pwritev, if_pos hflags, if_pos hflags]
    exact ⟨fun _ h => absurd h hflags, fun _ => ⟨rfl, rfl, rfl, fun _ => rfl⟩⟩

/-- The calls that move the offset of the file are those at an offset, apart from where they leave it. -/
theorem write_agrees_iff (file : TmpfsFile) (iov : List (List UInt8)) (hoffset : file.offset < 2 ^ 64)
    (hlen : (iov.map List.length).sum < 2 ^ 63) :
    WritesAgree (write file iov.flatten) (writev file iov) ↔
      (isWrite file.flags → WritesFlat file.inode.stSize file.offset (iov.map List.length)) := by
  rw [← pwrite_agrees_iff file iov hoffset hlen]
  by_cases hflags : isWrite file.flags
  · obtain ⟨last, hrun, -, -⟩ := pwritevLoop_spec file.inode hoffset hlen
    have hret := file.inode.write_ret file.offset iov.flatten
    rw [write, writev, pwrite, pwritev, if_neg (not_not.mpr hflags), if_neg (not_not.mpr hflags),
      if_neg (not_not.mpr hflags), if_neg (not_not.mpr hflags), writevLoop_eq hoffset, hrun,
      TmpfsFile.write]
    rcases hwrite : file.inode.write (fun _ => true) file.offset iov.flatten with ⟨inode, ret⟩
    simp only [hwrite] at hret
    dsimp only
    rw [length_flatten_eq] at hret
    have hend : (if 0 < ret then (file.offset + ret) % 2 ^ 64 else file.offset) =
        (file.offset + (iov.map List.length).sum) % 2 ^ 64 := by
      rw [hret]
      split
      · rfl
      · rw [Nat.mod_eq_of_lt (by omega)]
        omega
    rw [hend]
    exact ⟨fun h => ⟨h.1, rfl, h.2.2⟩, fun h => ⟨h.1, rfl, h.2.2⟩⟩
  · rw [write, writev, pwrite, pwritev, if_pos hflags, if_pos hflags, if_pos hflags, if_pos hflags]

end Syscall

end Writes

/-- A file of three zero bytes. -/
def exampleFile (offset : ℕ) : TmpfsFile := ⟨{ Inode.new with stSize := 3 }, offset, oRdwr, false⟩

end Ilobilix.Fs
