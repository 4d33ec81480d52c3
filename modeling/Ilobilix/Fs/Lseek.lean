import Ilobilix.Fs.Tmpfs
import Mathlib.Data.Int.Notation

/-!
# The offset of a file: `lseek` in `system/syscall/vfs.cpp`

`lseek` adds an `off_t` to the 64 bits of a base and compares the sum, which has wrapped around, with the
largest `off_t`. A sum below zero is then too large, as it should be. A sum from `2 ^ 64` on is too small
to be noticed.

The offset of a file is not bounded by `lseek` alone: a read or a write that begins at the largest `off_t`
moves it further. The driver of the file is arbitrary here. `lseek_spec` says which calls are right, and
that all are in a run whose reads and writes end at the largest `off_t` at the latest.
-/

namespace Ilobilix.Fs

/-- What a file takes from the driver of its inode. The results are `ssize_t`. -/
structure SeekOps (δ : Type) where
  read : δ → (offset : BitVec 64) → (count : ℕ) → δ × ℤ
  write : δ → (offset : BitVec 64) → (buffer : List UInt8) → δ × ℤ
  stSize : δ → BitVec 64
  /-- The file is a socket or a fifo. -/
  isPipe : Bool

/-- An open file with the state of its inode. -/
structure SeekFile (δ : Type) where
  offset : BitVec 64
  inode : δ
deriving DecidableEq

inductive SeekErrno
  | espipe
  | eoverflow
  | einval
deriving DecidableEq, Repr

/-- `std::numeric_limits<off_t>::max()` as an unsigned number. -/
def offMax : BitVec 64 := 0x7FFFFFFFFFFFFFFF

def seekSet : ℤ := 0
def seekCur : ℤ := 1
def seekEnd : ℤ := 2

namespace SeekFile

variable {δ : Type} (ops : SeekOps δ)

/-- `file::read` and `file::write` go on behind what they have done. -/
def advance (file : SeekFile δ) (result : δ × ℤ) : SeekFile δ where
  offset := if 0 < result.2 then file.offset + BitVec.ofInt 64 result.2 else file.offset
  inode := result.1

def read (file : SeekFile δ) (count : ℕ) : SeekFile δ :=
  file.advance (ops.read file.inode file.offset count)

def write (file : SeekFile δ) (buffer : List UInt8) : SeekFile δ :=
  file.advance (ops.write file.inode file.offset buffer)

/-- The switch over `whence`. -/
def newOffset (file : SeekFile δ) (offset : BitVec 64) (whence : ℤ) :
    Except SeekErrno (BitVec 64) :=
  if whence = seekSet then .ok offset
  else if whence = seekCur then
    if offMax < file.offset + offset then .error .eoverflow else .ok (file.offset + offset)
  else if whence = seekEnd then
    if offMax < ops.stSize file.inode + offset then .error .eoverflow
    else .ok (ops.stSize file.inode + offset)
  else .error .einval

/-- The file and what the call returns. -/
def lseek (file : SeekFile δ) (offset : BitVec 64) (whence : ℤ) :
    SeekFile δ × Except SeekErrno ℤ :=
  if ops.isPipe then (file, .error .espipe)
  else
    match file.newOffset ops offset whence with
    | .error e => (file, .error e)
    | .ok new =>
        if new.toInt < 0 then (file, .error .eoverflow)
        else ({ file with offset := new }, .ok new.toInt)

end SeekFile

inductive SeekCall (δ : Type)
  | read (count : ℕ)
  | write (buffer : List UInt8)
  | lseek (offset : BitVec 64) (whence : ℤ)
  /-- The inode changes by a call on another file. -/
  | other (inode : δ)

section Runs

variable {δ : Type} (ops : SeekOps δ)

/-- The calls on a file after it was opened. -/
def seekSystem : TransitionSystem (SeekFile δ) (SeekCall δ) where
  init file := file.offset = 0
  step file call file' :=
    match call with
    | .read count => file' = file.read ops count
    | .write buffer => file' = file.write ops buffer
    | .lseek offset whence => file' = (file.lseek ops offset whence).1
    | .other inode => file' = { file with inode := inode }

/-- Reads and writes do not end behind the largest `off_t`. -/
def EndsInRange (file : SeekFile δ) : SeekCall δ → Prop
  | .read count => file.offset.toNat + (ops.read file.inode file.offset count).2 < 2 ^ 63
  | .write buffer => file.offset.toNat + (ops.write file.inode file.offset buffer).2 < 2 ^ 63
  | .lseek _ _ | .other _ => True

instance (file : SeekFile δ) : DecidablePred (EndsInRange ops file) := fun call =>
  match call with
  | .read _ | .write _ => inferInstanceAs (Decidable (_ < _))
  | .lseek _ _ | .other _ => inferInstanceAs (Decidable True)

end Runs

/-- The values of `whence` that a program may use. -/
inductive Whence
  | set
  | cur
  | fileEnd
deriving DecidableEq, Repr

namespace Whence

def value : Whence → ℤ
  | set => seekSet
  | cur => seekCur
  | fileEnd => seekEnd

/-- What the offset is added to. -/
def base {δ : Type} (ops : SeekOps δ) (file : SeekFile δ) : Whence → ℤ
  | set => 0
  | cur => file.offset.toNat
  | fileEnd => (ops.stSize file.inode).toInt

end Whence

section Seek

variable {δ : Type} (ops : SeekOps δ)

/-- The call succeeds exactly if the sum is an `off_t`, and the sum is then the new offset. -/
def SeeksRight (file : SeekFile δ) (offset : BitVec 64) (whence : Whence) : Prop :=
  if 0 ≤ whence.base ops file + offset.toInt ∧ whence.base ops file + offset.toInt < 2 ^ 63 then
    (file.lseek ops offset whence.value).2 = .ok (whence.base ops file + offset.toInt) ∧
      ((file.lseek ops offset whence.value).1.offset.toNat : ℤ) =
        whence.base ops file + offset.toInt
  else
    (∃ e, (file.lseek ops offset whence.value).2 = .error e) ∧
      (file.lseek ops offset whence.value).1.offset = file.offset

/-- The sum does not wrap around to one that is not below zero. -/
def NoWrap (file : SeekFile δ) (offset : BitVec 64) (whence : Whence) : Prop :=
  -2 ^ 63 ≤ whence.base ops file + offset.toInt ∧ whence.base ops file + offset.toInt < 2 ^ 64

/-! ## One call -/

/-- The base as the unsigned number that it is in the sum. -/
def Whence.bits (file : SeekFile δ) : Whence → BitVec 64
  | .set => 0
  | .cur => file.offset
  | .fileEnd => ops.stSize file.inode

variable {ops} {file : SeekFile δ} {offset : BitVec 64} {whence : Whence}

theorem Whence.base_emod : (whence.base ops file) % 2 ^ 64 = (whence.bits ops file).toNat := by
  cases whence with
  | set => rfl
  | cur =>
      have hlt := file.offset.isLt
      change (file.offset.toNat : ℤ) % 2 ^ 64 = file.offset.toNat
      omega
  | fileEnd =>
      have hlt := (ops.stSize file.inode).isLt
      change (ops.stSize file.inode).toInt % 2 ^ 64 = (ops.stSize file.inode).toNat
      rw [BitVec.toInt_eq_toNat_cond]
      split <;> omega

theorem toNat_add_eq_emod (a b : BitVec 64) : ((a + b).toNat : ℤ) = (a.toNat + b.toInt) % 2 ^ 64 := by
  rw [BitVec.toNat_add, BitVec.toInt_eq_toNat_cond]
  split <;> omega

/-- The sum of the call, which wraps around. -/
theorem Whence.toNat_sum : ((whence.bits ops file + offset).toNat : ℤ) =
    (whence.base ops file + offset.toInt) % 2 ^ 64 := by
  rw [toNat_add_eq_emod, ← Whence.base_emod]
  omega

theorem offMax_lt_iff (sum : BitVec 64) : offMax < sum ↔ 2 ^ 63 ≤ sum.toNat := by
  rw [BitVec.lt_def, show offMax.toNat = 2 ^ 63 - 1 from rfl]
  omega

theorem toInt_neg_iff (sum : BitVec 64) : sum.toInt < 0 ↔ 2 ^ 63 ≤ sum.toNat := by
  have hlt := sum.isLt
  rw [BitVec.toInt_eq_toNat_cond]
  split <;> omega

/-- The offset that `lseek` looks at, and where it fails earlier the sum is too large for that too. -/
theorem SeekFile.newOffset_eq : file.newOffset ops offset whence.value =
    if whence ≠ .set ∧ offMax < whence.bits ops file + offset then .error .eoverflow
    else .ok (whence.bits ops file + offset) := by
  cases whence with
  | set =>
      rw [if_neg fun h => h.1 rfl, Whence.bits, show (0 : BitVec 64) + offset = offset from
        BitVec.zero_add offset]
      exact if_pos rfl
  | cur =>
      refine ((if_neg (by decide)).trans (if_pos rfl)).trans (if_congr ?_ rfl rfl)
      exact ⟨fun h => ⟨nofun, h⟩, fun h => h.2⟩
  | fileEnd =>
      refine ((if_neg (by decide)).trans ((if_neg (by decide)).trans (if_pos rfl))).trans
        (if_congr ?_ rfl rfl)
      exact ⟨fun h => ⟨nofun, h⟩, fun h => h.2⟩

/-- All in all the call looks at the top bit of the sum. -/
theorem SeekFile.lseek_eq (hpipe : ops.isPipe = false) :
    file.lseek ops offset whence.value =
      if 2 ^ 63 ≤ (whence.bits ops file + offset).toNat then (file, .error .eoverflow)
      else ({ file with offset := whence.bits ops file + offset },
        .ok (whence.bits ops file + offset).toNat) := by
  rw [lseek, hpipe, if_neg Bool.false_ne_true, newOffset_eq]
  generalize whence.bits ops file + offset = sum
  by_cases htop : 2 ^ 63 ≤ sum.toNat
  · rw [if_pos htop]
    by_cases hset : whence ≠ .set ∧ offMax < sum
    · rw [if_pos hset]
    · rw [if_neg hset]
      exact if_pos ((toInt_neg_iff sum).mpr htop)
  · have hsmall : ¬ (whence ≠ .set ∧ offMax < sum) := fun h => htop ((offMax_lt_iff sum).mp h.2)
    rw [if_neg htop, if_neg hsmall, ← BitVec.toInt_eq_toNat_of_lt (by omega)]
    exact if_neg fun h => htop ((toInt_neg_iff sum).mp h)

theorem seeksRight_iff (hpipe : ops.isPipe = false) :
    SeeksRight ops file offset whence ↔ NoWrap ops file offset whence := by
  have hsum : ((whence.bits ops file + offset).toNat : ℤ) =
      (whence.base ops file + offset.toInt) % 2 ^ 64 := Whence.toNat_sum
  have hoffset := offset.toInt_lt
  have hoffset' := offset.le_toInt
  have hbase : -2 ^ 63 ≤ whence.base ops file ∧ whence.base ops file < 2 ^ 64 := by
    cases whence with
    | set =>
        change -2 ^ 63 ≤ (0 : ℤ) ∧ (0 : ℤ) < 2 ^ 64
        omega
    | cur =>
        have hlt := file.offset.isLt
        change -2 ^ 63 ≤ (file.offset.toNat : ℤ) ∧ (file.offset.toNat : ℤ) < 2 ^ 64
        omega
    | fileEnd =>
        have hlt := (ops.stSize file.inode).toInt_lt
        have hle := (ops.stSize file.inode).le_toInt
        change -2 ^ 63 ≤ (ops.stSize file.inode).toInt ∧ (ops.stSize file.inode).toInt < 2 ^ 64
        omega
  have hlow : -2 ^ 64 ≤ whence.base ops file + offset.toInt := by omega
  have hhigh : whence.base ops file + offset.toInt < 2 ^ 64 + 2 ^ 63 := by omega
  rw [SeeksRight, NoWrap, SeekFile.lseek_eq hpipe]
  generalize whence.bits ops file + offset = sum at hsum ⊢
  generalize whence.base ops file + offset.toInt = total at hsum hlow hhigh ⊢
  by_cases htop : 2 ^ 63 ≤ sum.toNat <;> by_cases hin : 0 ≤ total ∧ total < 2 ^ 63
  · omega
  · rw [if_neg hin, if_pos htop]
    exact ⟨fun _ => by omega, fun _ => ⟨⟨_, rfl⟩, rfl⟩⟩
  · have hsame : (sum.toNat : ℤ) = total := by omega
    rw [if_pos hin, if_neg htop, hsame]
    exact ⟨fun _ => by omega, fun _ => ⟨rfl, rfl⟩⟩
  · rw [if_neg hin, if_neg htop]
    constructor
    · rintro ⟨⟨e, he⟩, -⟩
      cases he
    · omega

/-! ## Runs -/

/-- In a run whose reads and writes end in range, the offset is an `off_t`. -/
theorem offset_lt_of_reachable (h : ((seekSystem ops).restrict (EndsInRange ops)).Reachable file) :
    file.offset.toNat < 2 ^ 63 := by
  have hadvance : ∀ {file : SeekFile δ} {result : δ × ℤ}, file.offset.toNat < 2 ^ 63 →
      file.offset.toNat + result.2 < 2 ^ 63 → (file.advance result).offset.toNat < 2 ^ 63 := by
    intro file result hfile hend
    rw [SeekFile.advance]
    dsimp only
    split
    · rw [BitVec.toNat_add, BitVec.toNat_ofInt]
      omega
    · exact hfile
  refine h.invariant (I := fun file => file.offset.toNat < 2 ^ 63) ?_ fun file call file' _ hfile hstep => ?_
  · intro file hinit
    rw [show file.offset = 0 from hinit]
    decide
  · obtain ⟨hend, hcall⟩ := hstep
    cases call with
    | read count =>
        cases hcall
        exact hadvance hfile hend
    | write buffer =>
        cases hcall
        exact hadvance hfile hend
    | lseek offset whence =>
        cases hcall
        rw [SeekFile.lseek]
        split
        · exact hfile
        · split
          · exact hfile
          · rename_i new _
            split
            · exact hfile
            · rename_i hneg
              rw [toInt_neg_iff] at hneg
              exact Nat.lt_of_not_le hneg
    | other inode =>
        cases hcall
        exact hfile

end Seek

/-- A call on a file that is no pipe is right exactly if its sum does not wrap around. In a run whose reads
and writes end at the largest `off_t` at the latest this is so for every call, while the size of the file
is not below zero. -/
theorem lseek_spec {δ : Type} (ops : SeekOps δ) (hpipe : ops.isPipe = false) :
    (∀ file offset whence, SeeksRight ops file offset whence ↔ NoWrap ops file offset whence) ∧
    ∀ file, ((seekSystem ops).restrict (EndsInRange ops)).Reachable file →
      0 ≤ (ops.stSize file.inode).toInt → ∀ offset whence, SeeksRight ops file offset whence := by
  refine ⟨fun file offset whence => seeksRight_iff hpipe, fun file h hsize offset whence => ?_⟩
  have hfile := offset_lt_of_reachable h
  have hoffset := offset.toInt_lt
  have hoffset' := offset.le_toInt
  have hend := (ops.stSize file.inode).toInt_lt
  rw [seeksRight_iff hpipe, NoWrap]
  cases whence with
  | set =>
      change -2 ^ 63 ≤ 0 + offset.toInt ∧ 0 + offset.toInt < 2 ^ 64
      omega
  | cur =>
      change -2 ^ 63 ≤ (file.offset.toNat : ℤ) + offset.toInt ∧ file.offset.toNat + offset.toInt < 2 ^ 64
      omega
  | fileEnd =>
      change -2 ^ 63 ≤ (ops.stSize file.inode).toInt + offset.toInt ∧
        (ops.stSize file.inode).toInt + offset.toInt < 2 ^ 64
      omega

/-- `/dev/zero`, with a size of 0. -/
def zeroOps : SeekOps Unit where
  read _ _ count := ((), count)
  write _ _ buffer := ((), buffer.length)
  stSize _ := 0
  isPipe := false

/-- Back to the start after two reads. -/
theorem lseek_spec_back : SeeksRight zeroOps ⟨8, ()⟩ (-8) .cur := by
  refine (lseek_spec zeroOps rfl).2 ⟨8, ()⟩ ?_ (by decide) (-8) .cur
  have hopen : ((seekSystem zeroOps).restrict (EndsInRange zeroOps)).Reachable ⟨0, ()⟩ :=
    .init rfl
  have hfirst : ((seekSystem zeroOps).restrict (EndsInRange zeroOps)).Reachable ⟨3, ()⟩ :=
    .step (l := .read 3) hopen ⟨by decide, (by decide : (⟨3, ()⟩ : SeekFile Unit) =
      SeekFile.read zeroOps ⟨0, ()⟩ 3)⟩
  exact .step (l := .read 5) hfirst ⟨by decide, (by decide : (⟨8, ()⟩ : SeekFile Unit) =
    SeekFile.read zeroOps ⟨3, ()⟩ 5)⟩

/-- A read at the largest `off_t` moves the offset behind it. From there the largest `off_t` leads back to
the start. -/
theorem not_seeksRight : ¬ ∀ file, (seekSystem zeroOps).Reachable file →
    ∀ offset whence, SeeksRight zeroOps file offset whence := by
  intro h
  have hopen : (seekSystem zeroOps).Reachable ⟨0, ()⟩ := .init rfl
  have hseek : (seekSystem zeroOps).Reachable ⟨offMax, ()⟩ :=
    .step (l := .lseek offMax seekSet) hopen (by decide : (⟨offMax, ()⟩ : SeekFile Unit) =
      (SeekFile.lseek zeroOps ⟨0, ()⟩ offMax seekSet).1)
  have hread : (seekSystem zeroOps).Reachable ⟨offMax + 2, ()⟩ :=
    .step (l := .read 2) hseek (by decide : (⟨offMax + 2, ()⟩ : SeekFile Unit) =
      SeekFile.read zeroOps ⟨offMax, ()⟩ 2)
  have hright := h _ hread offMax .cur
  rw [SeeksRight, if_neg (by decide)] at hright
  exact absurd hright.2 (by decide)

end Ilobilix.Fs
