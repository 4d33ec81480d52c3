import Ilobilix.Fs.FdTable

/-!
# The system calls on descriptors: `dup`, `dup2`, `dup3` and `fcntl` in `system/syscall/vfs.cpp`

A call returns a number or an error and leaves the descriptors and the flags of the open files as
they are after it. It has no result when it does not return.

`Duplicates` is the contract of the calls that duplicate a descriptor. `dup` and `dup3` keep it.
`dup2` forgets the close-on-exec flag of a descriptor that is duplicated to itself, and `fcntl`
passes the wrong descriptor to `dup`: the lower bound it is given instead of the descriptor itself.
-/

namespace Ilobilix.Fs

/-- The errors of the system calls on files. -/
inductive Errno
  | ebadf
  | eexist
  | efault
  | einval
  | eio
  | eisdir
  | eloop
  | emfile
  | enametoolong
  | enodev
  | enoent
  | enosys
  | enotblk
  | enotdir
  | enotempty
  | ebusy
  | exdev
deriving DecidableEq

/-- `o_closexec`. -/
def oClosexec : BitVec 32 := 0x80000#32

/-- `changeable_status_flags`: `o_append`, `o_async`, `o_direct`, `o_noatime` and `o_nonblock`. -/
def changeableStatusFlags : BitVec 32 :=
  0x400#32 ||| 0x2000#32 ||| 0x4000#32 ||| 0x40000#32 ||| 0x800#32

/-- The descriptors of a process, and the flags of the open files. -/
structure Files (F : Type*) where
  fdt : FdTable F
  flags : F → BitVec 32

namespace Files

variable {F : Type*}

/-- `get_fd`. -/
def getFd (s : Files F) (fdnum : ℤ) : Except Errno (Filedesc F) :=
  if fdnum < 0 then .error .ebadf
  else match s.fdt.get fdnum with
    | none => .error .ebadf
    | some desc => .ok desc

/-- `allocate_fd` with the check for a negative number that every caller makes. -/
def allocateFd (s : Files F) (desc : Filedesc F) (fd : ℤ) (force : Bool) :
    Option (Except Errno ℤ × Files F) :=
  (s.fdt.allocateFd desc fd force).map fun (fd, fdt) =>
    (if fd < 0 then .error .emfile else .ok fd, { s with fdt := fdt })

def dup (s : Files F) (oldfd : ℤ) : Option (Except Errno ℤ × Files F) :=
  match s.getFd oldfd with
  | .error e => some (.error e, s)
  | .ok desc => s.allocateFd ⟨desc.file, false⟩ 0 false

def dup2 (s : Files F) (oldfd newfd : ℤ) : Option (Except Errno ℤ × Files F) :=
  if oldfd < 0 ∨ newfd < 0 then some (.error .ebadf, s)
  else match s.fdt.get oldfd with
    | none => some (.error .ebadf, s)
    | some desc => s.allocateFd ⟨desc.file, false⟩ newfd true

def dup3 (s : Files F) (oldfd newfd : ℤ) (flags : BitVec 32) :
    Option (Except Errno ℤ × Files F) :=
  if oldfd = newfd ∨ flags &&& ~~~oClosexec ≠ 0 then some (.error .einval, s)
  else if oldfd < 0 ∨ newfd < 0 then some (.error .ebadf, s)
  else match s.fdt.get oldfd with
    | none => some (.error .ebadf, s)
    | some desc => s.allocateFd ⟨desc.file, flags &&& oClosexec ≠ 0⟩ newfd true

/-- `static_cast<int>(arg)`. -/
def toInt (arg : BitVec 64) : ℤ := (arg.setWidth 32).toInt

/-- Writing `closexec` of the descriptor at `fd`. -/
def setClosexec (s : Files F) (fd : ℤ) (desc : Filedesc F) (closexec : Bool) : Files F :=
  { s with fdt.fds := s.fdt.fds.insert fd { desc with closexec := closexec } }

def fcntl [DecidableEq F] (s : Files F) (fd cmd : ℤ) (arg : BitVec 64) :
    Option (Except Errno ℤ × Files F) :=
  match s.getFd fd with
  | .error e => some (.error e, s)
  | .ok fdesc =>
      match cmd with
      -- F_DUPFD
      | 0 => s.dup (toInt arg)
      -- F_DUPFD_CLOEXEC
      | 1030 =>
          match s.dup (toInt arg) with
          | some (.ok newfd, s') =>
              -- no result: `bug_on(new_fdesc == nullptr)`
              (s'.fdt.get newfd).map fun desc => (.ok newfd, s'.setClosexec newfd desc true)
          | r => r
      -- F_GETFD
      | 1 => some (.ok (if fdesc.closexec then oClosexec.toInt else 0), s)
      -- F_SETFD
      | 2 => some (.ok 0, s.setClosexec fd fdesc (arg &&& oClosexec.setWidth 64 ≠ 0))
      -- F_GETFL
      | 3 => some (.ok (s.flags fdesc.file).toInt, s)
      -- F_SETFL
      | 4 =>
          let newFlags := arg.setWidth 32 &&& changeableStatusFlags
          let kept := s.flags fdesc.file &&& ~~~changeableStatusFlags
          some (.ok 0, { s with flags := Function.update s.flags fdesc.file (kept ||| newFlags) })
      | _ => some (.error .einval, s)

end Files

/-- The calls that duplicate the descriptor `fd`. -/
inductive DupCall
  | dup (fd : ℤ)
  | dup2 (fd n : ℤ)
  | dup3 (fd n : ℤ) (flags : BitVec 32)
  /-- `fcntl` with `F_DUPFD`, or with `F_DUPFD_CLOEXEC`. -/
  | fcntl (fd : ℤ) (cloexec : Bool) (arg : BitVec 64)

namespace DupCall

variable {F : Type*}

def run [DecidableEq F] (s : Files F) : DupCall → Option (Except Errno ℤ × Files F)
  | dup fd => s.dup fd
  | dup2 fd n => s.dup2 fd n
  | dup3 fd n flags => s.dup3 fd n flags
  | fcntl fd cloexec arg => s.fcntl fd (if cloexec then 1030 else 0) arg

def fd : DupCall → ℤ
  | dup fd | dup2 fd _ | dup3 fd _ _ | fcntl fd _ _ => fd

/-- The numbers a call may return. -/
def Allows (ret : ℤ) : DupCall → Prop
  | dup _ => True
  | dup2 _ n | dup3 _ n _ => ret = n
  | fcntl _ _ arg => Files.toInt arg ≤ ret

/-- The close-on-exec flag a call asks for. -/
def closexec : DupCall → Bool
  | dup _ | dup2 _ _ => false
  | dup3 _ _ flags => flags &&& oClosexec ≠ 0
  | fcntl _ cloexec _ => cloexec

/-- `dup2(fd, fd)`. -/
def ToItself : DupCall → Prop
  | dup2 fd n => fd = n
  | _ => False

end DupCall

variable {F : Type*}

/-- The contract of a successful call: `ret` is a descriptor of the file of `fd`, and nothing else
has changed. -/
structure Duplicates (s : Files F) (call : DupCall) (ret : ℤ) (s' : Files F) : Prop where
  number : call.Allows ret
  file : ∃ desc, s.fdt.get call.fd = some desc ∧ ∃ desc', s'.fdt.get ret = some desc' ∧
    desc'.file = desc.file ∧ (¬call.ToItself → desc'.closexec = call.closexec)
  source : s'.fdt.get call.fd = s.fdt.get call.fd
  others : ∀ n, n ≠ ret → s'.fdt.get n = s.fdt.get n
  flags : s'.flags = s.flags

/-- A call keeps the contract whenever it succeeds. -/
def DupCall.Meets [DecidableEq F] (s : Files F) (call : DupCall) : Prop :=
  ∀ ret s', call.run s = some (.ok ret, s') → Duplicates s call ret s'

/-- `dup2` does not duplicate a close-on-exec descriptor to itself. `fcntl` is given a lower bound
that is not an open descriptor, or one of the same file with no free number below it that the
allocation could find. -/
def DupCall.Apt (s : Files F) : DupCall → Prop
  | dup _ | dup3 _ _ _ => True
  | dup2 fd n => fd = n → 0 ≤ fd → ∀ desc, s.fdt.get fd = some desc → desc.closexec = false
  | fcntl fd _ arg => 0 ≤ fd → 0 ≤ Files.toInt arg →
      ∀ desc other, s.fdt.get fd = some desc → s.fdt.get (Files.toInt arg) = some other →
        0 ∈ s.fdt.fds ∧ ∀ n, 0 ≤ n → s.fdt.FirstFree s.fdt.nextFd n →
          other.file = desc.file ∧ Files.toInt arg ≤ n

namespace Files

variable {s s' : Files F} {desc : Filedesc F} {fd ret : ℤ}

theorem getFd_eq_ok : s.getFd fd = .ok desc ↔ 0 ≤ fd ∧ s.fdt.get fd = some desc := by
  rw [getFd]
  split
  · rename_i hneg
    simp [hneg]
  · rename_i hneg
    rw [not_lt] at hneg
    cases s.fdt.get fd <;> simp [hneg]

theorem allocateFd_eq_ok {force : Bool} :
    s.allocateFd desc fd force = some (.ok ret, s') ↔
      s.fdt.allocateFd desc fd force = some (ret, s'.fdt) ∧ 0 ≤ ret ∧ s'.flags = s.flags := by
  rw [allocateFd, Option.map_eq_some_iff]
  constructor
  · rintro ⟨⟨n, fdt⟩, h, heq⟩
    obtain ⟨hret, rfl⟩ := Prod.mk.inj heq
    split at hret
    · cases hret
    · rename_i hneg
      obtain rfl := Except.ok.inj hret
      exact ⟨h, not_lt.mp hneg, rfl⟩
  · rintro ⟨h, hret, hflags⟩
    refine ⟨_, h, ?_⟩
    dsimp only
    rw [if_neg (not_lt.mpr hret), ← hflags]

theorem dup_eq_ok : s.dup fd = some (.ok ret, s') ↔ 0 ≤ fd ∧ ∃ desc, s.fdt.get fd = some desc ∧
    s.allocateFd ⟨desc.file, false⟩ 0 false = some (.ok ret, s') := by
  rw [dup]
  split
  · rename_i e he
    refine iff_of_false (fun h => by cases h) ?_
    rintro ⟨hfd, desc, hdesc, -⟩
    cases he.symm.trans (getFd_eq_ok.mpr ⟨hfd, hdesc⟩)
  · rename_i desc hdesc
    obtain ⟨hfd, hget⟩ := getFd_eq_ok.mp hdesc
    refine ⟨fun h => ⟨hfd, desc, hget, h⟩, ?_⟩
    rintro ⟨-, desc', hget', h⟩
    obtain rfl := Option.some.inj (hget.symm.trans hget')
    exact h

/-- What an allocation for a duplicate leaves behind. -/
theorem get_allocateFd {force : Bool} (h : s.allocateFd desc fd force = some (.ok ret, s')) :
    s'.fdt.get ret = some desc ∧ (∀ n, n ≠ ret → s'.fdt.get n = s.fdt.get n) ∧
      s'.flags = s.flags := by
  obtain ⟨halloc, -, hflags⟩ := allocateFd_eq_ok.mp h
  obtain ⟨hget, -⟩ := FdTable.allocateFd_eq_some halloc
  refine ⟨by rw [hget, Function.update_self], fun n hn => ?_, hflags⟩
  rw [hget, Function.update_of_ne hn]

theorem get_setClosexec (closexec : Bool) : (s.setClosexec fd desc closexec).fdt.get =
    Function.update s.fdt.get fd (some { desc with closexec := closexec }) := by
  funext n
  by_cases h : n = fd
  · rw [h, Function.update_self]
    exact Finmap.lookup_insert _
  · rw [Function.update_of_ne h]
    exact Finmap.lookup_insert_of_ne _ h

/-- An allocation that is not forced returns a number that is not in use. -/
theorem not_mem_of_allocateFd (h : s.allocateFd desc fd false = some (.ok ret, s')) :
    ret ∉ s.fdt.fds := by
  obtain ⟨-, ⟨rfl, hfree | hfree, -⟩ | ⟨-, -, hfree, -⟩⟩ :=
    FdTable.allocateFd_eq_some (allocateFd_eq_ok.mp h).1
  · cases hfree
  · exact hfree
  · exact hfree.1

/-- A forced allocation returns the number it is given. -/
theorem eq_of_allocateFd (h : s.allocateFd desc fd true = some (.ok ret, s')) : ret = fd := by
  obtain ⟨-, ⟨hret, -⟩ | ⟨hforce, -⟩⟩ := FdTable.allocateFd_eq_some (allocateFd_eq_ok.mp h).1
  · exact hret
  · cases hforce

end Files

namespace DupCall

variable {s s' : Files F} {fd n ret : ℤ} {desc : Filedesc F}

/-- A duplicate at a number other than that of its source. -/
theorem duplicates_of_allocate {call : DupCall} {force : Bool} (hfd : s.fdt.get call.fd = some desc)
    (h : s.allocateFd ⟨desc.file, call.closexec⟩ n force = some (.ok ret, s'))
    (hnumber : call.Allows ret) (hne : ret ≠ call.fd) : Duplicates s call ret s' := by
  obtain ⟨hret, hothers, hflags⟩ := Files.get_allocateFd h
  exact ⟨hnumber, ⟨desc, hfd, _, hret, rfl, fun _ => rfl⟩, hothers _ hne.symm, hothers, hflags⟩

theorem ne_of_not_mem (hfd : s.fdt.get fd = some desc) (hret : ret ∉ s.fdt.fds) : ret ≠ fd := by
  rintro rfl
  rw [FdTable.get_eq_none.mpr hret] at hfd
  cases hfd

/-- The descriptors after `fcntl` has duplicated `other` at `ret`. -/
theorem get_fcntl (cloexec : Bool) {t : Files F} {other : Filedesc F}
    (halloc : s.allocateFd ⟨other.file, false⟩ 0 false = some (.ok ret, t)) {d : Filedesc F}
    (hd : t.fdt.get ret = some d) :
    (if cloexec then t.setClosexec ret d true else t).fdt.get ret = some ⟨other.file, cloexec⟩ ∧
      (∀ m, m ≠ ret →
        (if cloexec then t.setClosexec ret d true else t).fdt.get m = s.fdt.get m) ∧
      (if cloexec then t.setClosexec ret d true else t).flags = s.flags := by
  obtain ⟨hret, hothers, hflags⟩ := Files.get_allocateFd halloc
  obtain rfl : ⟨other.file, false⟩ = d := Option.some.inj (hret.symm.trans hd)
  cases cloexec with
  | false => exact ⟨hret, hothers, hflags⟩
  | true =>
      simp only [if_true, Files.get_setClosexec]
      refine ⟨Function.update_self _ _ _, fun m hm => ?_, hflags⟩
      rw [Function.update_of_ne hm, hothers m hm]

variable [DecidableEq F]

theorem dup_meets : (dup fd).Meets s := by
  intro ret s' h
  obtain ⟨-, desc, hdesc, halloc⟩ := Files.dup_eq_ok.mp h
  exact duplicates_of_allocate hdesc halloc trivial
    (ne_of_not_mem hdesc (Files.not_mem_of_allocateFd halloc))

theorem dup3_meets {flags : BitVec 32} : (dup3 fd n flags).Meets s := by
  intro ret s' h
  rw [run, Files.dup3] at h
  split at h
  · cases h
  rename_i hargs
  split at h
  · cases h
  split at h
  · cases h
  rename_i desc hdesc
  obtain rfl := Files.eq_of_allocateFd h
  exact duplicates_of_allocate hdesc h rfl fun heq => hargs (.inl heq.symm)

theorem dup2_eq_ok : (dup2 fd n).run s = some (.ok ret, s') ↔ 0 ≤ fd ∧ 0 ≤ n ∧ ∃ desc,
    s.fdt.get fd = some desc ∧ s.allocateFd ⟨desc.file, false⟩ n true = some (.ok ret, s') := by
  rw [run, Files.dup2]
  split
  · rename_i hneg
    refine iff_of_false (fun h => by cases h) ?_
    rintro ⟨hfd, hn, -⟩
    omega
  · rename_i hneg
    have hfd : 0 ≤ fd := by omega
    have hn : 0 ≤ n := by omega
    cases hdesc : s.fdt.get fd <;> simp [hfd, hn]

/-- Duplicating a descriptor to itself replaces it by one that is kept on exec. -/
theorem dup2_meets_iff : (dup2 fd n).Meets s ↔ (dup2 fd n).Apt s := by
  constructor
  · rintro h rfl hfd desc hdesc
    have hmem : fd ∈ s.fdt.fds := by
      by_contra hfree
      rw [FdTable.get_eq_none.mpr hfree] at hdesc
      cases hdesc
    have halloc : s.allocateFd ⟨desc.file, false⟩ fd true = some (.ok fd, { s with
        fdt.fds := (s.fdt.fds.erase fd).insert fd ⟨desc.file, false⟩ }) := by
      rw [Files.allocateFd_eq_ok, FdTable.allocateFd, if_pos hmem, if_pos rfl]
      exact ⟨rfl, hfd, rfl⟩
    have hsource := (h _ _ (dup2_eq_ok.mpr ⟨hfd, hfd, desc, hdesc, halloc⟩)).source
    have hclosexec : some ⟨desc.file, false⟩ = some desc :=
      (Files.get_allocateFd halloc).1.symm.trans (hsource.trans hdesc)
    rw [← Option.some.inj hclosexec]
  · intro hapt ret s' h
    obtain ⟨hfd, hn, desc, hdesc, halloc⟩ := dup2_eq_ok.mp h
    obtain rfl := Files.eq_of_allocateFd halloc
    by_cases heq : fd = ret
    · subst heq
      obtain ⟨hret, hothers, hflags⟩ := Files.get_allocateFd halloc
      have hsame : s'.fdt.get fd = s.fdt.get fd := by
        rw [hret, hdesc, ← hapt rfl hfd desc hdesc]
      exact ⟨rfl, ⟨desc, hdesc, _, hret, rfl, fun h => absurd rfl h⟩, hsame, hothers, hflags⟩
    · exact duplicates_of_allocate hdesc halloc rfl (Ne.symm heq)

/-- `fcntl` duplicates the descriptor `arg`; the one with `F_DUPFD_CLOEXEC` then sets the flag. -/
theorem fcntl_eq_ok {cloexec : Bool} {arg : BitVec 64} :
    (fcntl fd cloexec arg).run s = some (.ok ret, s') ↔
      (∃ desc, 0 ≤ fd ∧ s.fdt.get fd = some desc) ∧ ∃ t,
        s.dup (Files.toInt arg) = some (.ok ret, t) ∧ ∃ desc, t.fdt.get ret = some desc ∧
          s' = if cloexec then t.setClosexec ret desc true else t := by
  have hget : ∀ t, s.dup (Files.toInt arg) = some (.ok ret, t) →
      ∃ desc, t.fdt.get ret = some desc := by
    intro t ht
    obtain ⟨-, desc, -, halloc⟩ := Files.dup_eq_ok.mp ht
    exact ⟨_, (Files.get_allocateFd halloc).1⟩
  simp only [← Files.getFd_eq_ok]
  rw [run, Files.fcntl]
  cases hfd : s.getFd fd with
  | error e => simp
  | ok desc =>
      cases cloexec with
      | false =>
          simp only [Bool.false_eq_true, if_false]
          refine ⟨fun h => ⟨⟨desc, rfl⟩, s', h, ?_⟩, ?_⟩
          · obtain ⟨d, hd⟩ := hget s' h
            exact ⟨d, hd, rfl⟩
          · rintro ⟨-, t, h, -, -, rfl⟩
            exact h
      | true =>
          simp only [if_true]
          refine ⟨fun h => ⟨⟨desc, rfl⟩, ?_⟩, ?_⟩
          · split at h
            · rename_i m t hdup
              obtain ⟨d, hd, heq⟩ := Option.map_eq_some_iff.mp h
              obtain ⟨hm, rfl⟩ := Prod.mk.inj heq
              obtain rfl := Except.ok.inj hm
              exact ⟨t, hdup, d, hd, rfl⟩
            · rename_i hne
              exact absurd h fun h => hne _ _ h
          · rintro ⟨-, t, hdup, d, hd, rfl⟩
            rw [hdup]
            dsimp only
            rw [hd]
            rfl

/-- `fcntl` returns the duplicate of the descriptor `arg`. -/
theorem fcntl_of_allocate {cloexec : Bool} {arg : BitVec 64} {t : Files F} {other : Filedesc F}
    (hmeets : (fcntl fd cloexec arg).Meets s) (hfd : 0 ≤ fd) (hdesc : s.fdt.get fd = some desc)
    (harg : 0 ≤ Files.toInt arg) (hother : s.fdt.get (Files.toInt arg) = some other)
    (halloc : s.allocateFd ⟨other.file, false⟩ 0 false = some (.ok n, t)) :
    other.file = desc.file ∧ Files.toInt arg ≤ n := by
  have hd := (Files.get_allocateFd halloc).1
  have hrun : (fcntl fd cloexec arg).run s = some (.ok n, _) := fcntl_eq_ok.mpr
    ⟨⟨desc, hfd, hdesc⟩, t, Files.dup_eq_ok.mpr ⟨harg, other, hother, halloc⟩, _, hd, rfl⟩
  obtain ⟨hnumber, ⟨desc₁, hdesc₁, desc₂, hdesc₂, hfile, -⟩, -, -, -⟩ := hmeets _ _ hrun
  obtain rfl := Option.some.inj (hdesc.symm.trans hdesc₁)
  obtain rfl := Option.some.inj ((get_fcntl cloexec halloc hd).1.symm.trans hdesc₂)
  exact ⟨hfile, hnumber⟩

theorem fcntl_meets_iff {cloexec : Bool} {arg : BitVec 64} :
    (fcntl fd cloexec arg).Meets s ↔ (fcntl fd cloexec arg).Apt s := by
  constructor
  · intro hmeets hfd harg desc other hdesc hother
    have hzero : 0 ∈ s.fdt.fds := by
      by_contra hfree
      have halloc : s.allocateFd ⟨other.file, false⟩ 0 false = some (.ok 0, { s with
          fdt.fds := s.fdt.fds.insert 0 ⟨other.file, false⟩ }) := by
        rw [Files.allocateFd_eq_ok, FdTable.allocateFd, if_neg hfree]
        exact ⟨rfl, le_rfl, rfl⟩
      have hle := (fcntl_of_allocate hmeets hfd hdesc harg hother halloc).2
      rw [le_antisymm hle harg, FdTable.get_eq_none.mpr hfree] at hother
      cases hother
    refine ⟨hzero, fun n hn hfirst => ?_⟩
    have halloc : s.allocateFd ⟨other.file, false⟩ 0 false = some (.ok n, { s with
        fdt := ⟨s.fdt.fds.insert n ⟨other.file, false⟩, incr s.fdt.nextFd⟩ }) := by
      rw [Files.allocateFd_eq_ok, FdTable.allocateFd, if_pos hzero, if_neg Bool.false_ne_true,
        FdTable.scan_eq_some_iff.mpr hfirst]
      exact ⟨rfl, hn, rfl⟩
    exact fcntl_of_allocate hmeets hfd hdesc harg hother halloc
  · intro hapt ret s' h
    obtain ⟨⟨desc, hfd, hdesc⟩, t, hdup, d, hd, rfl⟩ := fcntl_eq_ok.mp h
    obtain ⟨harg, other, hother, halloc⟩ := Files.dup_eq_ok.mp hdup
    obtain ⟨hzero, hfirst⟩ := hapt hfd harg desc other hdesc hother
    -- 0 is in use, so the number comes from the loop
    obtain ⟨hfile, hle⟩ : other.file = desc.file ∧ Files.toInt arg ≤ ret := by
      obtain ⟨halloc', hret, -⟩ := Files.allocateFd_eq_ok.mp halloc
      obtain ⟨-, ⟨-, hfree | hfree, -⟩ | ⟨-, -, hfree, -⟩⟩ := FdTable.allocateFd_eq_some halloc'
      · cases hfree
      · exact absurd hzero hfree
      · exact hfirst ret hret hfree
    obtain ⟨hret, hothers, hflags⟩ := get_fcntl cloexec halloc hd
    have hne : ret ≠ fd := ne_of_not_mem hdesc (Files.not_mem_of_allocateFd halloc)
    exact ⟨hle, ⟨desc, hdesc, _, hret, hfile, fun _ => rfl⟩, hothers _ hne.symm, hothers, hflags⟩

end DupCall

/-- A call that duplicates a descriptor keeps its contract exactly when it is apt: always for `dup`
and `dup3`. -/
theorem dup_meets_iff_apt [DecidableEq F] (s : Files F) (call : DupCall) :
    call.Meets s ↔ call.Apt s := by
  cases call with
  | dup fd => exact iff_of_true DupCall.dup_meets trivial
  | dup2 fd n => exact DupCall.dup2_meets_iff
  | dup3 fd n flags => exact iff_of_true DupCall.dup3_meets trivial
  | fcntl fd cloexec arg => exact DupCall.fcntl_meets_iff

/-- Descriptor 0 of one file, closed on exec, and descriptor 1 of another one. -/
def twoFiles : Files Bool where
  fdt.fds := ((∅ : Finmap fun _ : ℤ => Filedesc Bool).insert 0 ⟨false, true⟩).insert 1 ⟨true, false⟩
  fdt.nextFd := 1
  flags := fun _ => 0

/-- `fcntl(0, F_DUPFD, 1)` returns a descriptor of the file of descriptor 1, and `dup2(0, 0)` clears
the flag of descriptor 0. -/
theorem dup_wrong_file : ¬(DupCall.fcntl 0 false 1).Meets twoFiles ∧
    ¬(DupCall.dup2 0 0).Meets twoFiles := by
  constructor
  · intro h
    obtain ⟨-, ⟨desc, hdesc, desc', hdesc', hfile, -⟩, -, -, -⟩ := h 2 _ rfl
    cases hdesc
    cases hdesc'
    cases hfile
  · intro h
    cases (h 0 _ rfl).source

end Ilobilix.Fs
