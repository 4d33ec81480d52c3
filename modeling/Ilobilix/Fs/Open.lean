import Ilobilix.Fs.Descriptors
import Ilobilix.Fs.Vfs.Create
import Ilobilix.Fs.Vfs.Termination

/-!
# Opening files: `openat` in `system/syscall/vfs.cpp`

`openat` checks its flags, finds the file or creates it, checks the type of the file, allocates a
descriptor, and has the driver open and truncate the file. `Fulfils` is what a call is for, whichever
way it takes through the function. The ways that do not meet it:

* `o_tmpfile` contains the bit of `o_directory`, so a directory that is opened read-only with
  `o_directory` is taken for a temporary file without write access.
* The assertion after `create` is the wrong way round: it fails if the new dentry has an inode. A path
  whose directory part is a symbolic link does not get that far.
* The inode of the root dentry has no operations, and an assertion fails when it is opened.
* A descriptor with a negative number, and one of a file that the driver does not truncate, is left in
  the table although the call fails.

Opening does not change the directory tree in any of the ways that return, so a call meets its
contract if and only if it takes none of these and the lookups it makes return (`openat_iff`).
-/

namespace Ilobilix.Fs

open Outcome

/-! ## Flags -/

def oDirectory : BitVec 32 := 0o200000
def oNofollow : BitVec 32 := 0o400000
def oPath : BitVec 32 := 0o10000000
def oAccmode : BitVec 32 := 3 ||| oPath
def oRdonly : BitVec 32 := 0
def oWronly : BitVec 32 := 1
def oRdwr : BitVec 32 := 2
def oCreat : BitVec 32 := 0o100
def oExcl : BitVec 32 := 0o200
def oNoctty : BitVec 32 := 0o400
def oTrunc : BitVec 32 := 0o1000
def oTmpfile : BitVec 32 := 0o20000000 ||| oDirectory

def creationFlags : BitVec 32 :=
  oCreat ||| oExcl ||| oNoctty ||| oTrunc ||| oDirectory ||| oNofollow ||| oClosexec ||| oTmpfile

/-- Some bit of the mask is set. -/
def Has (flags mask : BitVec 32) : Prop := flags &&& mask ≠ 0

instance (flags mask : BitVec 32) : Decidable (Has flags mask) := inferInstanceAs (Decidable (_ ≠ _))

def isWrite (flags : BitVec 32) : Prop :=
  flags &&& oAccmode = oWronly ∨ flags &&& oAccmode = oRdwr

instance (flags : BitVec 32) : Decidable (isWrite flags) := inferInstanceAs (Decidable (_ ∨ _))

/-- The bits of a mode that are not the type. -/
def permissions : BitVec 32 := 0o7777

def atFdcwd : ℤ := -100

/-! ## The call -/

/-- `vfs::file`. -/
structure OpenFile where
  path : Path
  offset : ℕ
  flags : BitVec 32

/-- `filedesc::create`. -/
def Filedesc.create (path : Path) (flags : BitVec 32) : Filedesc OpenFile :=
  ⟨⟨path, 0, flags &&& ~~~creationFlags⟩, decide (Has flags oClosexec)⟩

/-- The virtual file system, and what `openat` uses of the process that calls it. -/
structure OpenState where
  vfs : Vfs
  fdt : FdTable OpenFile
  cwd : Path
  umask : BitVec 32

/-- The path name of a call in the memory of the user. -/
inductive UserPath
  | null
  | empty
  | tooLong
  | text (path : PathName)

structure OpenCall where
  dirfd : ℤ
  pathname : UserPath
  flags : BitVec 32
  mode : BitVec 32

/-- What the operations of a file return. -/
structure Driver where
  opens : OpenFile → Bool
  truncs : OpenFile → Bool

/-- `get_path`. -/
def UserPath.get : UserPath → Except Errno PathName
  | null => .error .efault
  | empty => .error .einval
  | tooLong => .error .enametoolong
  | text path => .ok path

/-- `map_error`; `none` is a panic. -/
def mapError : VfsError → Option Errno
  | .alreadyExists => some .eexist
  | .notFound => some .enoent
  | .notADir => some .enotdir
  | .notABlock => some .enotblk
  | .symloopMax => some .eloop
  | .targetIsADir => some .eisdir
  | .targetIsBusy => some .ebusy
  | .dirNotEmpty => some .enotempty
  | .differentFilesystem => some .exdev
  | .invalidFilesystem => some .enodev
  | .invalidSymlink => some .einval
  | .invalidDevice => none
  | .invalidType => none

/-- A result of the virtual file system with its error mapped. -/
def mapResult {α : Type} : Except VfsError α → Except Stop (Except Errno α)
  | .ok a => .ok (.ok a)
  | .error e =>
      match mapError e with
      | some errno => .ok (.error errno)
      | none => .error .bug

/-- The last part of a path, as a path. -/
def PathName.basenamePath : PathName → PathName
  | empty => empty
  | absolute names => names.getLast?.elim empty fun name => relative 0 [name]
  | relative ups names => names.getLast?.elim (relative (min ups 1) []) fun name => relative 0 [name]

namespace OpenState

/-- `get_root(true)`. -/
def getRoot (s : OpenState) : Path :=
  ⟨(s.vfs.dentryAt Vfs.absoluteRoot).childMounts.head?, some Vfs.absoluteRoot⟩

def getParent (s : OpenState) (dirfd : ℤ) (path : PathName) : Except Stop (Except Errno Path) :=
  if path.isAbsolute then .ok (.ok s.getRoot)
  else if dirfd = atFdcwd then .ok (.ok s.cwd)
  else if dirfd < 0 then .ok (.error .ebadf)
  else
    match s.fdt.get dirfd with
    | none => .ok (.error .ebadf)
    | some fd =>
        match fd.file.path.dentry with
        | none => .error .nullDentry
        | some d =>
            if (s.vfs.dentryAt d).type ≠ sIfdir then .ok (.error .enotdir)
            else .ok (.ok fd.file.path)

def resolveFrom (s : OpenState) (fuel : ℕ) (dirfd : ℤ) (path : PathName) :
    Except Stop (Except Errno ResolveRes) := do
  match ← s.getParent dirfd path with
  | .error errno => .ok (.error errno)
  | .ok parent =>
      let res ← ExceptT.run (s.vfs.resolve fuel (some parent) path)
      mapResult res

/-- The checks of the flags. -/
def checkFlags (flags : BitVec 32) : Option Errno :=
  if Has flags oTmpfile ∧ ¬isWrite flags then some .einval
  else if Has flags oDirectory ∧ Has flags oCreat then some .einval
  else none

/-- The inode of a dentry. Every dentry has one. -/
def inodeOf (vfs : Vfs) (d : DentryId) : Option InodeId := some (vfs.dentryAt d).inode

/-- The branch of a path that does not resolve, with `o_creat`. -/
def create (s : OpenState) (fuel : ℕ) (c : OpenCall) (path : PathName) :
    Except Stop (Except Errno (Path × Vfs)) := do
  match ← s.resolveFrom fuel c.dirfd path.dirname with
  | .error errno => .ok (.error errno)
  | .ok parent =>
      match parent.target.dentry with
      | none => .error .nullDentry
      | some d =>
          if (s.vfs.dentryAt d).type ≠ sIfdir then .ok (.error .enotdir)
          else do
            let mode := c.mode &&& permissions
            let created ← ExceptT.run (s.vfs.create fuel (some parent.target) path.basenamePath
              (mode &&& ~~~s.umask).toNat 0)
            match ← mapResult created with
            | .error errno => .ok (.error errno)
            | .ok (created, vfs) =>
                -- bug_on(!created->dentry || created->dentry->inode)
                if created.dentry = none ∨ (created.dentry.bind (inodeOf vfs)).isSome then .error .bug
                else .ok (.ok (created, vfs))

/-- The branch of a path that resolves. -/
def follow (s : OpenState) (fuel : ℕ) (c : OpenCall) (res : ResolveRes) :
    Except Stop (Except Errno (Path × Vfs)) :=
  -- bug_on(!target.dentry || !target.dentry->inode)
  if (res.target.dentry.bind (inodeOf s.vfs)).isNone then .error .bug
  else if Has c.flags oNofollow then .ok (.ok (res.target, s.vfs))
  else do
    let reduced ← ExceptT.run (s.vfs.reduce fuel res.parent res.target symloopMax)
    match ← mapResult reduced with
    | .error errno => .ok (.error errno)
    | .ok target => .ok (.ok (target, s.vfs))

/-- The file to open. -/
def find (s : OpenState) (fuel : ℕ) (c : OpenCall) (path : PathName) :
    Except Stop (Except Errno (Path × Vfs)) := do
  match ← s.resolveFrom fuel c.dirfd path with
  | .error errno => if Has c.flags oCreat then s.create fuel c path else .ok (.error errno)
  | .ok res =>
      if Has c.flags oExcl ∧ Has c.flags oCreat then .ok (.error .eexist) else s.follow fuel c res

/-- The check of the type of the file. -/
def checkType (type : ℕ) (flags : BitVec 32) : Option Errno :=
  if type = sIfdir ∧ isWrite flags then some .eisdir
  else if type ≠ sIfdir ∧ Has flags oDirectory then some .enotdir
  else none

/-- The inode of `vfs::root`, which is the only one without operations. -/
def rootInode : InodeId := 0

/-- A descriptor for the file, which the driver opens and truncates. -/
def install (drv : Driver) (s : OpenState) (flags : BitVec 32) (target : Path) (d : DentryId)
    (vfs : Vfs) : Except Stop (OpenState × Except Errno ℤ) :=
  let fdesc := Filedesc.create target flags
  match s.fdt.allocateFd fdesc 0 false with
  | none => .error .fuel
  | some (fd, fdt) =>
      let opened : OpenState := { s with vfs := vfs.hold target, fdt := fdt }
      if fd < 0 then .ok (opened, .error .emfile)
      else if (vfs.dentryAt d).inode = rootInode then .error .bug
      else if ¬drv.opens fdesc.file then
        .ok ({ s with vfs := vfs, fdt := (fdt.close fd).2 }, .error .eio)
      else if Has flags oTrunc ∧ ¬drv.truncs fdesc.file then .ok (opened, .error .einval)
      else .ok (opened, .ok fd)

/-- What follows the search for the file. -/
def finish (drv : Driver) (s : OpenState) (flags : BitVec 32) :
    Except Errno (Path × Vfs) → Except Stop (OpenState × Except Errno ℤ)
  | .error errno => .ok (s, .error errno)
  | .ok (target, vfs) =>
      match target.dentry with
      | none => .error .nullDentry
      | some d =>
          match checkType (vfs.dentryAt d).type flags with
          | some errno => .ok ({ s with vfs := vfs }, .error errno)
          | none => install drv s flags target d vfs

def openat (drv : Driver) (s : OpenState) (fuel : ℕ) (c : OpenCall) :
    Except Stop (OpenState × Except Errno ℤ) :=
  match checkFlags c.flags with
  | some errno => .ok (s, .error errno)
  | none =>
      match c.pathname.get with
      | .error errno => .ok (s, .error errno)
      | .ok path => do
          let found ← s.find fuel c path
          finish drv s c.flags found

/-! ## What a call is for -/

/-- The path and the directory that it is looked up from. -/
def From (s : OpenState) (c : OpenCall) (path : PathName) (parent : Path) : Prop :=
  c.pathname = .text path ∧ s.getParent c.dirfd path = .ok (.ok parent)

/-- The path of the call leads to this file in `vfs`, with a symbolic link followed unless
`o_nofollow` is given. -/
def Finds (s : OpenState) (vfs : Vfs) (c : OpenCall) (target : Path) : Prop :=
  ∃ path parent, s.From c path parent ∧
    Returns (fun fuel => vfs.lookup fuel (some parent) path (decide ¬Has c.flags oNofollow))
      (.ok target)

/-- The file is missing, and its directory is there. -/
def Missing (s : OpenState) (c : OpenCall) : Prop :=
  ∃ path parent, s.From c path parent ∧
    (∃ e, Returns (fun fuel => s.vfs.resolve fuel (some parent) path) (.error e)) ∧
    ∃ dir, Returns (fun fuel => s.vfs.lookup fuel (some parent) path.dirname true) (.ok dir) ∧
      s.vfs.IsDir dir

/-- A directory that is opened read-only with `o_directory`. -/
def OpensDirectory (s : OpenState) (c : OpenCall) : Prop :=
  c.flags &&& oAccmode = oRdonly ∧ Has c.flags oDirectory ∧ ¬Has c.flags oCreat ∧
    ∃ target, s.Finds s.vfs c target ∧ s.vfs.IsDir target

/-- What `openat` is for: a call that fails leaves the descriptors as they are, and one that succeeds
returns a new descriptor of the file that the path leads to. -/
structure Fulfils (s : OpenState) (c : OpenCall) (s' : OpenState) (r : Except Errno ℤ) : Prop where
  failed : ∀ errno, r = .error errno → s'.fdt.get = s.fdt.get
  opened : ∀ fd, r = .ok fd → 0 ≤ fd ∧ s.fdt.get fd = none ∧ ∃ target, s.Finds s'.vfs c target ∧
    s'.fdt.get = Function.update s.fdt.get fd (some (Filedesc.create target c.flags))
  created : Has c.flags oCreat → s.Missing c → ∃ fd, r = .ok fd ∧ ∃ target d,
    s.Finds s'.vfs c target ∧ target.dentry = some d ∧
      (s'.vfs.dentryAt d).stMode &&& permissions.toNat = (c.mode &&& permissions &&& ~~~s.umask).toNat
  directory : s.OpensDirectory c → ∃ fd, r = .ok fd

/-- The call returns and does what it is for. -/
def Meets (drv : Driver) (s : OpenState) (c : OpenCall) : Prop :=
  ∃ s' r, Returns (fun fuel => s.openat drv fuel c) (s', r) ∧ s.Fulfils c s' r

/-! ## When it does so -/

/-- The lookups that a call makes return, and do not give a null dentry. -/
structure Settles (s : OpenState) (c : OpenCall) (path : PathName) (parent : Path) : Prop where
  resolve : ∃ r, Returns (fun fuel => s.vfs.resolve fuel (some parent) path) r
  dirname : ∀ e, Returns (fun fuel => s.vfs.resolve fuel (some parent) path) (.error e) →
    Has c.flags oCreat →
      ∃ r, Returns (fun fuel => s.vfs.resolve fuel (some parent) path.dirname) r ∧
        ∀ res, r = .ok res → res.target.dentry ≠ none
  reduce : ∀ res, Returns (fun fuel => s.vfs.resolve fuel (some parent) path) (.ok res) →
    ¬(Has c.flags oExcl ∧ Has c.flags oCreat) → res.target.dentry ≠ none ∧
      (¬Has c.flags oNofollow →
        ∃ r, Returns (fun fuel => s.vfs.reduce fuel res.parent res.target symloopMax) r ∧
          ∀ target, r = .ok target → target.dentry ≠ none)

/-- The call gets as far as a descriptor for this file. -/
def Allocates (s : OpenState) (c : OpenCall) (target : Path) (d : DentryId) : Prop :=
  checkFlags c.flags = none ∧ s.Finds s.vfs c target ∧ target.dentry = some d ∧
    ¬(Has c.flags oExcl ∧ Has c.flags oCreat) ∧ checkType (s.vfs.dentryAt d).type c.flags = none

/-- The number that `allocate_fd` finds. -/
def Allots (s : OpenState) (fd : ℤ) : Prop :=
  0 ∉ s.fdt.fds ∧ fd = 0 ∨ 0 ∈ s.fdt.fds ∧ s.fdt.FirstFree s.fdt.nextFd fd

/-- The condition for a call to do what it is for. -/
structure Apt (drv : Driver) (s : OpenState) (c : OpenCall) : Prop where
  created : ¬(Has c.flags oCreat ∧ s.Missing c)
  directory : ¬s.OpensDirectory c
  settles : checkFlags c.flags = none → ∀ path, c.pathname = .text path →
    s.getParent c.dirfd path ≠ .error .nullDentry ∧
      ∀ parent, s.From c path parent → s.Settles c path parent
  allots : ∀ target d, s.Allocates c target d → (∃ fd, s.Allots fd ∧ 0 ≤ fd) ∧
    (s.vfs.dentryAt d).inode ≠ rootInode
  truncates : ∀ target d, s.Allocates c target d → Has c.flags oTrunc →
    drv.opens (Filedesc.create target c.flags).file = true →
      drv.truncs (Filedesc.create target c.flags).file = true

end OpenState

/-! ## The errors of a lookup -/

namespace Outcome

variable {α β : Type}

/-- An error of the call is one that `map_error` knows. -/
def Mappable (x : Outcome α) : Prop := ∀ e, x = throw e → ∃ errno, mapError e = some errno

theorem Mappable.pure (a : α) : Mappable (pure a : Outcome α) := fun _ h => by cases h

theorem Mappable.stop (e : Stop) : Mappable (stop e : Outcome α) := fun _ h => by cases h

theorem Mappable.throw {e : VfsError} {errno : Errno} (h : mapError e = some errno) :
    Mappable (throw e : Outcome α) := fun _ he => by
  cases he
  exact ⟨errno, h⟩

theorem Mappable.bind {x : Outcome α} {f : α → Outcome β} (hx : Mappable x)
    (hf : ∀ a, Mappable (f a)) : Mappable (x >>= f) := by
  obtain ⟨a, rfl⟩ | ⟨e, rfl⟩ | ⟨e, rfl⟩ := cases_outcome x
  · exact hf a
  · intro e' he'
    cases he'
    exact hx e rfl
  · exact .stop e

theorem Mappable.attempt (x : Outcome α) : Mappable (attempt x) := by
  obtain ⟨a, rfl⟩ | ⟨e, rfl⟩ | ⟨e, rfl⟩ := cases_outcome x
  · exact .pure _
  · exact .pure _
  · exact .stop e

theorem Mappable.ite {c : Prop} [Decidable c] {x y : Outcome α} (hx : Mappable x)
    (hy : Mappable y) : Mappable (if c then x else y) := by
  split
  · exact hx
  · exact hy

end Outcome

namespace Vfs

variable (s : Vfs)

theorem derefDentry_mappable (d : Option DentryId) : Mappable (s.derefDentry d) := by
  cases d with
  | none => exact .stop _
  | some d => exact .pure _

theorem derefMount_mappable (m : Option MountId) : Mappable (s.derefMount m) := by
  cases m with
  | none => exact .stop _
  | some m => exact .pure _

theorem climb_mappable (n : ℕ) (p : Path) : Mappable (s.climb n p) := by
  induction n generalizing p with
  | zero => exact (s.derefMount_mappable _).bind fun m => .ite (.stop _) (.pure _)
  | succ n ih =>
      refine (s.derefMount_mappable _).bind fun m => .ite ?_ (.pure _)
      cases m.mountedOn with
      | none => exact .stop _
      | some q => exact ih q

theorem dotdot_mappable (p : Path) : Mappable (s.dotdot p) :=
  (s.climb_mappable _ _).bind fun _ => (s.derefDentry_mappable _).bind fun _ => s.climb_mappable _ _

theorem enterMounts_mappable (n : ℕ) (mnt : Option MountId) (d : DentryId) :
    Mappable (s.enterMounts n mnt d) := by
  induction n generalizing mnt d with
  | zero =>
      unfold enterMounts
      split
      · exact .pure _
      · exact .stop _
  | succ n ih =>
      unfold enterMounts
      split
      · exact .pure _
      · exact ih _ _

theorem child_mappable (p : Path) (name : String) : Mappable (s.child p name) := by
  refine (s.derefDentry_mappable _).bind fun d => ?_
  cases d.children.lookup name with
  | none => exact (s.derefMount_mappable _).bind fun _ => .throw rfl
  | some c => exact s.enterMounts_mappable _ _ _

theorem walk_mappable {reduce : Path → Path → Outcome Path} (hreduce : ∀ p q, Mappable (reduce p q))
    (segments : List Segment) (current : Path) : Mappable (s.walk reduce current segments) := by
  induction segments generalizing current with
  | nil => exact .throw rfl
  | cons segment rest ih =>
      by_cases hrest : rest = []
      · subst hrest
        cases segment with
        | dotdot =>
            exact (s.dotdot_mappable _).bind fun _ => (s.dotdot_mappable _).bind fun _ => .pure _
        | name name => exact (s.child_mappable _ _).bind fun _ => .pure _
      · rw [walk_cons current segment hrest]
        refine Mappable.bind ?_ ih
        cases segment with
        | dotdot => exact s.dotdot_mappable _
        | name name =>
            refine (s.child_mappable _ _).bind fun next => Mappable.bind ?_ fun next => ?_
            · exact (s.derefDentry_mappable _).bind fun _ => .ite (hreduce _ _) (.pure _)
            · exact (s.derefDentry_mappable _).bind fun _ => .ite (.pure _) (.throw rfl)

theorem resolveWith_mappable {reduce : Path → Path → Outcome Path}
    (hreduce : ∀ p q, Mappable (reduce p q)) (parent : Option Path) (path : PathName) :
    Mappable (s.resolveWith reduce parent path) :=
  .ite (.pure _) (.ite (.stop _) (s.walk_mappable hreduce _ _))

theorem reduceLoop_mappable (resolve : Path → PathName → Outcome ResolveRes) (depth : ℕ)
    (parent src : Path) : Mappable (s.reduceLoop resolve depth parent src) := by
  have htext : ∀ p, Mappable (s.symlinkTarget p) := fun p =>
    (s.derefDentry_mappable _).bind fun _ => .pure _
  induction depth generalizing parent src with
  | zero =>
      refine (htext src).bind fun text => ?_
      cases text with
      | none => exact .pure _
      | some text => exact .throw rfl
  | succ depth ih =>
      refine (htext src).bind fun text => ?_
      cases text with
      | none => exact .pure _
      | some text =>
          refine (Mappable.attempt _).bind fun ret => ?_
          cases ret with
          | error _ => exact .throw rfl
          | ok ret => exact .ite (.throw rfl) (ih _ _)

theorem nestedReduce_mappable (fuel : ℕ) (parent src : Path) :
    Mappable (s.nestedReduce fuel parent src) := by
  cases fuel with
  | zero => exact .stop _
  | succ fuel => exact s.reduceLoop_mappable _ _ _ _

theorem resolve_mappable (fuel : ℕ) (parent : Option Path) (path : PathName) :
    Mappable (s.resolve fuel parent path) :=
  s.resolveWith_mappable (s.nestedReduce_mappable fuel) parent path

theorem reduce_mappable (fuel : ℕ) (parent src : Path) (depth : ℕ) :
    Mappable (s.reduce fuel parent src depth) :=
  .ite (.pure _) (s.reduceLoop_mappable _ _ _ _)

end Vfs

/-! ## The ways through the call -/

/-- A lookup is a `resolve` and, if links are followed, a `reduce`. -/
theorem Vfs.lookup_iff {s : Vfs} {parent : Option Path} {path : PathName} {followLinks : Bool}
    {target : Path} :
    Returns (fun fuel => s.lookup fuel parent path followLinks) (.ok target) ↔
      ∃ res, Returns (fun fuel => s.resolve fuel parent path) (.ok res) ∧
        if followLinks then
          Returns (fun fuel => s.reduce fuel res.parent res.target symloopMax) (.ok target)
        else res.target = target := by
  constructor
  · rintro ⟨N, hN⟩
    obtain ⟨res, hres, htarget⟩ := bind_eq_pure.mp (hN N le_rfl)
    refine ⟨res, (s.resolve_fuelMono parent path).returns_iff.mpr ⟨N, hres⟩, ?_⟩
    split at htarget
    · rename_i hfollow
      rw [if_pos hfollow]
      exact (s.reduce_fuelMono _ _ _).returns_iff.mpr ⟨N, htarget⟩
    · rename_i hfollow
      rw [if_neg hfollow]
      exact pure_inj htarget
  · rintro ⟨res, ⟨M, hM⟩, htarget⟩
    split at htarget
    · rename_i hfollow
      obtain ⟨N, hN⟩ := htarget
      refine ⟨max M N, fun fuel hfuel => bind_eq_pure.mpr ⟨res, hM fuel (by omega), ?_⟩⟩
      rw [if_pos hfollow]
      exact hN fuel (by omega)
    · rename_i hfollow
      refine ⟨M, fun fuel hfuel => bind_eq_pure.mpr ⟨res, hM fuel hfuel, ?_⟩⟩
      rw [if_neg hfollow, htarget]

/-- A path that is no symbolic link is what `reduce` makes of it. -/
theorem Vfs.reduce_of_isDir {s : Vfs} {parent target : Path} (h : s.IsDir target) :
    Returns (fun fuel => s.reduce fuel parent target symloopMax) (.ok target) := by
  obtain ⟨d, hd, htype⟩ := h
  have htext : s.symlinkTarget target = pure none := by
    have hlnk : ¬((s.dentryAt d).type = sIflnk ∧ (s.dentryAt d).symlinkedTo ≠ .empty) := by
      rw [htype]
      exact fun h => absurd h.1 (by decide)
    simp only [symlinkTarget, hd, derefDentry, Outcome.pure_bind, if_neg hlnk]
  refine .of_eq fun fuel => ?_
  rw [reduce, if_neg (by decide), symloopMax, reduceLoop, htext]
  rfl

/-- An error that is mapped, or a result. -/
theorem mapResult_eq_ok {α : Type} {r : Except VfsError α} {x : Except Errno α} :
    mapResult r = .ok x ↔ (∃ a, r = .ok a ∧ x = .ok a) ∨
      ∃ e errno, r = .error e ∧ mapError e = some errno ∧ x = .error errno := by
  cases r with
  | ok a =>
      refine ⟨fun h => ?_, ?_⟩
      · cases h
        exact .inl ⟨a, rfl, rfl⟩
      · rintro (⟨b, hb, rfl⟩ | ⟨e, _, he, -⟩)
        · cases hb
          rfl
        · cases he
  | error e =>
      rw [mapResult]
      cases hmap : mapError e with
      | none =>
          refine ⟨nofun, ?_⟩
          rintro (⟨b, hb, -⟩ | ⟨e', errno, he, herrno, -⟩)
          · cases hb
          · cases he
            cases hmap.symm.trans herrno
      | some errno =>
          refine ⟨fun h => ?_, ?_⟩
          · cases h
            exact .inr ⟨e, errno, rfl, hmap, rfl⟩
          · rintro (⟨b, hb, -⟩ | ⟨e', errno', he, herrno, rfl⟩)
            · cases hb
            · cases he
              cases hmap.symm.trans herrno
              rfl

/-- What a lookup returns is mapped without a panic. -/
theorem exists_mapResult {α : Type} {f : ℕ → Outcome α} (hf : ∀ fuel, Mappable (f fuel))
    {r : Except VfsError α} (hr : Returns f r) : ∃ x, mapResult r = .ok x := by
  cases r with
  | ok a => exact ⟨.ok a, rfl⟩
  | error e =>
      obtain ⟨N, hN⟩ := hr
      obtain ⟨errno, herrno⟩ := hf N e (hN N le_rfl)
      exact ⟨.error errno, mapResult_eq_ok.mpr (.inr ⟨e, errno, rfl, herrno, rfl⟩)⟩

namespace OpenState

variable {s : OpenState} {c : OpenCall} {path : PathName} {parent : Path}

section ResolveFrom

variable {dirfd : ℤ} {x : Except Errno ResolveRes}

theorem resolveFrom_iff (hparent : s.getParent dirfd path = .ok (.ok parent)) :
    Returns (fun fuel => s.resolveFrom fuel dirfd path) x ↔
      ∃ r, Returns (fun fuel => s.vfs.resolve fuel (some parent) path) r ∧ mapResult r = .ok x := by
  have hrun : (fun fuel => s.resolveFrom fuel dirfd path) = fun fuel =>
      ExceptT.run (s.vfs.resolve fuel (some parent) path) >>= mapResult := by
    funext fuel
    rw [resolveFrom, hparent]
    rfl
  rw [hrun]
  refine ((s.vfs.resolve_fuelMono (some parent) path).returns_bind_iff (g := fun _ => mapResult)).trans
    ?_
  simp only [Returns.const_iff]

theorem resolveFrom_error_iff {errno : Errno} (hparent : s.getParent dirfd path = .ok (.error errno)) :
    Returns (fun fuel => s.resolveFrom fuel dirfd path) x ↔ x = .error errno := by
  have hrun : (fun fuel => s.resolveFrom fuel dirfd path) = fun _ => .ok (.error errno) := by
    funext fuel
    rw [resolveFrom, hparent]
    rfl
  rw [hrun, Returns.const_iff, Except.ok.injEq, eq_comm]

theorem not_resolveFrom {stop : Stop} (hparent : s.getParent dirfd path = .error stop) :
    ¬Returns (fun fuel => s.resolveFrom fuel dirfd path) x := by
  have hrun : (fun fuel => s.resolveFrom fuel dirfd path) = fun _ => .error stop := by
    funext fuel
    rw [resolveFrom, hparent]
    rfl
  rw [hrun, Returns.const_iff]
  nofun

theorem resolveFrom_fuelMono (s : OpenState) (dirfd : ℤ) (path : PathName) :
    FuelMono Stop.fuel fun fuel => s.resolveFrom fuel dirfd path := by
  refine FuelMono.bind (.const _) fun r => ?_
  cases r with
  | error errno => exact .const _
  | ok parent => exact FuelMono.bind (s.vfs.resolve_fuelMono (some parent) path) fun _ => .const _

theorem getParent_eq_error {stop : Stop} (h : s.getParent dirfd path = .error stop) :
    stop = .nullDentry := by
  unfold getParent at h
  split at h
  · cases h
  · split at h
    · cases h
    · split at h
      · cases h
      · split at h
        · cases h
        · split at h
          · cases h
            rfl
          · split at h <;> cases h

/-- A relative path and its directory part are looked up from the same place. -/
theorem getParent_dirname (s : OpenState) (dirfd : ℤ) (path : PathName) :
    s.getParent dirfd path.dirname = s.getParent dirfd path := by
  have habs : path.dirname.isAbsolute = path.isAbsolute := by
    cases path with
    | empty => rfl
    | absolute names => rfl
    | relative ups names =>
        cases names with
        | nil => exact PathName.isAbsolute_ofParts _ _
        | cons name names => exact PathName.isAbsolute_ofParts _ _
  rw [getParent, getParent, habs]

end ResolveFrom

section Find

variable {x : Except Errno (Path × Vfs)}

/-- `follow` returns what `reduce` does. -/
theorem follow_iff {res : ResolveRes} : Returns (fun fuel => s.follow fuel c res) x ↔
    res.target.dentry ≠ none ∧ if Has c.flags oNofollow then x = .ok (res.target, s.vfs) else
      ∃ r y, Returns (fun fuel => s.vfs.reduce fuel res.parent res.target symloopMax) r ∧
        mapResult r = .ok y ∧ x = y.map fun target => (target, s.vfs) := by
  cases hd : res.target.dentry with
  | none =>
      have hrun : (fun fuel => s.follow fuel c res) = fun _ => .error .bug := by
        funext fuel
        rw [follow, hd]
        rfl
      rw [hrun, Returns.const_iff]
      exact ⟨nofun, fun h => absurd rfl h.1⟩
  | some d =>
      rw [and_iff_right (by nofun)]
      by_cases hnofollow : Has c.flags oNofollow
      · have hrun : (fun fuel => s.follow fuel c res) = fun _ => .ok (.ok (res.target, s.vfs)) := by
          funext fuel
          rw [follow, hd, if_neg (by nofun), if_pos hnofollow]
        rw [hrun, Returns.const_iff, if_pos hnofollow, Except.ok.injEq, eq_comm]
      · have hrun : (fun fuel => s.follow fuel c res) = fun fuel =>
            ExceptT.run (s.vfs.reduce fuel res.parent res.target symloopMax) >>= fun r =>
              mapResult r >>= fun y => .ok (y.map fun target => (target, s.vfs)) := by
          funext fuel
          rw [follow, hd, if_neg (by nofun), if_neg hnofollow]
          refine congrArg _ (funext fun r => congrArg _ (funext fun y => ?_))
          cases y <;> rfl
        rw [hrun, if_neg hnofollow]
        refine ((s.vfs.reduce_fuelMono _ _ _).returns_bind_iff (g := fun _ r => mapResult r >>= _)).trans
          (exists_congr fun r => ?_)
        rw [Returns.const_iff]
        cases hmap : mapResult r with
        | error stop =>
            refine ⟨fun h => (by cases h.2), ?_⟩
            rintro ⟨y, -, hy, -⟩
            cases hy
        | ok y =>
            constructor
            · rintro ⟨hr, hx⟩
              cases hx
              exact ⟨y, hr, rfl, rfl⟩
            · rintro ⟨y', hr, hy, rfl⟩
              cases hy
              exact ⟨hr, rfl⟩

/-- A path that resolves. -/
theorem find_iff_follow (hparent : s.getParent c.dirfd path = .ok (.ok parent)) {res : ResolveRes}
    (hres : Returns (fun fuel => s.vfs.resolve fuel (some parent) path) (.ok res)) :
    Returns (fun fuel => s.find fuel c path) x ↔
      if Has c.flags oExcl ∧ Has c.flags oCreat then x = .error .eexist
      else Returns (fun fuel => s.follow fuel c res) x := by
  refine ((s.resolveFrom_fuelMono c.dirfd path).returns_bind_iff).trans ?_
  have hfrom : Returns (fun fuel => s.resolveFrom fuel c.dirfd path) (.ok res) :=
    (resolveFrom_iff hparent).mpr ⟨.ok res, hres, rfl⟩
  constructor
  · rintro ⟨y, hy, hrest⟩
    obtain rfl := hfrom.unique hy
    split at hrest
    · rename_i herr
      cases herr
    · rename_i res' hok
      cases hok
      split
      · rename_i hexcl
        simp only [if_pos hexcl] at hrest
        exact (Except.ok.inj (Returns.const_iff.mp hrest)).symm
      · rename_i hexcl
        simpa only [if_neg hexcl] using hrest
  · intro hx
    refine ⟨.ok res, hfrom, ?_⟩
    dsimp only
    split at hx
    · rename_i hexcl
      simp only [if_pos hexcl]
      exact Returns.const_iff.mpr (hx ▸ rfl)
    · rename_i hexcl
      simpa only [if_neg hexcl] using hx

/-- A path that does not resolve, or has nothing to be resolved from. -/
theorem find_iff_create {errno : Errno}
    (hfrom : Returns (fun fuel => s.resolveFrom fuel c.dirfd path) (.error errno)) :
    Returns (fun fuel => s.find fuel c path) x ↔
      if Has c.flags oCreat then Returns (fun fuel => s.create fuel c path) x
      else x = .error errno := by
  refine ((s.resolveFrom_fuelMono c.dirfd path).returns_bind_iff).trans ?_
  constructor
  · rintro ⟨y, hy, hrest⟩
    obtain rfl := hfrom.unique hy
    split
    · rename_i hcreat
      simpa only [if_pos hcreat] using hrest
    · rename_i hcreat
      simp only [if_neg hcreat] at hrest
      exact (Except.ok.inj (Returns.const_iff.mp hrest)).symm
  · intro hx
    refine ⟨.error errno, hfrom, ?_⟩
    split at hx
    · rename_i hcreat
      simpa only [if_pos hcreat] using hx
    · rename_i hcreat
      simp only [if_neg hcreat]
      exact Returns.const_iff.mpr (hx ▸ rfl)

/-- The branch with `create` does not return a file: the assertion that follows it fails. -/
theorem create_returns (h : Returns (fun fuel => s.create fuel c path) x) :
    (∃ errno, x = .error errno) ∧
      ∃ y, Returns (fun fuel => s.resolveFrom fuel c.dirfd path.dirname) y ∧
        ∀ res, y = .ok res → res.target.dentry ≠ none := by
  obtain ⟨y, hy, hrest⟩ := ((s.resolveFrom_fuelMono c.dirfd path.dirname).returns_bind_iff).mp h
  cases y with
  | error errno =>
      exact ⟨⟨errno, (Except.ok.inj (Returns.const_iff.mp hrest)).symm⟩, _, hy, nofun⟩
  | ok parent =>
      obtain ⟨N, hN⟩ := hrest
      have hrun := hN N le_rfl
      dsimp only at hrun
      split at hrun
      · cases hrun
      · rename_i d hd
        refine ⟨?_, _, hy, fun res hres => ?_⟩
        · split at hrun
          · exact ⟨_, (Except.ok.inj hrun).symm⟩
          · cases hcreate : ExceptT.run (s.vfs.create N (some parent.target) path.basenamePath
                (c.mode &&& permissions &&& ~~~s.umask).toNat 0) with
            | error stop =>
                rw [hcreate] at hrun
                cases hrun
            | ok r =>
                rw [hcreate] at hrun
                cases r with
                | error e =>
                    rcases hmap : mapResult (Except.error e : Except VfsError (Path × Vfs)) with _ | z
                    · change (mapResult (Except.error e) >>= _) = _ at hrun
                      rw [hmap] at hrun
                      cases hrun
                    · change (mapResult (Except.error e) >>= _) = _ at hrun
                      rw [hmap] at hrun
                      rcases mapResult_eq_ok.mp hmap with ⟨a, ha, -⟩ | ⟨e', errno, -, -, rfl⟩
                      · cases ha
                      · exact ⟨errno, (Except.ok.inj hrun).symm⟩
                | ok created =>
                    -- the new dentry is not null and has an inode
                    obtain ⟨⟨mnt, dentry⟩, vfs⟩ := created
                    cases dentry <;> cases hrun
        · cases hres
          rw [hd]
          nofun

/-- The branch fails without an assertion if the directory part is no directory. -/
theorem exists_create {r : Except VfsError ResolveRes}
    (hparent : s.getParent c.dirfd path = .ok (.ok parent))
    (hr : Returns (fun fuel => s.vfs.resolve fuel (some parent) path.dirname) r)
    (hnull : ∀ res, r = .ok res → res.target.dentry ≠ none)
    (hdir : ∀ res, r = .ok res → ¬s.vfs.IsDir res.target) :
    ∃ errno, Returns (fun fuel => s.create fuel c path) (.error errno) := by
  have hparent' : s.getParent c.dirfd path.dirname = .ok (.ok parent) :=
    (s.getParent_dirname c.dirfd path).trans hparent
  obtain ⟨x, hx⟩ := exists_mapResult (s.vfs.resolve_mappable · (some parent) path.dirname) hr
  have hfrom := (resolveFrom_iff hparent').mpr ⟨r, hr, hx⟩
  rcases mapResult_eq_ok.mp hx with ⟨res, rfl, rfl⟩ | ⟨e, errno, rfl, -, rfl⟩
  · obtain ⟨d, hd⟩ := Option.ne_none_iff_exists'.mp (hnull res rfl)
    have htype : (s.vfs.dentryAt d).type ≠ sIfdir := fun h => hdir res rfl ⟨d, hd, h⟩
    refine ⟨.enotdir, ((s.resolveFrom_fuelMono c.dirfd path.dirname).returns_bind_iff).mpr
      ⟨.ok res, hfrom, ?_⟩⟩
    dsimp only
    rw [hd]
    exact Returns.of_eq fun _ => if_pos htype
  · exact ⟨errno, ((s.resolveFrom_fuelMono c.dirfd path.dirname).returns_bind_iff).mpr
      ⟨.error errno, hfrom, Returns.const_iff.mpr rfl⟩⟩

theorem create_of_getParent {errno : Errno}
    (hparent : s.getParent c.dirfd path = .ok (.error errno)) :
    Returns (fun fuel => s.create fuel c path) (.error errno) :=
  ((s.resolveFrom_fuelMono c.dirfd path.dirname).returns_bind_iff).mpr
    ⟨.error errno, (resolveFrom_error_iff ((s.getParent_dirname _ _).trans hparent)).mpr rfl,
      Returns.const_iff.mpr rfl⟩

/-- A file that is found is the one that the path leads to. -/
theorem finds_of_find (hfrom : s.From c path parent) {target : Path} {vfs : Vfs}
    (h : Returns (fun fuel => s.find fuel c path) (.ok (target, vfs))) :
    vfs = s.vfs ∧ s.Finds s.vfs c target ∧ ¬(Has c.flags oExcl ∧ Has c.flags oCreat) := by
  obtain ⟨y, hy, -⟩ := ((s.resolveFrom_fuelMono c.dirfd path).returns_bind_iff).mp h
  obtain ⟨r, hr, hmap⟩ := (resolveFrom_iff hfrom.2).mp hy
  rcases mapResult_eq_ok.mp hmap with ⟨res, rfl, rfl⟩ | ⟨e, errno, rfl, -, rfl⟩
  · have hfollow := (find_iff_follow hfrom.2 hr).mp h
    split at hfollow
    · cases hfollow
    · rename_i hexcl
      obtain ⟨-, hfollow⟩ := follow_iff.mp hfollow
      split at hfollow
      · rename_i hnofollow
        cases hfollow
        refine ⟨rfl, ⟨path, parent, hfrom, Vfs.lookup_iff.mpr ⟨res, hr, ?_⟩⟩, hexcl⟩
        rw [if_neg (by simpa using hnofollow)]
      · rename_i hnofollow
        obtain ⟨q, z, hq, hz, heq⟩ := hfollow
        rcases mapResult_eq_ok.mp hz with ⟨t, rfl, rfl⟩ | ⟨e, errno, -, -, rfl⟩
        · cases heq
          refine ⟨rfl, ⟨path, parent, hfrom, Vfs.lookup_iff.mpr ⟨res, hr, ?_⟩⟩, hexcl⟩
          rw [if_pos (by simpa using hnofollow)]
          exact hq
        · cases heq
  · have hcreate := (find_iff_create hy).mp h
    split at hcreate
    · obtain ⟨⟨errno', herr⟩, -⟩ := create_returns hcreate
      cases herr
    · cases hcreate

/-- The path leads to the file that is found. -/
theorem find_of_finds {target : Path} (hfinds : s.Finds s.vfs c target)
    (hexcl : ¬(Has c.flags oExcl ∧ Has c.flags oCreat)) (hpath : c.pathname = .text path)
    (h : Returns (fun fuel => s.find fuel c path) x) : x = .ok (target, s.vfs) := by
  obtain ⟨path', parent, ⟨hpath', hparent⟩, hlookup⟩ := hfinds
  cases hpath.symm.trans hpath'
  obtain ⟨res, hres, htarget⟩ := Vfs.lookup_iff.mp hlookup
  have hfollow := (find_iff_follow hparent hres).mp h
  rw [if_neg hexcl] at hfollow
  obtain ⟨-, hfollow⟩ := follow_iff.mp hfollow
  by_cases hnofollow : Has c.flags oNofollow
  · rw [if_neg (by simpa using hnofollow)] at htarget
    rw [if_pos hnofollow] at hfollow
    rw [hfollow, htarget]
  · rw [if_pos (by simpa using hnofollow)] at htarget
    rw [if_neg hnofollow] at hfollow
    obtain ⟨q, z, hq, hz, rfl⟩ := hfollow
    cases hq.unique htarget
    cases hz
    rfl

theorem create_fuelMono (s : OpenState) (c : OpenCall) (path : PathName) :
    FuelMono Stop.fuel fun fuel => s.create fuel c path := by
  refine FuelMono.bind (s.resolveFrom_fuelMono _ _) fun y => ?_
  cases y with
  | error errno => exact .const _
  | ok parent =>
      cases hd : parent.target.dentry with
      | none =>
          dsimp only
          rw [hd]
          exact .const _
      | some d =>
          dsimp only
          rw [hd]
          by_cases htype : (s.vfs.dentryAt d).type ≠ sIfdir
          · simp only [if_pos htype]
            exact .const _
          · simp only [if_neg htype]
            exact FuelMono.bind (fun fuel => Vfs.create_agrees fuel _ _ _ _) fun _ => .const _

theorem follow_fuelMono (s : OpenState) (c : OpenCall) (res : ResolveRes) :
    FuelMono Stop.fuel fun fuel => s.follow fuel c res := by
  unfold follow
  by_cases hnull : (res.target.dentry.bind (inodeOf s.vfs)).isNone
  · simp only [if_pos hnull]
    exact .const _
  · by_cases hnofollow : Has c.flags oNofollow
    · simp only [if_neg hnull, if_pos hnofollow]
      exact .const _
    · simp only [if_neg hnull, if_neg hnofollow]
      exact FuelMono.bind (s.vfs.reduce_fuelMono _ _ _) fun _ => .const _

theorem find_fuelMono (s : OpenState) (c : OpenCall) (path : PathName) :
    FuelMono Stop.fuel fun fuel => s.find fuel c path := by
  refine FuelMono.bind (s.resolveFrom_fuelMono _ _) fun y => ?_
  cases y with
  | error errno =>
      by_cases hcreat : Has c.flags oCreat
      · simp only [if_pos hcreat]
        exact s.create_fuelMono c path
      · simp only [if_neg hcreat]
        exact .const _
  | ok res =>
      by_cases hexcl : Has c.flags oExcl ∧ Has c.flags oCreat
      · simp only [if_pos hexcl]
        exact .const _
      · simp only [if_neg hexcl]
        exact s.follow_fuelMono c res

end Find

section Openat

variable {drv : Driver} {s' : OpenState} {r : Except Errno ℤ}

theorem openat_iff_find (hflags : checkFlags c.flags = none) (hpath : c.pathname = .text path) :
    Returns (fun fuel => s.openat drv fuel c) (s', r) ↔
      ∃ x, Returns (fun fuel => s.find fuel c path) x ∧ finish drv s c.flags x = .ok (s', r) := by
  have hrun : (fun fuel => s.openat drv fuel c) = fun fuel =>
      s.find fuel c path >>= finish drv s c.flags := by
    funext fuel
    rw [openat, hflags, hpath]
    rfl
  rw [hrun]
  refine ((s.find_fuelMono c path).returns_bind_iff (g := fun _ => finish drv s c.flags)).trans ?_
  simp only [Returns.const_iff]

/-- A call that does not get to the search returns an error. -/
theorem openat_of_checkFlags {errno : Errno} (hflags : checkFlags c.flags = some errno) :
    Returns (fun fuel => s.openat drv fuel c) (s, .error errno) :=
  .of_eq fun fuel => by rw [openat, hflags]

theorem openat_of_get {errno : Errno} (hflags : checkFlags c.flags = none)
    (hpath : c.pathname.get = .error errno) :
    Returns (fun fuel => s.openat drv fuel c) (s, .error errno) :=
  .of_eq fun fuel => by rw [openat, hflags, hpath]

theorem allots_of_allocateFd {desc : Filedesc OpenFile} {fd : ℤ} {fdt : FdTable OpenFile}
    (h : s.fdt.allocateFd desc 0 false = some (fd, fdt)) :
    s.Allots fd ∧ s.fdt.get fd = none ∧ fdt.get = Function.update s.fdt.get fd (some desc) := by
  obtain ⟨hget, ⟨rfl, hfree | hfree, -⟩ | ⟨-, hmem, hfirst, -⟩⟩ := FdTable.allocateFd_eq_some h
  · cases hfree
  · exact ⟨.inl ⟨hfree, rfl⟩, FdTable.get_eq_none.mpr hfree, hget⟩
  · exact ⟨.inr ⟨hmem, hfirst⟩, FdTable.get_eq_none.mpr hfirst.1, hget⟩

theorem exists_allocateFd {fd : ℤ} (h : s.Allots fd) (desc : Filedesc OpenFile) :
    ∃ fdt, s.fdt.allocateFd desc 0 false = some (fd, fdt) := by
  unfold FdTable.allocateFd
  obtain ⟨hfree, rfl⟩ | ⟨hmem, hfirst⟩ := h
  · exact ⟨_, if_neg hfree⟩
  · rw [if_pos hmem, if_neg (by decide), FdTable.scan_eq_some_iff.mpr hfirst]
    exact ⟨_, rfl⟩

/-- A new descriptor changes the table. -/
theorem get_ne_update {fd : ℤ} {desc : Filedesc OpenFile} (h : s.fdt.get fd = none) :
    Function.update s.fdt.get fd (some desc) ≠ s.fdt.get := by
  intro heq
  have hfd := congrFun heq fd
  rw [Function.update_self, h] at hfd
  cases hfd

/-- The ways through `install`. -/
theorem install_ok {flags : BitVec 32} {target : Path} {d : DentryId} {vfs : Vfs}
    (h : install drv s flags target d vfs = .ok (s', r)) :
    ∃ fd fdt, s.fdt.allocateFd (Filedesc.create target flags) 0 false = some (fd, fdt) ∧
      (0 ≤ fd → (vfs.dentryAt d).inode ≠ rootInode) ∧
      ((s'.fdt = fdt ∧ (∃ errno, r = .error errno) ∧ (0 ≤ fd → Has flags oTrunc ∧
          drv.opens (Filedesc.create target flags).file = true ∧
          ¬drv.truncs (Filedesc.create target flags).file = true)) ∨
        (0 ≤ fd ∧ ¬drv.opens (Filedesc.create target flags).file = true ∧
          s'.fdt = (fdt.close fd).2 ∧ ∃ errno, r = .error errno) ∨
        (0 ≤ fd ∧ ¬(Has flags oTrunc ∧ ¬drv.truncs (Filedesc.create target flags).file = true) ∧
          s'.fdt = fdt ∧ s'.vfs = vfs.hold target ∧ r = .ok fd)) := by
  unfold install at h
  dsimp only at h
  split at h
  · cases h
  · rename_i fd fdt hallocate
    refine ⟨fd, fdt, hallocate, ?_⟩
    split at h
    · rename_i hneg
      cases h
      exact ⟨fun hpos => absurd hneg (not_lt.mpr hpos),
        .inl ⟨rfl, ⟨_, rfl⟩, fun hpos => absurd hneg (not_lt.mpr hpos)⟩⟩
    · rename_i hpos
      split at h
      · cases h
      · rename_i hinode
        refine ⟨fun _ => hinode, ?_⟩
        split at h
        · rename_i hopens
          cases h
          exact .inr (.inl ⟨not_lt.mp hpos, hopens, rfl, _, rfl⟩)
        · rename_i hopens
          split at h
          · rename_i htrunc
            cases h
            exact .inl ⟨rfl, ⟨_, rfl⟩, fun _ => ⟨htrunc.1, not_not.mp hopens, htrunc.2⟩⟩
          · rename_i htrunc
            cases h
            exact .inr (.inr ⟨not_lt.mp hpos, htrunc, rfl, rfl, rfl⟩)

/-- `install` comes to an end for a file with operations. -/
theorem exists_install (drv : Driver) (flags : BitVec 32) (target : Path) {d : DentryId} {vfs : Vfs}
    {fd : ℤ} (hallots : s.Allots fd) (hinode : (vfs.dentryAt d).inode ≠ rootInode) :
    ∃ s' r, install drv s flags target d vfs = .ok (s', r) := by
  obtain ⟨fdt, hfdt⟩ := exists_allocateFd hallots (Filedesc.create target flags)
  unfold install
  simp only [hfdt, if_neg hinode]
  split
  · exact ⟨_, _, rfl⟩
  · split
    · exact ⟨_, _, rfl⟩
    · split
      · exact ⟨_, _, rfl⟩
      · exact ⟨_, _, rfl⟩

/-- The numbers that `allocate_fd` finds are one. -/
theorem Allots.unique {m n : ℤ} (hm : s.Allots m) (hn : s.Allots n) : m = n := by
  obtain ⟨hfree, rfl⟩ | ⟨hmem, hfirst⟩ := hm
  · exact (hn.resolve_right fun h => hfree h.1).2.symm
  · exact hfirst.unique (hn.resolve_left fun h => h.1 hmem).2

/-- A directory is not opened read-only with `o_directory`: the flag is one of `o_tmpfile`. -/
theorem OpensDirectory.checkFlags (h : s.OpensDirectory c) :
    checkFlags c.flags = some .einval := by
  obtain ⟨hmode, hdir, -⟩ := h
  have htmpfile : Has c.flags oTmpfile := fun hzero => hdir <| by
    have hmask : oTmpfile &&& oDirectory = oDirectory := by decide
    rw [← hmask, ← BitVec.and_assoc, hzero]
    exact BitVec.zero_and
  have hwrite : ¬isWrite c.flags := by
    unfold isWrite
    rw [hmode]
    decide
  rw [OpenState.checkFlags, if_pos ⟨htmpfile, hwrite⟩]

/-- With `o_creat` a missing file is not opened. -/
theorem Missing.not_opened (h : s.Missing c) (hcreat : Has c.flags oCreat)
    (hopenat : Returns (fun fuel => s.openat drv fuel c) (s', r)) (fd : ℤ) : r ≠ .ok fd := by
  obtain ⟨path, parent, ⟨hpath, hparent⟩, ⟨e, he⟩, -⟩ := h
  cases hflags : OpenState.checkFlags c.flags with
  | some errno =>
      cases hopenat.unique (openat_of_checkFlags hflags)
      nofun
  | none =>
      obtain ⟨x, hx, hfinish⟩ := (openat_iff_find hflags hpath).mp hopenat
      obtain ⟨y, hy⟩ := exists_mapResult (s.vfs.resolve_mappable · (some parent) path) he
      obtain ⟨a, ha, -⟩ | ⟨e', errno, -, -, rfl⟩ := mapResult_eq_ok.mp hy
      · cases ha
      · have hcreate := (find_iff_create ((resolveFrom_iff hparent).mpr ⟨_, he, hy⟩)).mp hx
        rw [if_pos hcreat] at hcreate
        obtain ⟨⟨errno', rfl⟩, -⟩ := create_returns hcreate
        cases hfinish
        nofun

/-- So a call that is to create a file does not do what it is for, and neither does one that is to
open a directory with `o_directory`. -/
theorem Missing.not_meets (h : s.Missing c) (hcreat : Has c.flags oCreat) : ¬s.Meets drv c := by
  rintro ⟨s', r, hopenat, hfulfils⟩
  obtain ⟨fd, hfd, -⟩ := hfulfils.created hcreat h
  exact h.not_opened hcreat hopenat fd hfd

theorem OpensDirectory.not_meets (h : s.OpensDirectory c) : ¬s.Meets drv c := by
  rintro ⟨s', r, hopenat, hfulfils⟩
  obtain ⟨fd, hfd⟩ := hfulfils.directory h
  cases hopenat.unique (openat_of_checkFlags h.checkFlags)
  cases hfd

/-- A call that returns has made its lookups. -/
theorem settles_of_openat (hflags : OpenState.checkFlags c.flags = none)
    (hfrom : s.From c path parent) (hopenat : Returns (fun fuel => s.openat drv fuel c) (s', r)) :
    s.Settles c path parent := by
  obtain ⟨hpath, hparent⟩ := hfrom
  obtain ⟨x, hx, hfinish⟩ := (openat_iff_find hflags hpath).mp hopenat
  obtain ⟨y, hy, -⟩ := ((s.resolveFrom_fuelMono c.dirfd path).returns_bind_iff).mp hx
  obtain ⟨q, hq, hmap⟩ := (resolveFrom_iff hparent).mp hy
  refine ⟨⟨q, hq⟩, fun e he hcreat => ?_, fun res hres hexcl => ?_⟩
  · cases hq.unique he
    obtain ⟨a, ha, -⟩ | ⟨e', errno, -, -, rfl⟩ := mapResult_eq_ok.mp hmap
    · cases ha
    · have hcreate := (find_iff_create hy).mp hx
      rw [if_pos hcreat] at hcreate
      obtain ⟨-, z, hz, hnull⟩ := create_returns hcreate
      obtain ⟨t, ht, hmap'⟩ := (resolveFrom_iff ((s.getParent_dirname _ _).trans hparent)).mp hz
      refine ⟨t, ht, fun res hres => hnull res ?_⟩
      subst hres
      cases hmap'
      rfl
  · have hfollow := (find_iff_follow hparent hres).mp hx
    rw [if_neg hexcl] at hfollow
    obtain ⟨hnull, hfollow⟩ := follow_iff.mp hfollow
    refine ⟨hnull, fun hnofollow => ?_⟩
    rw [if_neg hnofollow] at hfollow
    obtain ⟨t, z, ht, hz, rfl⟩ := hfollow
    refine ⟨t, ht, fun target htarget hnone => ?_⟩
    subst htarget
    cases hz
    -- a null dentry is dereferenced for the type
    rw [Except.map, finish, hnone] at hfinish
    cases hfinish

/-- A call that gets as far as a descriptor returns what `install` does. -/
theorem install_of_allocates {target : Path} {d : DentryId} (h : s.Allocates c target d)
    (hopenat : Returns (fun fuel => s.openat drv fuel c) (s', r)) :
    install drv s c.flags target d s.vfs = .ok (s', r) := by
  obtain ⟨hflags, hfinds, hd, hexcl, htype⟩ := h
  obtain ⟨path, parent, ⟨hpath, -⟩, -⟩ := id hfinds
  obtain ⟨x, hx, hfinish⟩ := (openat_iff_find hflags hpath).mp hopenat
  cases find_of_finds hfinds hexcl hpath hx
  rw [finish, hd] at hfinish
  dsimp only at hfinish
  rwa [htype] at hfinish

theorem Meets.apt (h : s.Meets drv c) : s.Apt drv c := by
  obtain ⟨s', r, hopenat, hfulfils⟩ := id h
  refine ⟨fun ⟨hcreat, hmissing⟩ => hmissing.not_meets hcreat h, fun hdir => hdir.not_meets h,
    fun hflags path hpath => ⟨fun hnull => ?_, fun parent hfrom =>
      settles_of_openat hflags hfrom hopenat⟩, fun target d hall => ?_,
    fun target d hall htrunc hopens => ?_⟩
  · obtain ⟨x, hx, -⟩ := (openat_iff_find hflags hpath).mp hopenat
    obtain ⟨y, hy, -⟩ := ((s.resolveFrom_fuelMono c.dirfd path).returns_bind_iff).mp hx
    exact not_resolveFrom hnull hy
  · obtain ⟨fd, fdt, hfd, hinode, hways⟩ := install_ok (install_of_allocates hall hopenat)
    obtain ⟨hallots, hnone, hget⟩ := allots_of_allocateFd hfd
    have hpos : 0 ≤ fd := by
      obtain ⟨hfdt, ⟨errno, herr⟩, -⟩ | ⟨hpos, -⟩ | ⟨hpos, -⟩ := hways
      · -- the descriptor stays in the table, so that is only if the call does not fail
        exact absurd (hget ▸ hfdt ▸ hfulfils.failed errno herr) (get_ne_update hnone)
      · exact hpos
      · exact hpos
    exact ⟨⟨fd, hallots, hpos⟩, hinode hpos⟩
  · obtain ⟨fd, fdt, hfd, -, hways⟩ := install_ok (install_of_allocates hall hopenat)
    obtain ⟨-, hnone, hget⟩ := allots_of_allocateFd hfd
    obtain ⟨hfdt, ⟨errno, herr⟩, -⟩ | ⟨-, hnot, -⟩ | ⟨-, htruncs, -⟩ := hways
    · exact absurd (hget ▸ hfdt ▸ hfulfils.failed errno herr) (get_ne_update hnone)
    · exact absurd hopens hnot
    · exact not_not.mp fun hnot => htruncs ⟨htrunc, hnot⟩

/-- A failed call that leaves the descriptors does what it is for, if it was not to succeed. -/
theorem Apt.failed (h : s.Apt drv c) (hfdt : s'.fdt.get = s.fdt.get) (errno : Errno) :
    s.Fulfils c s' (.error errno) where
  failed _ _ := hfdt
  opened _ hfd := by cases hfd
  created hcreat hmissing := absurd ⟨hcreat, hmissing⟩ h.created
  directory hdir := absurd hdir h.directory

/-- An error from the search. -/
theorem Apt.meets_of_error (h : s.Apt drv c) (hflags : OpenState.checkFlags c.flags = none)
    (hpath : c.pathname = .text path) (errno : Errno)
    (hfind : Returns (fun fuel => s.find fuel c path) (.error errno)) : s.Meets drv c :=
  ⟨s, .error errno, (openat_iff_find hflags hpath).mpr ⟨_, hfind, rfl⟩, h.failed rfl errno⟩

/-- The descriptor that `install` makes. -/
theorem Apt.meets_of_allocates (h : s.Apt drv c) {target : Path} {d : DentryId}
    (hall : s.Allocates c target d) (hfrom : s.From c path parent)
    (hfind : Returns (fun fuel => s.find fuel c path) (.ok (target, s.vfs))) : s.Meets drv c := by
  obtain ⟨⟨fd, hallots, hpos⟩, hinode⟩ := h.allots target d hall
  obtain ⟨s', r, hinstall⟩ := exists_install drv c.flags target hallots hinode
  have hopenat : Returns (fun fuel => s.openat drv fuel c) (s', r) := by
    refine (openat_iff_find hall.1 hfrom.1).mpr ⟨_, hfind, ?_⟩
    rw [finish, hall.2.2.1]
    dsimp only
    rw [hall.2.2.2.2]
    exact hinstall
  refine ⟨s', r, hopenat, ?_⟩
  obtain ⟨fd', fdt, hfd, -, hways⟩ := install_ok hinstall
  obtain ⟨hallots', hnone, hget⟩ := allots_of_allocateFd hfd
  cases hallots.unique hallots'
  obtain ⟨-, -, htrunc⟩ | ⟨-, -, hfdt, errno, rfl⟩ | ⟨-, -, hfdt, hvfs, rfl⟩ := hways
  · obtain ⟨htrunc, hopens, hnot⟩ := htrunc hpos
    exact absurd (h.truncates target d hall htrunc hopens) hnot
  · -- the driver refuses, and the descriptor is closed again
    refine h.failed ?_ errno
    rw [hfdt, FdTable.get_close, hget, Function.update_idem, ← hnone, Function.update_eq_self]
  · refine ⟨nofun, fun n hn => ?_, fun hcreat hmissing => absurd ⟨hcreat, hmissing⟩ h.created,
      fun hdir => absurd hdir h.directory⟩
    cases hn
    refine ⟨hpos, hnone, target, ?_, hfdt ▸ hget⟩
    obtain ⟨path, parent, hfrom, hlookup⟩ := hall.2.1
    refine ⟨path, parent, hfrom, ?_⟩
    simpa only [hvfs, Vfs.lookup_hold] using hlookup

/-- A file that is found is opened, unless it has the wrong type. -/
theorem Apt.meets_of_find (h : s.Apt drv c) (hflags : OpenState.checkFlags c.flags = none)
    (hfrom : s.From c path parent) {target : Path} (hnull : target.dentry ≠ none)
    (hfind : Returns (fun fuel => s.find fuel c path) (.ok (target, s.vfs))) : s.Meets drv c := by
  obtain ⟨d, hd⟩ := Option.ne_none_iff_exists'.mp hnull
  obtain ⟨-, hfinds, hexcl⟩ := finds_of_find hfrom hfind
  cases htype : checkType (s.vfs.dentryAt d).type c.flags with
  | none => exact h.meets_of_allocates ⟨hflags, hfinds, hd, hexcl, htype⟩ hfrom hfind
  | some errno =>
      refine ⟨s, .error errno, (openat_iff_find hflags hfrom.1).mpr ⟨_, hfind, ?_⟩, h.failed rfl errno⟩
      rw [finish, hd]
      dsimp only
      rw [htype]

/-- A call whose lookups return. -/
theorem Apt.meets_of_settles (h : s.Apt drv c) (hflags : OpenState.checkFlags c.flags = none)
    (hfrom : s.From c path parent) (hsettles : s.Settles c path parent) : s.Meets drv c := by
  obtain ⟨hpath, hparent⟩ := id hfrom
  obtain ⟨q, hq⟩ := hsettles.resolve
  obtain ⟨y, hy⟩ := exists_mapResult (s.vfs.resolve_mappable · (some parent) path) hq
  have hresolve := (resolveFrom_iff hparent).mpr ⟨q, hq, hy⟩
  obtain ⟨res, rfl, rfl⟩ | ⟨e, errno, rfl, -, rfl⟩ := mapResult_eq_ok.mp hy
  · by_cases hexcl : Has c.flags oExcl ∧ Has c.flags oCreat
    · refine h.meets_of_error hflags hpath .eexist ((find_iff_follow hparent hq).mpr ?_)
      rw [if_pos hexcl]
    · obtain ⟨hnull, hreduce⟩ := hsettles.reduce res hq hexcl
      have hfind := fun x => (find_iff_follow (x := x) hparent hq).mpr
      simp only [if_neg hexcl, follow_iff, and_iff_right hnull] at hfind
      by_cases hnofollow : Has c.flags oNofollow
      · exact h.meets_of_find hflags hfrom hnull (hfind _ (by rw [if_pos hnofollow]))
      · simp only [if_neg hnofollow] at hfind
        obtain ⟨t, ht, hnull'⟩ := hreduce hnofollow
        obtain ⟨z, hz⟩ := exists_mapResult
          (s.vfs.reduce_mappable · res.parent res.target symloopMax) ht
        obtain ⟨target, rfl, rfl⟩ | ⟨e, errno, rfl, -, rfl⟩ := mapResult_eq_ok.mp hz
        · exact h.meets_of_find hflags hfrom (hnull' target rfl) (hfind _ ⟨_, _, ht, hz, rfl⟩)
        · exact h.meets_of_error hflags hpath _ (hfind _ ⟨_, _, ht, hz, rfl⟩)
  · have hfind := fun x => (find_iff_create (x := x) hresolve).mpr
    by_cases hcreat : Has c.flags oCreat
    · simp only [if_pos hcreat] at hfind
      obtain ⟨t, ht, hnull⟩ := hsettles.dirname e hq hcreat
      -- a directory would make the file a missing one
      have hdir : ∀ res, t = .ok res → ¬s.vfs.IsDir res.target := by
        rintro res rfl hisdir
        refine h.created ⟨hcreat, path, parent, hfrom, ⟨e, hq⟩, res.target, ?_, hisdir⟩
        exact Vfs.lookup_iff.mpr ⟨res, ht, Vfs.reduce_of_isDir hisdir⟩
      obtain ⟨errno', hcreate⟩ := exists_create hparent ht hnull hdir
      exact h.meets_of_error hflags hpath _ (hfind _ hcreate)
    · simp only [if_neg hcreat] at hfind
      exact h.meets_of_error hflags hpath _ (hfind _ rfl)

theorem Apt.meets (h : s.Apt drv c) : s.Meets drv c := by
  cases hflags : OpenState.checkFlags c.flags with
  | some errno => exact ⟨s, _, openat_of_checkFlags hflags, h.failed rfl errno⟩
  | none =>
      cases hget : c.pathname.get with
      | error errno => exact ⟨s, _, openat_of_get hflags hget, h.failed rfl errno⟩
      | ok path =>
          have hpath : c.pathname = .text path := by
            cases hp : c.pathname with
            | text p =>
                rw [hp] at hget
                cases hget
                rfl
            | _ =>
                rw [hp] at hget
                cases hget
          obtain ⟨hnull, hsettles⟩ := h.settles hflags path hpath
          cases hparent : s.getParent c.dirfd path with
          | error stop =>
              rw [getParent_eq_error hparent] at hparent
              exact absurd hparent hnull
          | ok r =>
              cases r with
              | error errno =>
                  have hfrom := (resolveFrom_error_iff hparent).mpr rfl
                  refine h.meets_of_error hflags hpath errno ((find_iff_create hfrom).mpr ?_)
                  split
                  · exact create_of_getParent hparent
                  · rfl
              | ok parent =>
                  exact h.meets_of_settles hflags ⟨hpath, hparent⟩ (hsettles parent ⟨hpath, hparent⟩)

end Openat

/-- **`openat`.** In every state and for every path, directory, flags and mode, a call returns and does
what it is for if and only if it is an apt one. -/
theorem openat_iff (drv : Driver) (s : OpenState) (c : OpenCall) : s.Meets drv c ↔ s.Apt drv c :=
  ⟨Meets.apt, Apt.meets⟩

/-- A process in the root directory without open files. -/
def ofVfs (vfs : Vfs) : OpenState := ⟨vfs, .empty, vfs.root, 0o22⟩

/-- The drivers open and truncate every file. -/
def willing : Driver := ⟨fun _ => true, fun _ => true⟩

/-- After boot: a file that is to be created, and, after a directory has been made, that directory with
`o_directory`. -/
theorem openat_fails : (∃ vfs, (Vfs.system []).Reachable vfs ∧
      ¬(ofVfs vfs).Meets willing ⟨atFdcwd, .text (.absolute ["x"]), oCreat ||| oWronly, 0o644⟩) ∧
    ∃ vfs, (Vfs.system []).Reachable vfs ∧
      ¬(ofVfs vfs).Meets willing ⟨atFdcwd, .text (.absolute ["d"]), oDirectory, 0⟩ := by
  refine ⟨⟨Vfs.boot [], .init rfl, Missing.not_meets ?_ (by decide)⟩, ?_⟩
  · have hdir : (Vfs.boot []).IsDir ⟨some 0, some 0⟩ := ⟨0, rfl, by decide⟩
    refine ⟨.absolute ["x"], _, ⟨rfl, rfl⟩, ⟨.notFound, ?_⟩, ⟨some 0, some 0⟩, ?_, hdir⟩
    · exact ((Vfs.boot []).resolve_fuelMono _ _).returns_iff.mpr ⟨0, rfl⟩
    · refine Vfs.lookup_iff.mpr ⟨⟨⟨some 0, some 0⟩, ⟨some 0, some 0⟩⟩, ?_, Vfs.reduce_of_isDir hdir⟩
      exact ((Vfs.boot []).resolve_fuelMono _ _).returns_iff.mpr ⟨0, rfl⟩
  · have hs : (Vfs.system []).Reachable _ := Vfs.reachable_of_foldlM 0
      [.create none (.absolute ["d"]) sIfdir 0] (by simp [Vfs.Op.Enabled]) (.init rfl) rfl
    refine ⟨_, hs, OpensDirectory.not_meets ⟨by decide, by decide, by decide, ⟨some 0, some 3⟩, ?_,
      3, rfl, by decide⟩⟩
    refine ⟨.absolute ["d"], _, ⟨rfl, rfl⟩, Vfs.lookup_iff.mpr
      ⟨⟨⟨some 0, some 0⟩, ⟨some 0, some 3⟩⟩, ?_, Vfs.reduce_of_isDir ⟨3, rfl, by decide⟩⟩⟩
    exact (Vfs.resolve_fuelMono _ _ _).returns_iff.mpr ⟨0, rfl⟩

end OpenState

end Ilobilix.Fs
