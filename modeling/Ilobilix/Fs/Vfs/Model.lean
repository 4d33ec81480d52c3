import Ilobilix.Foundation.Fuel
import Ilobilix.Foundation.Transition
import Mathlib.Data.List.AList

/-!
# The virtual file system

Dentries form a tree by their `children` and `parent`, mounts hang on dentries through `child_mounts`
and lead back through `mounted_on`, and `resolve` walks a path name through all of it. A symbolic
link before the last segment is replaced by what `reduce` makes of it, and `reduce` calls `resolve`
on the link's text, so the two call each other without a common bound.

Pointers are numbers, and `none` is the null pointer. What the code returns is an `Expect`; a run
that does not return at all (it dereferences a null pointer, fails a `bug_on`, or goes on for ever)
is a `Stop`. The fuel of `resolve` and `reduce` counts how deep their calls are nested.

All file systems of the model are tmpfs or devtmpfs, which share their instance's code: `create`,
`symlink`, `link` and `unlink` of the instance always succeed and `populate` never does.
-/

namespace Ilobilix.Fs

/-! ## Path names -/

/-- A `lib::path` as cwalk's normalisation leaves it: the empty string, or an absolute path without
`..`, or a relative one with `..` only at the front. `relative 0 []` is the path `"."`. -/
inductive PathName
  | empty
  | absolute (names : List String)
  | relative (ups : ℕ) (names : List String)
  deriving DecidableEq

/-- What `resolve` finds between two slashes. -/
inductive Segment
  | dotdot
  | name (s : String)
  deriving DecidableEq

namespace PathName

def isAbsolute : PathName → Bool
  | absolute _ => true
  | _ => false

def segments : PathName → List Segment
  | empty => []
  | absolute names => names.map .name
  | relative ups names => List.replicate ups .dotdot ++ names.map .name

/-- The relative path with these segments; without any it is the empty string, as for the directory
part of a path without a slash. -/
def ofParts : ℕ → List String → PathName
  | 0, [] => empty
  | ups, names => relative ups names

def dirname : PathName → PathName
  | empty => empty
  | absolute names => absolute names.dropLast
  | relative ups [] => ofParts (ups - 1) []
  | relative ups names => ofParts ups names.dropLast

def basename : PathName → String
  | empty => ""
  | absolute names => names.getLastD ""
  | relative 0 [] => "."
  | relative _ names => names.getLastD ".."

end PathName

/-! ## Dentries and mounts -/

abbrev DentryId := ℕ
abbrev InodeId := ℕ
abbrev MountId := ℕ

/-- `vfs::path`. -/
structure Path where
  mnt : Option MountId
  dentry : Option DentryId
  deriving DecidableEq

def sIfmt : ℕ := 0o170000
def sIflnk : ℕ := 0o120000
def sIfblk : ℕ := 0o060000
def sIfdir : ℕ := 0o040000
def sIfchr : ℕ := 0o020000

/-- `stat::type`. -/
def statType (mode : ℕ) : ℕ := mode &&& sIfmt

/-- A dentry, with the mode of its inode, which never changes. `parent` is a weak pointer and is
`none` once the parent is gone. -/
structure Dentry where
  name : String
  inode : InodeId
  stMode : ℕ
  symlinkedTo : PathName
  parent : Option DentryId
  children : AList fun _ : String => DentryId
  childMounts : List MountId

/-- The type of the dentry's inode. -/
def Dentry.type (d : Dentry) : ℕ := statType d.stMode

structure Mount where
  root : DentryId
  mountedOn : Option Path
  deriving DecidableEq

/-- The dentries, inodes and mounts made so far are the numbers below `dentries`, `inodes` and
`mounts`, and `nlinkAt` is the `st_nlink` of the inodes. `root` is the root of every process. `held`
are the paths that working directories, open files and callers hold, and `cdevs` the device numbers
with registered operations. -/
structure Vfs where
  dentryAt : DentryId → Dentry
  dentries : ℕ
  nlinkAt : InodeId → ℕ
  inodes : ℕ
  mountAt : MountId → Mount
  mounts : ℕ
  root : Path
  held : List Path
  cdevs : List ℕ

inductive VfsError
  | alreadyExists | notFound | notADir | notABlock | symloopMax | targetIsADir | targetIsBusy
  | dirNotEmpty | differentFilesystem | invalidFilesystem | invalidSymlink | invalidDevice
  | invalidType
  deriving DecidableEq

/-- Why a call does not return. -/
inductive Stop
  /-- The calls are nested deeper than the fuel. -/
  | fuel
  /-- A loop over mounts has seen more mounts than there are. -/
  | mountCycle
  | nullMount
  | nullDentry
  /-- A failed `bug_on`, or `value()` of an empty optional. -/
  | bug
  deriving DecidableEq

/-- What a call comes to: `std::expected`, unless it does not return. -/
abbrev Outcome (α : Type) := ExceptT VfsError (Except Stop) α

namespace Outcome

variable {α β : Type}

def stop (e : Stop) : Outcome α := Except.error e

/-- The returned `std::expected` itself. -/
def attempt : Outcome α → Outcome (Except VfsError α)
  | .error e => Except.error e
  | .ok r => pure r

theorem pure_inj {a b : α} (h : (pure a : Outcome α) = pure b) : a = b := by
  cases h
  rfl

theorem throw_ne_pure {e : VfsError} {a : α} : (throw e : Outcome α) ≠ pure a := fun h => by cases h

theorem stop_ne_pure {e : Stop} {a : α} : (stop e : Outcome α) ≠ pure a := fun h => by cases h

theorem pure_ne_stop {e : Stop} {a : α} : (pure a : Outcome α) ≠ stop e := fun h => by cases h

theorem throw_ne_stop {e : VfsError} {e' : Stop} : (throw e : Outcome α) ≠ stop e' :=
  fun h => by cases h

/-- A call returns a value, returns an error, or does not return. -/
theorem cases_outcome (x : Outcome α) :
    (∃ a, x = pure a) ∨ (∃ e : VfsError, x = throw e) ∨ ∃ e, x = stop e := by
  match x with
  | .error e => exact .inr (.inr ⟨e, rfl⟩)
  | .ok (.error e) => exact .inr (.inl ⟨e, rfl⟩)
  | .ok (.ok a) => exact .inl ⟨a, rfl⟩

theorem pure_bind (a : α) (f : α → Outcome β) : (pure a : Outcome α) >>= f = f a := rfl

theorem throw_bind (e : VfsError) (f : α → Outcome β) : (throw e : Outcome α) >>= f = throw e := rfl

theorem stop_bind (e : Stop) (f : α → Outcome β) : (stop e : Outcome α) >>= f = stop e := rfl

theorem bind_eq_pure {x : Outcome α} {f : α → Outcome β} {b : β} :
    x >>= f = pure b ↔ ∃ a, x = pure a ∧ f a = pure b := by
  constructor
  · intro h
    obtain ⟨a, rfl⟩ | ⟨e, rfl⟩ | ⟨e, rfl⟩ := cases_outcome x
    · exact ⟨a, rfl, h⟩
    · cases h
    · cases h
  · rintro ⟨a, rfl, h⟩
    exact h

theorem bind_eq_stop {x : Outcome α} {f : α → Outcome β} {e : Stop} :
    x >>= f = stop e ↔ x = stop e ∨ ∃ a, x = pure a ∧ f a = stop e := by
  constructor
  · intro h
    obtain ⟨a, rfl⟩ | ⟨e', rfl⟩ | ⟨e', rfl⟩ := cases_outcome x
    · exact .inr ⟨a, rfl, h⟩
    · cases h
    · rw [stop_bind] at h
      cases h
      exact .inl rfl
  · rintro (rfl | ⟨a, rfl, h⟩)
    · rfl
    · exact h

theorem attempt_pure (a : α) : attempt (pure a : Outcome α) = pure (.ok a) := rfl

theorem attempt_throw (e : VfsError) : attempt (throw e : Outcome α) = pure (.error e) := rfl

theorem attempt_stop (e : Stop) : attempt (stop e : Outcome α) = stop e := rfl

theorem attempt_eq_ok {x : Outcome α} {a : α} : attempt x = pure (.ok a) ↔ x = pure a := by
  constructor
  · intro h
    obtain ⟨b, rfl⟩ | ⟨e, rfl⟩ | ⟨e, rfl⟩ := cases_outcome x
    · cases h
      rfl
    · cases h
    · cases h
  · rintro rfl
    rfl

theorem attempt_eq_error {x : Outcome α} {e : VfsError} :
    attempt x = pure (.error e) ↔ x = throw e := by
  constructor
  · intro h
    obtain ⟨b, rfl⟩ | ⟨e, rfl⟩ | ⟨e, rfl⟩ := cases_outcome x
    · cases h
    · cases h
      rfl
    · cases h
  · rintro rfl
    rfl

theorem attempt_eq_stop {x : Outcome α} {e : Stop} : attempt x = stop e ↔ x = stop e := by
  constructor
  · intro h
    obtain ⟨b, rfl⟩ | ⟨e', rfl⟩ | ⟨e', rfl⟩ := cases_outcome x
    · cases h
    · cases h
    · cases h
      rfl
  · rintro rfl
    rfl

end Outcome

open Outcome

/-- `vfs::resolve_res`. -/
structure ResolveRes where
  parent : Path
  target : Path
  deriving DecidableEq

/-- `vfs::symloop_max`. -/
def symloopMax : ℕ := 40

namespace Vfs

def derefDentry (s : Vfs) : Option DentryId → Outcome Dentry
  | none => stop .nullDentry
  | some d => pure (s.dentryAt d)

def derefMount (s : Vfs) : Option MountId → Outcome Mount
  | none => stop .nullMount
  | some m => pure (s.mountAt m)

/-! ## Walking a path -/

/-- `while (path.dentry == path.mnt->root) path = path.mnt->mounted_on.value();` for at most so many
turns. -/
def climb (s : Vfs) : ℕ → Path → Outcome Path
  | 0, p => do
    let m ← s.derefMount p.mnt
    if p.dentry = some m.root then stop .mountCycle else pure p
  | n + 1, p => do
    let m ← s.derefMount p.mnt
    if p.dentry = some m.root then
      match m.mountedOn with
      | none => stop .bug
      | some q => s.climb n q
    else pure p

/-- The lambda `resolve_mounts`. -/
def resolveMounts (s : Vfs) (p : Path) : Outcome Path := s.climb s.mounts p

/-- One step up: out of the mounts, to the parent, and out of the mounts again. -/
def dotdot (s : Vfs) (p : Path) : Outcome Path := do
  let q ← s.resolveMounts p
  let d ← s.derefDentry q.dentry
  s.resolveMounts { q with dentry := d.parent }

/-- The loop after the label `again`: into the first mount on the dentry that belongs to the current
mount, as long as there is one. -/
def enterMounts (s : Vfs) : ℕ → Option MountId → DentryId → Outcome Path
  | n, mnt, d =>
    match (s.dentryAt d).childMounts.find? fun m => (s.mountAt m).mountedOn.map Path.mnt = some mnt with
    | none => pure ⟨mnt, some d⟩
    | some m =>
      match n with
      | 0 => stop .mountCycle
      | n + 1 => s.enterMounts n (some m) (s.mountAt m).root

/-- The child of this name, with the mounts on it entered. A child that is not there is looked for
with `populate`, which fails. -/
def child (s : Vfs) (current : Path) (name : String) : Outcome Path := do
  let d ← s.derefDentry current.dentry
  match d.children.lookup name with
  | some c => s.enterMounts s.mounts current.mnt c
  | none => do
    let _ ← s.derefMount current.mnt
    throw .notFound

/-- A symbolic link is reduced, by the given function. -/
def follow (reduce : Path → Path → Outcome Path) (s : Vfs) (current next : Path) : Outcome Path := do
  let d ← s.derefDentry next.dentry
  if d.type = sIflnk then reduce current next else pure next

def requireDir (s : Vfs) (next : Path) : Outcome Path := do
  let d ← s.derefDentry next.dentry
  if d.type = sIfdir then pure next else throw .notADir

/-- A turn of the loop of `resolve` for a segment that is not the last one. -/
def advance (reduce : Path → Path → Outcome Path) (s : Vfs) (current : Path) :
    Segment → Outcome Path
  | .dotdot => s.dotdot current
  | .name name => do
    let next ← s.child current name
    let next ← s.follow reduce current next
    s.requireDir next

/-- A turn of the loop of `resolve` for the last segment. -/
def finish (s : Vfs) (current : Path) : Segment → Outcome ResolveRes
  | .dotdot => do
    let current ← s.dotdot current
    let parent ← s.dotdot current
    pure ⟨parent, current⟩
  | .name name => do
    let next ← s.child current name
    pure ⟨current, next⟩

/-- The loop of `resolve`. -/
def walk (reduce : Path → Path → Outcome Path) (s : Vfs) : Path → List Segment → Outcome ResolveRes
  | _, [] => throw .notFound
  | current, [segment] => s.finish current segment
  | current, segment :: rest => do
    let next ← s.advance reduce current segment
    walk reduce s next rest

/-- Where `resolve` starts: at the root, unless the path is relative and a parent is given. -/
def start (s : Vfs) (parent : Option Path) (path : PathName) : Path :=
  if path.isAbsolute then s.root else parent.getD s.root

/-- `resolve`, with the calls of `reduce` made to the given function. -/
def resolveWith (reduce : Path → Path → Outcome Path) (s : Vfs) (parent : Option Path)
    (path : PathName) : Outcome ResolveRes :=
  let start := s.start parent path
  if path.segments = [] then pure ⟨start, start⟩
  else if start.mnt = none then stop .bug
  else s.walk reduce start path.segments

/-- The text of a symbolic link, for `is_symlink`. -/
def symlinkTarget (s : Vfs) (src : Path) : Outcome (Option PathName) := do
  let d ← s.derefDentry src.dentry
  pure (if d.type = sIflnk ∧ d.symlinkedTo ≠ .empty then some d.symlinkedTo else none)

/-- The loop of `reduce` and what follows it, with the calls of `resolve` made to the given
function. -/
def reduceLoop (resolve : Path → PathName → Outcome ResolveRes) (s : Vfs) :
    ℕ → Path → Path → Outcome Path
  | 0, _, src => do
    match ← s.symlinkTarget src with
    | none => pure src
    | some _ => throw .symloopMax
  | depth + 1, parent, src => do
    match ← s.symlinkTarget src with
    | none => pure src
    | some text =>
      match ← attempt (resolve parent text) with
      | .error _ => throw .invalidSymlink
      | .ok ret =>
        if ret.target.dentry = src.dentry then throw .invalidSymlink
        else reduceLoop resolve s depth ret.parent ret.target

/-- The calls of `reduce` that `resolve` makes, nested at most so deep. -/
def nestedReduce (s : Vfs) : ℕ → Path → Path → Outcome Path
  | 0 => fun _ _ => stop .fuel
  | fuel + 1 =>
    s.reduceLoop (fun parent text => s.resolveWith (s.nestedReduce fuel) (some parent) text)
      symloopMax

def resolve (s : Vfs) (fuel : ℕ) (parent : Option Path) (path : PathName) : Outcome ResolveRes :=
  s.resolveWith (s.nestedReduce fuel) parent path

def reduce (s : Vfs) (fuel : ℕ) (parent src : Path) (symlinkDepth : ℕ) : Outcome Path :=
  if symlinkDepth = 0 then pure src
  else s.reduceLoop (fun parent text => s.resolve fuel (some parent) text) symlinkDepth parent src

/-! ## Operations -/

/-- A new dentry, entered under this name in the children of `parent`. -/
def attach (s : Vfs) (parent : DentryId) (name : String) (inode : InodeId) (stMode : ℕ)
    (symlinkedTo : PathName) : Vfs :=
  let made : Dentry := ⟨name, inode, stMode, symlinkedTo, some parent, ∅, []⟩
  let dentryAt := Function.update s.dentryAt s.dentries made
  { s with
    dentryAt := Function.update dentryAt parent
      { dentryAt parent with children := (dentryAt parent).children.insert name s.dentries }
    dentries := s.dentries + 1 }

/-- What `create`, `symlink` and `link` begin with: the path must not resolve, and its directory part
must. -/
def realParent (s : Vfs) (fuel : ℕ) (parent : Option Path) (path : PathName) : Outcome Path := do
  match ← attempt (s.resolve fuel parent path) with
  | .ok _ => throw .alreadyExists
  | .error _ =>
    let res ← s.resolve fuel parent path.dirname
    pure res.target

/-- What they end with, in the state in which the file system has made or found the inode: the dentry
is entered. -/
def enter (s : Vfs) (parent : Path) (name : String) (inode : InodeId) (stMode : ℕ)
    (symlinkedTo : PathName) : Outcome (Path × Vfs) := do
  let _ ← s.derefMount parent.mnt
  match parent.dentry with
  | none => stop .nullDentry
  | some d => pure (⟨parent.mnt, some s.dentries⟩, s.attach d name inode stMode symlinkedTo)

/-- The file system makes an inode, with one link. -/
def newInode (s : Vfs) : Vfs :=
  { s with nlinkAt := Function.update s.nlinkAt s.inodes 1, inodes := s.inodes + 1 }

def setNlink (s : Vfs) (inode : InodeId) (nlink : ℕ) : Vfs :=
  { s with nlinkAt := Function.update s.nlinkAt inode nlink }

/-- The checks of `create` on a device number. -/
def checkDev (s : Vfs) (mode dev : ℕ) : Outcome Unit :=
  if dev = 0 then pure ()
  else if statType mode ≠ sIfchr ∧ statType mode ≠ sIfblk then throw .invalidType
  else if dev ∈ s.cdevs then pure ()
  else throw .invalidDevice

def create (s : Vfs) (fuel : ℕ) (parent : Option Path) (path : PathName) (mode dev : ℕ) :
    Outcome (Path × Vfs) := do
  let _ ← s.checkDev mode dev
  let realParent ← s.realParent fuel parent path
  s.newInode.enter realParent path.basename s.inodes mode .empty

def symlink (s : Vfs) (fuel : ℕ) (parent : Option Path) (src target : PathName) :
    Outcome (Path × Vfs) := do
  let realParent ← s.realParent fuel parent src
  s.newInode.enter realParent src.basename s.inodes sIflnk target

/-- The target of `link`, which has to be reducible if it is a symbolic link to follow; the link is
still made to the symbolic link itself. -/
def linkTarget (s : Vfs) (fuel : ℕ) (tgtparent : Option Path) (target : PathName)
    (followLinks : Bool) : Outcome Path := do
  let res ← s.resolve fuel tgtparent target
  let tgt ← s.derefDentry res.target.dentry
  if followLinks ∧ tgt.type = sIflnk then
    let _ ← s.reduce fuel res.parent res.target symloopMax
    pure res.target
  else pure res.target

def link (s : Vfs) (fuel : ℕ) (parent : Option Path) (src : PathName) (tgtparent : Option Path)
    (target : PathName) (followLinks : Bool) : Outcome (Path × Vfs) := do
  let realParent ← s.realParent fuel parent src
  let target ← s.linkTarget fuel tgtparent target followLinks
  let tgt ← s.derefDentry target.dentry
  if tgt.type = sIfdir then throw .targetIsADir
  else if realParent.mnt ≠ target.mnt then throw .differentFilesystem
  else
    (s.setNlink tgt.inode (s.nlinkAt tgt.inode + 1)).enter realParent src.basename tgt.inode
      tgt.stMode .empty

/-- The children of `parent` without this name. -/
def detach (s : Vfs) (parent : DentryId) (name : String) : Vfs :=
  { s with
    dentryAt := Function.update s.dentryAt parent
      { s.dentryAt parent with children := (s.dentryAt parent).children.erase name } }

/-- The checks of `unlink` on what it is going to remove. -/
def checkUnlink (s : Vfs) (p : Path) : Outcome Unit := do
  let target ← s.derefDentry p.dentry
  let mnt ← s.derefMount p.mnt
  if target.type = sIfdir then
    if p.dentry = some mnt.root then throw .targetIsBusy
    else if target.children.keys ≠ [] then throw .dirNotEmpty
    else pure ()
  else pure ()

/-- The file system takes a link off the inode, and the entry is removed. -/
def unlink (s : Vfs) (fuel : ℕ) (parent : Option Path) (path : PathName) : Outcome Vfs := do
  let res ← s.resolve fuel parent path
  let _ ← s.checkUnlink res.target
  let target ← s.derefDentry res.target.dentry
  match res.parent.dentry with
  | none => stop .nullDentry
  | some d =>
    if (s.dentryAt d).children.lookup path.basename = none then stop .bug
    else
      pure ((s.setNlink target.inode (s.nlinkAt target.inode - 1)).detach d path.basename)

def pathFor (s : Vfs) (fuel : ℕ) (path : PathName) : Outcome Path := do
  let res ← s.resolve fuel (some s.root) path
  pure res.target

/-- The absolute root dentry `vfs::root`. -/
def absoluteRoot : DentryId := 0

/-- The root dentry of the tmpfs that is mounted on the absolute root dentry at boot. -/
def rootfs : DentryId := 1

/-- The root dentry that all mounts of devtmpfs share. -/
def devtmpfsRoot : DentryId := 2

/-- A new mount with this root on `target`. -/
def addMount (s : Vfs) (root : DentryId) (target : Path) (on : DentryId) : Vfs :=
  { s with
    mountAt := Function.update s.mountAt s.mounts ⟨root, some target⟩
    mounts := s.mounts + 1
    dentryAt := Function.update s.dentryAt on
      { s.dentryAt on with childMounts := (s.dentryAt on).childMounts ++ [s.mounts] } }

/-- The root dentry that tmpfs makes for a new mount. -/
def addRoot (s : Vfs) : Vfs :=
  { s with
    dentryAt := Function.update s.dentryAt s.dentries
      ⟨"tmpfs root. this shouldn't be visible anywhere", s.inodes, sIfdir, .empty, none, ∅, []⟩
    dentries := s.dentries + 1
    nlinkAt := Function.update s.nlinkAt s.inodes 1
    inodes := s.inodes + 1 }

/-- The check of `mount` on its source. -/
def checkSource (s : Vfs) (fuel : ℕ) (source : PathName) : Outcome Unit :=
  if source = .empty then pure ()
  else do
    let p ← s.pathFor fuel source
    let d ← s.derefDentry p.dentry
    if d.type = sIfblk then pure () else throw .notABlock

def mount (s : Vfs) (fuel : ℕ) (source target : PathName) (fstype : String) : Outcome Vfs :=
  if fstype ≠ "tmpfs" ∧ fstype ≠ "devtmpfs" then throw .invalidFilesystem
  else do
    let _ ← s.checkSource fuel source
    let target ← s.pathFor fuel target
    match target.dentry with
    | none => stop .nullDentry
    | some on =>
      if (s.dentryAt on).type ≠ sIfdir then throw .notADir
      else if fstype = "tmpfs" then pure (s.addRoot.addMount s.dentries target on)
      else pure (s.addMount devtmpfsRoot target on)

/-- Something points to the dentry and keeps it. -/
def Referenced (s : Vfs) (d : DentryId) : Prop :=
  d = absoluteRoot ∨ d = devtmpfsRoot ∨ (∃ p ∈ s.held, p.dentry = some d) ∨
    (∃ m < s.mounts, (s.mountAt m).root = d ∨ (s.mountAt m).mountedOn.bind Path.dentry = some d) ∨
    ∃ e < s.dentries, ∃ name ∈ (s.dentryAt e).children.keys,
      (s.dentryAt e).children.lookup name = some d

/-- A dentry that nothing points to is destroyed: the weak pointers to it expire. -/
def release (s : Vfs) (d : DentryId) : Vfs :=
  { s with
    dentryAt := fun e =>
      { s.dentryAt e with
        parent := if (s.dentryAt e).parent = some d then none else (s.dentryAt e).parent
        children := if e = d then ∅ else (s.dentryAt e).children } }

/-- The path that is opened: the target of `resolve`, or what `reduce` makes of it. -/
def lookup (s : Vfs) (fuel : ℕ) (parent : Option Path) (path : PathName) (follow : Bool) :
    Outcome Path := do
  let res ← s.resolve fuel parent path
  if follow then s.reduce fuel res.parent res.target symloopMax else pure res.target

def hold (s : Vfs) (p : Path) : Vfs := { s with held := p :: s.held }

/-- What the rest of the kernel does with the virtual file system. -/
inductive Op
  | lookup (parent : Option Path) (path : PathName) (follow : Bool)
  | create (parent : Option Path) (path : PathName) (mode dev : ℕ)
  | symlink (parent : Option Path) (src target : PathName)
  | link (parent : Option Path) (src : PathName) (tgtparent : Option Path) (target : PathName)
      (followLinks : Bool)
  | unlink (parent : Option Path) (path : PathName)
  | mount (source target : PathName) (fstype : String)
  | close (p : Path)
  | release (d : DentryId)
  deriving DecidableEq

/-- The paths an operation starts from are held, and a dentry is destroyed only if nothing points to
it. -/
def Op.Enabled (s : Vfs) : Op → Prop
  | .lookup parent _ _ | .create parent _ _ _ | .symlink parent _ _ | .unlink parent _ =>
    ∀ p ∈ parent, p ∈ s.held
  | .link parent _ tgtparent _ _ => (∀ p ∈ parent, p ∈ s.held) ∧ ∀ p ∈ tgtparent, p ∈ s.held
  | .mount _ _ _ | .close _ => True
  | .release d => ¬ s.Referenced d

/-- The state after an operation that succeeds. The caller holds the path it gets. -/
def exec (s : Vfs) (fuel : ℕ) : Op → Outcome Vfs
  | .lookup parent path follow => do
    let p ← s.lookup fuel parent path follow
    pure (s.hold p)
  | .create parent path mode dev => do
    let (p, s) ← s.create fuel parent path mode dev
    pure (s.hold p)
  | .symlink parent src target => do
    let (p, s) ← s.symlink fuel parent src target
    pure (s.hold p)
  | .link parent src tgtparent target followLinks => do
    let (p, s) ← s.link fuel parent src tgtparent target followLinks
    pure (s.hold p)
  | .unlink parent path => s.unlink fuel parent path
  | .mount source target fstype => s.mount fuel source target fstype
  | .close p => pure { s with held := s.held.erase p }
  | .release d => pure (s.release d)

/-- The state after `mount("", "/", "tmpfs", 0)` at boot: the root mount is on the absolute root
dentry, where there was no mount before, and the root of the first process is set. -/
def boot (cdevs : List ℕ) : Vfs where
  dentryAt d := ⟨
    if d = absoluteRoot then "/"
    else if d = rootfs then "tmpfs root. this shouldn't be visible anywhere"
    else "devtmpfs root. this shouldn't be visible anywhere",
    d, sIfdir, .empty, if d = absoluteRoot then some absoluteRoot else none, ∅,
    if d = absoluteRoot then [0] else []⟩
  dentries := 3
  nlinkAt i := if i = absoluteRoot then 0 else 1
  inodes := 3
  mountAt _ := ⟨rootfs, some ⟨none, some absoluteRoot⟩⟩
  mounts := 1
  root := ⟨some 0, some absoluteRoot⟩
  held := [⟨some 0, some absoluteRoot⟩]
  cdevs := cdevs

/-- The runs of the virtual file system from boot on. -/
def system (cdevs : List ℕ) : TransitionSystem Vfs Op where
  init s := s = boot cdevs
  step s op s' := op.Enabled s ∧ ∃ fuel, s.exec fuel op = pure s'

end Vfs

end Ilobilix.Fs
