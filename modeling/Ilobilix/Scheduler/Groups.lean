import Ilobilix.Foundation.Maps
import Ilobilix.Foundation.Transition
import Mathlib.Data.Int.DivMod

/-!
# Process groups and sessions

A process names its group and its session by their numbers, and a group names its session; a group
keeps a table of its processes and a session one of its groups. `change_group` and `change_session`
move a process or a group from one table to another and then write the new numbers. `Inv` ties the
numbers and the tables together.

Pointers to groups and sessions are numbers. The processes are numbered in the order in which they
are made; `none` is the idle process of the processor, which is in no table. The number of a process
is a `std::size_t`, its `pid` what is left of it in 32 bits.
-/

namespace Ilobilix.Scheduler

abbrev ProcId := Option ℕ
abbrev GroupId := ℕ
abbrev SessionId := ℕ

/-- `struct process`, with the fields that decide which group it is in. -/
structure Proc where
  pid : ℤ
  pgid : ℤ
  sid : ℤ
  hasExecved : Bool
  children : Finmap fun _ : ℤ => ProcId

/-- `struct group`. -/
structure Group where
  pgid : ℤ
  sid : ℤ
  members : Finmap fun _ : ℤ => ProcId

/-- `struct session`. -/
structure Session where
  sid : ℤ
  members : Finmap fun _ : ℤ => GroupId

def Group.insert (grp : Group) (pid : ℤ) (p : ProcId) : Group :=
  { grp with members := grp.members.insert pid p }

def Group.erase (grp : Group) (pid : ℤ) : Group := { grp with members := grp.members.erase pid }

def Session.insert (sess : Session) (pgid : ℤ) (g : GroupId) : Session :=
  { sess with members := sess.members.insert pgid g }

def Session.erase (sess : Session) (pgid : ℤ) : Session :=
  { sess with members := sess.members.erase pgid }

/-- Writing the numbers of the group a process gets into. -/
def Proc.join (proc : Proc) (pgid sid : ℤ) : Proc := { proc with pgid := pgid, sid := sid }

def Proc.addChild (proc : Proc) (pid : ℤ) (p : ProcId) : Proc :=
  { proc with children := proc.children.insert pid p }

inductive ProcErrno
  | einval | esrch | eperm | eacces
deriving DecidableEq

/-- The tables of the scheduler. The processes made so far are the numbers below `nextPid`, and
`processes` has an entry for each of them. -/
structure ProcTables where
  procAt : ProcId → Proc
  nextPid : ℕ
  groupAt : GroupId → Group
  groups : Finmap fun _ : ℤ => GroupId
  newGroup : GroupId
  sessionAt : SessionId → Session
  sessions : Finmap fun _ : ℤ => SessionId
  newSession : SessionId

/-- A `std::size_t` as a `pid_t`. -/
@[irreducible] def toPid (n : ℕ) : ℤ := Int.bmod n (2 ^ 32)

namespace ProcTables

def modifyProc (s : ProcTables) (p : ProcId) (f : Proc → Proc) : ProcTables :=
  { s with procAt := Function.update s.procAt p (f (s.procAt p)) }

def modifyGroup (s : ProcTables) (g : GroupId) (f : Group → Group) : ProcTables :=
  { s with groupAt := Function.update s.groupAt g (f (s.groupAt g)) }

def modifySession (s : ProcTables) (ss : SessionId) (f : Session → Session) : ProcTables :=
  { s with sessionAt := Function.update s.sessionAt ss (f (s.sessionAt ss)) }

/-- `proc_for`. The key of `processes` is a `std::size_t`. -/
def procFor (s : ProcTables) (pid : ℤ) : Option ProcId :=
  if pid = -1 then some none
  else if (pid % 2 ^ 64).toNat < s.nextPid then some (some (pid % 2 ^ 64).toNat) else none

def groupFor (s : ProcTables) (pgid : ℤ) : Option GroupId := s.groups.lookup pgid

def sessionFor (s : ProcTables) (sid : ℤ) : Option SessionId := s.sessions.lookup sid

def createGroup (s : ProcTables) (p : ProcId) : GroupId × ProcTables :=
  let pid := (s.procAt p).pid
  let s := s.modifyProc p fun proc => { proc with pgid := pid }
  (s.newGroup, { s with
    groupAt := Function.update s.groupAt s.newGroup
      ⟨pid, 0, (∅ : Finmap fun _ : ℤ => ProcId).insert pid p⟩
    groups := s.groups.insert pid s.newGroup
    newGroup := s.newGroup + 1 })

def createSession (s : ProcTables) (g : GroupId) : SessionId × ProcTables :=
  let pgid := (s.groupAt g).pgid
  (s.newSession, { s with
    sessionAt := Function.update s.sessionAt s.newSession
      ⟨pgid, (∅ : Finmap fun _ : ℤ => GroupId).insert pgid g⟩
    sessions := s.sessions.insert pgid s.newSession
    newSession := s.newSession + 1 })

/-- The end of `change_group`. -/
def joinGroup (s : ProcTables) (p : ProcId) (g : GroupId) : ProcTables :=
  s.modifyProc p fun proc => proc.join (s.groupAt g).pgid (s.groupAt g).sid

/-- `change_group`. It has no result when the `bug_on` fails, and when the old group is the new one,
whose lock is held. -/
def changeGroup (s : ProcTables) (p : ProcId) (g : GroupId) : Option (Bool × ProcTables) :=
  let proc := s.procAt p
  if proc.pid ∈ (s.groupAt g).members then some (false, s)
  else
    let s := s.modifyGroup g fun grp => grp.insert proc.pid p
    match s.groupFor proc.pgid with
    | none => some (true, s.joinGroup p g)
    | some old =>
      if old = g then none
      else if proc.pid ∉ (s.groupAt old).members then none
      else
        let s := s.modifyGroup old fun grp => grp.erase proc.pid
        some (true, s.joinGroup p g)

/-- The end of `change_session`: the group and its members get the number. -/
def joinSession (s : ProcTables) (g : GroupId) (ss : SessionId) : ProcTables :=
  let sid := (s.sessionAt ss).sid
  let members := (s.groupAt g).members
  { s.modifyGroup g fun grp => { grp with sid := sid } with
    procAt := fun p =>
      if ∃ pid ∈ members.keys, members.lookup pid = some p then { s.procAt p with sid := sid }
      else s.procAt p }

/-- `change_session`. -/
def changeSession (s : ProcTables) (g : GroupId) (ss : SessionId) : Option (Bool × ProcTables) :=
  let grp := s.groupAt g
  if grp.pgid ∈ (s.sessionAt ss).members then some (false, s)
  else
    let s := s.modifySession ss fun sess => sess.insert grp.pgid g
    match s.sessionFor grp.sid with
    | none => some (true, s.joinSession g ss)
    | some old =>
      if old = ss then none
      else if grp.pgid ∉ (s.sessionAt old).members then none
      else
        let s := s.modifySession old fun sess => sess.erase grp.pgid
        some (true, s.joinSession g ss)

/-- `new process { }` with its `pid`. -/
def allocPid (s : ProcTables) : ProcTables :=
  { s with
    procAt := Function.update s.procAt (some s.nextPid) ⟨toPid s.nextPid, 0, 0, false, ∅⟩
    nextPid := s.nextPid + 1 }

/-- `process::create` up to the address space. No result is a failed `bug_on`, a panic or a null
pointer. -/
def enterGroup (s : ProcTables) (p : ProcId) (parent : Option ProcId) : Option ProcTables :=
  let pid := (s.procAt p).pid
  if pid = 0 then some s
  else if pid = 1 then
    if parent.isSome then none
    else
      let (g, s) := s.createGroup p
      let (ss, s) := s.createSession g
      let sid := (s.sessionAt ss).sid
      let s := s.modifyProc p fun proc => { proc with sid := sid }
      some (s.modifyGroup g fun grp => { grp with sid := sid })
  else
    match parent with
    | none => none
    | some parent =>
      let par := s.procAt parent
      let s := s.modifyProc p fun proc => proc.join par.pgid par.sid
      match s.groupFor par.pgid with
      | none => none
      | some g =>
        if pid ∈ (s.groupAt g).members then none
        else some (s.modifyGroup g fun grp => grp.insert pid p)

/-- `process::create`. -/
def create (s : ProcTables) (parent : Option ProcId) : Option ProcTables :=
  let p : ProcId := some s.nextPid
  (s.allocPid.enterGroup p parent).map fun s =>
    match parent with
    | none => s
    | some parent =>
      let pid := (s.procAt p).pid
      s.modifyProc parent fun par => par.addChild pid p

/-- The checks of `setpgid` on its target and the group it is moved to. -/
def checkSetpgid (s : ProcTables) (caller : ProcId) (pid pgid : ℤ) :
    Except ProcErrno (ProcId × GroupId) :=
  let proc := s.procAt caller
  match s.procFor pid with
  | none => .error .esrch
  | some target =>
    let tgt := s.procAt target
    if pid = tgt.sid then .error .eperm
    else if pid ∈ proc.children ∧ tgt.hasExecved then .error .eacces
    else if pid ∈ proc.children ∧ proc.sid ≠ tgt.sid then .error .eperm
    else if pid ∉ proc.children ∧ pid ≠ proc.pid then .error .esrch
    else
      match s.groupFor pgid with
      | none => .error .eperm
      | some g => if (s.groupAt g).sid ≠ tgt.sid then .error .eperm else .ok (target, g)

def setpgid (s : ProcTables) (caller : ProcId) (pid pgid : ℤ) :
    Option (Except ProcErrno Unit × ProcTables) :=
  if pgid < 0 then some (.error .einval, s)
  else
    let pid := if pid = 0 then (s.procAt caller).pid else pid
    let pgid := if pgid = 0 then pid else pgid
    match s.checkSetpgid caller pid pgid with
    | .error e => some (.error e, s)
    | .ok (target, g) =>
      (s.changeGroup target g).map fun (changed, s) =>
        (if changed then .ok () else .error .einval, s)

/-- The tables before the first process is made. -/
def empty : ProcTables where
  procAt _ := ⟨-1, 0, 0, false, ∅⟩
  nextPid := 0
  groupAt _ := ⟨0, 0, ∅⟩
  groups := ∅
  newGroup := 0
  sessionAt _ := ⟨0, ∅⟩
  sessions := ∅
  newSession := 0

/-- A process that is in a group: any but the first one, process 0. -/
def Live (s : ProcTables) (n : ℕ) : Prop := 1 ≤ n ∧ n < s.nextPid

def IsGroup (s : ProcTables) (g : GroupId) : Prop := ∃ pgid, s.groupFor pgid = some g

def IsSession (s : ProcTables) (ss : SessionId) : Prop := ∃ sid, s.sessionFor sid = some ss

end ProcTables

inductive GroupStep
  | create (parent : ℕ)
  | setpgid (caller : ℕ) (pid pgid : ℤ)
  | changeSession (g : GroupId) (ss : SessionId)
  | execve (n : ℕ)

namespace ProcTables

/-- One call, by or for a process that is in a group. -/
def Performs (s : ProcTables) : GroupStep → ProcTables → Prop
  | .create parent, s' => s.Live parent ∧ s.create (some (some parent)) = some s'
  | .setpgid caller pid pgid, s' => s.Live caller ∧
      ∃ r, s.setpgid (some caller) pid pgid = some (r, s')
  | .changeSession g ss, s' => s.IsGroup g ∧ s.IsSession ss ∧
      ∃ changed, s.changeSession g ss = some (changed, s')
  | .execve n, s' => s.Live n ∧
      s' = s.modifyProc (some n) fun proc => { proc with hasExecved := true }

end ProcTables

/-- The runs from the moment process 1 has been made, after process 0. -/
def groupSystem : TransitionSystem ProcTables GroupStep where
  init s := ∃ s₀, ProcTables.empty.create none = some s₀ ∧ s₀.create none = some s
  step s e s' := s.Performs e s'

namespace ProcTables

/-- The process is in the table of the group. -/
def MemberOf (s : ProcTables) (n : ℕ) (g : GroupId) : Prop :=
  ∃ pid, (s.groupAt g).members.lookup pid = some (some n)

/-- The group is in the table of the session. -/
def GroupOf (s : ProcTables) (g : GroupId) (ss : SessionId) : Prop :=
  ∃ pgid, (s.sessionAt ss).members.lookup pgid = some g

/-- Every process is in one group, the one its `pgid` names, and has its `sid`, and every group is in
one session, the one its `sid` names. -/
structure Linked (s : ProcTables) : Prop where
  process : ∀ n, s.Live n → ∃ g, s.groupFor (s.procAt (some n)).pgid = some g ∧
    (∀ g', s.IsGroup g' → (s.MemberOf n g' ↔ g' = g)) ∧
    (s.procAt (some n)).sid = (s.groupAt g).sid
  group : ∀ g, s.IsGroup g → ∃ ss, s.sessionFor (s.groupAt g).sid = some ss ∧
    ∀ ss', s.IsSession ss' → (s.GroupOf g ss' ↔ ss' = ss)

/-- What `change_group` and `change_session` leave alone. -/
structure SameRest (s s' : ProcTables) : Prop where
  nextPid : s'.nextPid = s.nextPid
  sessions : s'.sessions = s.sessions
  idle : s'.procAt none = s.procAt none
  children : ∀ n, (s'.procAt (some n)).children = (s.procAt (some n)).children

theorem SameRest.refl (s : ProcTables) : s.SameRest s :=
  ⟨rfl, rfl, rfl, fun _ => rfl⟩

/-- What ties the tables together. The key of a member is its own number. -/
structure Inv (s : ProcTables) : Prop where
  made : 2 ≤ s.nextPid ∧ s.nextPid ≤ 2 ^ 32
  pid : ∀ n, s.Live n → (s.procAt (some n)).pid = toPid n
  group : ∀ k g, s.groups.lookup k = some g → (s.groupAt g).pgid = k
  member : ∀ k g, s.groups.lookup k = some g → ∀ pid p, (s.groupAt g).members.lookup pid = some p →
    ∃ n, p = some n ∧ s.Live n ∧ (s.procAt p).pid = pid ∧ (s.procAt p).pgid = k
  joined : ∀ n, s.Live n → ∃ g, s.groups.lookup (s.procAt (some n)).pgid = some g ∧
    (s.groupAt g).members.lookup (s.procAt (some n)).pid = some (some n) ∧
      (s.procAt (some n)).sid = (s.groupAt g).sid
  session : ∀ k ss, s.sessions.lookup k = some ss → (s.sessionAt ss).sid = k
  groupMember : ∀ k ss, s.sessions.lookup k = some ss →
    ∀ pgid g, (s.sessionAt ss).members.lookup pgid = some g →
      s.groups.lookup pgid = some g ∧ (s.groupAt g).sid = k
  groupJoined : ∀ k g, s.groups.lookup k = some g →
    ∃ ss, s.sessions.lookup (s.groupAt g).sid = some ss ∧
      (s.sessionAt ss).members.lookup k = some g

variable {s s' : ProcTables}

theorem procAt_modifyProc (p q : ProcId) (f : Proc → Proc) :
    (s.modifyProc p f).procAt q = if q = p then f (s.procAt p) else s.procAt q :=
  Function.update_apply _ _ _ _

theorem procAt_modifyGroup (g : GroupId) (f : Group → Group) :
    (s.modifyGroup g f).procAt = s.procAt :=
  rfl

theorem groupAt_modifyProc (p : ProcId) (f : Proc → Proc) :
    (s.modifyProc p f).groupAt = s.groupAt :=
  rfl

theorem groupAt_modifyGroup (g k : GroupId) (f : Group → Group) :
    (s.modifyGroup g f).groupAt k = if k = g then f (s.groupAt g) else s.groupAt k :=
  Function.update_apply _ _ _ _

theorem sessionAt_modifySession (ss k : SessionId) (f : Session → Session) :
    (s.modifySession ss f).sessionAt k = if k = ss then f (s.sessionAt ss) else s.sessionAt k :=
  Function.update_apply _ _ _ _

/-- What `change_group` makes of the tables when the process leaves a group. -/
def movedTo (s : ProcTables) (n : ℕ) (old g : GroupId) : ProcTables :=
  (((s.modifyGroup g fun grp => grp.insert (s.procAt (some n)).pid (some n)).modifyGroup old fun grp =>
    grp.erase (s.procAt (some n)).pid)).joinGroup (some n) g

theorem groupAt_movedTo {n : ℕ} {old g : GroupId} (hne : old ≠ g) (k : GroupId) :
    (s.movedTo n old g).groupAt k =
      if k = old then (s.groupAt old).erase (s.procAt (some n)).pid
      else if k = g then (s.groupAt g).insert (s.procAt (some n)).pid (some n) else s.groupAt k := by
  rw [movedTo, joinGroup, groupAt_modifyProc, groupAt_modifyGroup, groupAt_modifyGroup, if_neg hne]
  split
  · rfl
  · rw [groupAt_modifyGroup]

theorem procAt_movedTo {n : ℕ} {old g : GroupId} (q : ProcId) :
    (s.movedTo n old g).procAt q = if q = some n then
      (s.procAt (some n)).join (s.groupAt g).pgid (s.groupAt g).sid else s.procAt q := by
  -- neither table write changes the numbers of the new group
  have hg : ((((s.modifyGroup g fun grp => grp.insert (s.procAt (some n)).pid (some n)).modifyGroup
      old fun grp => grp.erase (s.procAt (some n)).pid)).groupAt g).pgid = (s.groupAt g).pgid ∧
      ((((s.modifyGroup g fun grp => grp.insert (s.procAt (some n)).pid (some n)).modifyGroup
        old fun grp => grp.erase (s.procAt (some n)).pid)).groupAt g).sid = (s.groupAt g).sid := by
    simp only [groupAt_modifyGroup, if_true]
    split
    · rename_i heq
      rw [heq, if_pos rfl]
      exact ⟨rfl, rfl⟩
    · exact ⟨rfl, rfl⟩
  rw [movedTo, joinGroup, procAt_modifyProc, hg.1, hg.2]
  rfl

/-- What `change_session` makes of the tables when the group leaves a session. -/
def regrouped (s : ProcTables) (k : ℤ) (g : GroupId) (old ss : SessionId) : ProcTables :=
  ((s.modifySession ss fun sess => sess.insert k g).modifySession old fun sess =>
    sess.erase k).joinSession g ss

section regrouped

variable {k : ℤ} {g : GroupId} {old ss : SessionId}

theorem sessionAt_regrouped (hne : old ≠ ss) (ss₁ : SessionId) :
    ((s.regrouped k g old ss).sessionAt ss₁).sid = (s.sessionAt ss₁).sid ∧
      ((s.regrouped k g old ss).sessionAt ss₁).members =
        if ss₁ = old then (s.sessionAt old).members.erase k
        else if ss₁ = ss then (s.sessionAt ss).members.insert k g
        else (s.sessionAt ss₁).members := by
  have hat : (s.regrouped k g old ss).sessionAt = ((s.modifySession ss fun sess =>
      sess.insert k g).modifySession old fun sess => sess.erase k).sessionAt := rfl
  rw [hat]
  simp only [sessionAt_modifySession, if_neg hne]
  split
  · rename_i heq
    rw [heq]
    exact ⟨rfl, rfl⟩
  · split
    · rename_i heq
      rw [heq]
      exact ⟨rfl, rfl⟩
    · exact ⟨rfl, rfl⟩

/-- The number that `change_session` writes into the group and its processes. -/
theorem sid_regrouping : (((s.modifySession ss fun sess => sess.insert k g).modifySession old fun sess =>
    sess.erase k).sessionAt ss).sid = (s.sessionAt ss).sid := by
  simp only [sessionAt_modifySession, if_true]
  split
  · rename_i heq
    rw [heq, if_pos rfl]
    rfl
  · rfl

theorem groupAt_regrouped (g₁ : GroupId) :
    ((s.regrouped k g old ss).groupAt g₁).pgid = (s.groupAt g₁).pgid ∧
      ((s.regrouped k g old ss).groupAt g₁).members = (s.groupAt g₁).members ∧
        ((s.regrouped k g old ss).groupAt g₁).sid =
          if g₁ = g then (s.sessionAt ss).sid else (s.groupAt g₁).sid := by
  have hat : (s.regrouped k g old ss).groupAt g₁ =
      (((s.modifySession ss fun sess => sess.insert k g).modifySession old fun sess =>
        sess.erase k).modifyGroup g fun grp => { grp with sid :=
          (((s.modifySession ss fun sess => sess.insert k g).modifySession old fun sess =>
            sess.erase k).sessionAt ss).sid }).groupAt g₁ := rfl
  rw [hat, groupAt_modifyGroup, sid_regrouping]
  split
  · rw [‹g₁ = g›]
    exact ⟨rfl, rfl, rfl⟩
  · exact ⟨rfl, rfl, rfl⟩

theorem procAt_regrouped (q : ProcId) :
    (s.regrouped k g old ss).procAt q =
      if ∃ pid ∈ (s.groupAt g).members.keys, (s.groupAt g).members.lookup pid = some q then
        { s.procAt q with sid := (s.sessionAt ss).sid } else s.procAt q := by
  rw [regrouped, joinSession, sid_regrouping]
  rfl

theorem procAt_regrouped_of_mem {q : ProcId} {pid : ℤ}
    (hq : (s.groupAt g).members.lookup pid = some q) : (s.regrouped k g old ss).procAt q =
      { s.procAt q with sid := (s.sessionAt ss).sid } := by
  rw [procAt_regrouped, if_pos ⟨pid, Finmap.mem_keys.mpr (Finmap.mem_of_lookup_eq_some hq), hq⟩]

theorem procAt_regrouped_of_not_mem {q : ProcId}
    (hq : ∀ pid, (s.groupAt g).members.lookup pid ≠ some q) :
    (s.regrouped k g old ss).procAt q = s.procAt q := by
  rw [procAt_regrouped, if_neg fun ⟨pid, _, hpid⟩ => hq pid hpid]

theorem fields_regrouped (q : ProcId) :
    ((s.regrouped k g old ss).procAt q).pid = (s.procAt q).pid ∧
      ((s.regrouped k g old ss).procAt q).pgid = (s.procAt q).pgid ∧
        ((s.regrouped k g old ss).procAt q).children = (s.procAt q).children := by
  rw [procAt_regrouped]
  split <;> exact ⟨rfl, rfl, rfl⟩

end regrouped

theorem toPid_emod (n : ℕ) : toPid n % ((2 ^ 32 : ℕ) : ℤ) = (n : ℤ) % ((2 ^ 32 : ℕ) : ℤ) := by
  unfold toPid
  exact Int.bmod_emod

theorem toPid_of_lt {n : ℕ} (hn : n < 2 ^ 31) : toPid n = n := by
  unfold toPid
  rw [Int.bmod_eq_of_le] <;> omega

theorem toPid_of_ge {n : ℕ} (hn : 2 ^ 31 ≤ n) (hlt : n < 2 ^ 32) : toPid n = n - 2 ^ 32 := by
  have hmod : (n : ℤ) % ((2 ^ 32 : ℕ) : ℤ) = n := by
    apply Int.emod_eq_of_lt <;> omega
  unfold toPid
  rw [Int.bmod_def, hmod, if_neg] <;> omega

theorem toPid_inj {m n : ℕ} (hm : m < 2 ^ 32) (hn : n < 2 ^ 32) (h : toPid m = toPid n) : m = n := by
  have hmod := toPid_emod m
  rw [h, toPid_emod n, ← Int.natCast_mod, ← Int.natCast_mod, Int.natCast_inj,
    Nat.mod_eq_of_lt hm, Nat.mod_eq_of_lt hn] at hmod
  exact hmod.symm

namespace Inv

theorem linked (h : s.Inv) : s.Linked := by
  refine ⟨fun n hn => ?_, fun g hg => ?_⟩
  · obtain ⟨g, hg, hmem, hsid⟩ := h.joined n hn
    refine ⟨g, hg, fun g' ⟨k, hk⟩ => ⟨fun ⟨pid, hpid⟩ => ?_, fun heq => ?_⟩, hsid⟩
    · obtain ⟨-, -, -, -, hpgid⟩ := h.member k g' hk pid _ hpid
      exact Option.some.inj (hk.symm.trans (hpgid ▸ hg))
    · exact ⟨_, heq ▸ hmem⟩
  · obtain ⟨k, hk⟩ := hg
    obtain ⟨ss, hss, hmem⟩ := h.groupJoined k g hk
    refine ⟨ss, hss, fun ss' ⟨k', hk'⟩ => ⟨fun ⟨pgid, hpgid⟩ => ?_, fun heq => ⟨k, heq ▸ hmem⟩⟩⟩
    obtain ⟨-, hsid⟩ := h.groupMember k' ss' hk' pgid g hpgid
    exact Option.some.inj (hk'.symm.trans (hsid ▸ hss))

/-- A change of the other fields of a process. -/
theorem modifyProc (h : s.Inv) {p : ProcId} {f : Proc → Proc}
    (hf : ∀ proc, (f proc).pid = proc.pid ∧ (f proc).pgid = proc.pgid ∧ (f proc).sid = proc.sid) :
    (s.modifyProc p f).Inv := by
  have hsame : ∀ q, ((s.modifyProc p f).procAt q).pid = (s.procAt q).pid ∧
      ((s.modifyProc p f).procAt q).pgid = (s.procAt q).pgid ∧
        ((s.modifyProc p f).procAt q).sid = (s.procAt q).sid := by
    intro q
    rw [procAt_modifyProc]
    split
    · rw [‹q = p›]
      exact hf _
    · exact ⟨rfl, rfl, rfl⟩
  refine ⟨h.made, fun n hn => ?_, h.group, fun k g hk pid q hq => ?_, fun n hn => ?_, h.session,
    h.groupMember, h.groupJoined⟩
  · rw [(hsame _).1]
    exact h.pid n hn
  · rw [(hsame _).1, (hsame _).2.1]
    exact h.member k g hk pid q hq
  · rw [(hsame _).1, (hsame _).2.1, (hsame _).2.2]
    exact h.joined n hn

/-- No member of a group has the number of a process that is not made yet. -/
theorem not_mem_members (h : s.Inv) {k : ℤ} {g : GroupId} (hk : s.groups.lookup k = some g)
    (hlt : s.nextPid < 2 ^ 32) : toPid s.nextPid ∉ (s.groupAt g).members := by
  intro hmem
  obtain ⟨p, hp⟩ := Finmap.mem_iff.mp hmem
  obtain ⟨n, rfl, hn, hpid, -⟩ := h.member k g hk _ _ hp
  have := toPid_inj (Nat.lt_trans hn.2 hlt) hlt ((h.pid n hn).symm.trans hpid)
  exact absurd this hn.2.ne

/-- A process that joins a group, as `process::create` and `change_group` leave it. -/
theorem enter (h : s.Inv) {n : ℕ} {k : ℤ} {g : GroupId} (hk : s.groups.lookup k = some g)
    (hmade : s'.nextPid ≤ 2 ^ 32) (hlive : ∀ m, s'.Live m ↔ m = n ∨ s.Live m)
    (hpid : (s'.procAt (some n)).pid = toPid n) (hpgid : (s'.procAt (some n)).pgid = k)
    (hsid : (s'.procAt (some n)).sid = (s.groupAt g).sid)
    (hothers : ∀ m, m ≠ n → s'.procAt (some m) = s.procAt (some m))
    (hgroups : s'.groups = s.groups) (hgroup : ∀ g', (s'.groupAt g').pgid = (s.groupAt g').pgid ∧
      (s'.groupAt g').sid = (s.groupAt g').sid)
    (hmember : ∀ g' pid p, s.IsGroup g' → ((s'.groupAt g').members.lookup pid = some p ↔
      (g' = g ∧ pid = toPid n ∧ p = some n) ∨
        (p ≠ some n ∧ (s.groupAt g').members.lookup pid = some p)))
    (hsessions : s'.sessions = s.sessions) (hsession : s'.sessionAt = s.sessionAt) : s'.Inv := by
  -- the processes that stay where they are
  have hold : ∀ m, s'.Live m → m ≠ n → s.Live m := fun m hm hne =>
    ((hlive m).mp hm).resolve_left hne
  refine ⟨⟨?_, hmade⟩, fun m hm => ?_, fun k' g' hk' => ?_, fun k' g' hk' pid p hp => ?_,
    fun m hm => ?_, ?_, ?_, fun k' g' hk' => ?_⟩
  · have hlive₁ : s'.Live 1 := (hlive 1).mpr (.inr ⟨le_rfl, h.made.1⟩)
    exact hlive₁.2
  · by_cases hmn : m = n
    · rw [hmn, hpid]
    · rw [hothers m hmn, h.pid m (hold m hm hmn)]
  · rw [(hgroup g').1]
    exact h.group k' g' (hgroups ▸ hk')
  · rw [hgroups] at hk'
    obtain ⟨heq, hpidn, hpn⟩ | ⟨hne, hp⟩ := (hmember g' pid p ⟨k', hk'⟩).mp hp
    · have hkk : k = k' := (h.group k g hk).symm.trans (h.group k' g (heq ▸ hk'))
      rw [hpidn, hpn]
      exact ⟨n, rfl, (hlive n).mpr (.inl rfl), hpid, hpgid.trans hkk⟩
    · obtain ⟨m, rfl, hm, hmpid, hmpgid⟩ := h.member k' g' hk' pid p hp
      have hmn : m ≠ n := fun heq => hne (congrArg some heq)
      rw [hothers m hmn]
      exact ⟨m, rfl, (hlive m).mpr (.inr hm), hmpid, hmpgid⟩
  · rw [hgroups]
    by_cases hmn : m = n
    · subst hmn
      rw [hpgid, hpid, hsid]
      exact ⟨g, hk, (hmember g _ _ ⟨k, hk⟩).mpr (.inl ⟨rfl, rfl, rfl⟩), ((hgroup g).2).symm⟩
    · obtain ⟨g', hg', hmem, hmsid⟩ := h.joined m (hold m hm hmn)
      rw [hothers m hmn]
      refine ⟨g', hg', (hmember g' _ _ ⟨_, hg'⟩).mpr (.inr ⟨?_, hmem⟩), hmsid.trans ?_⟩
      · exact fun heq => hmn (Option.some.inj heq)
      · exact ((hgroup g').2).symm
  · rw [hsessions, hsession]
    exact h.session
  · rw [hsessions, hsession, hgroups]
    intro k' ss hss pgid g' hg'
    rw [(hgroup g').2]
    exact h.groupMember k' ss hss pgid g' hg'
  · rw [hsessions, hsession, (hgroup g').2]
    exact h.groupJoined k' g' (hgroups ▸ hk')

/-- A process that is not live is in no group. -/
theorem ne_of_lookup (h : s.Inv) {k : ℤ} {g : GroupId} (hk : s.groups.lookup k = some g) {pid : ℤ}
    {p : ProcId} (hp : (s.groupAt g).members.lookup pid = some p) : p ≠ some s.nextPid := by
  obtain ⟨n, rfl, hn, -, -⟩ := h.member k g hk pid p hp
  rw [ne_eq, Option.some.injEq]
  exact hn.2.ne

/-- A new process gets into the group of its parent. -/
theorem create (h : s.Inv) {parent : ℕ} (hparent : s.Live parent) (hlt : s.nextPid < 2 ^ 32) :
    ∃ s', s.create (some (some parent)) = some s' ∧ s'.Inv ∧ s'.nextPid = s.nextPid + 1 ∧
      s'.sessions = s.sessions ∧ s'.procAt none = s.procAt none ∧
        ∀ n, s'.Live n → (s'.procAt (some n)).children =
          if n = parent then (s.procAt (some n)).children.insert (toPid s.nextPid) (some s.nextPid)
          else if n = s.nextPid then ∅ else (s.procAt (some n)).children := by
  obtain ⟨g, hg, -, hsid⟩ := h.joined parent hparent
  have hne : (some parent : ProcId) ≠ some s.nextPid := by
    rw [ne_eq, Option.some.injEq]
    exact hparent.2.ne
  have hpar : s.allocPid.procAt (some parent) = s.procAt (some parent) :=
    Function.update_of_ne hne _ _
  have hnew : s.allocPid.procAt (some s.nextPid) = ⟨toPid s.nextPid, 0, 0, false, ∅⟩ :=
    Function.update_self _ _ _
  have hpid : ∀ k, k < s.nextPid → toPid s.nextPid ≠ toPid k := fun k hk heq =>
    hk.ne' (toPid_inj hlt (Nat.lt_trans hk hlt) heq)
  have hzero : toPid s.nextPid ≠ 0 := fun heq =>
    hpid 0 (Nat.lt_of_lt_of_le (by decide) h.made.1) (heq.trans (toPid_of_lt (by decide)).symm)
  have hone : toPid s.nextPid ≠ 1 := fun heq =>
    hpid 1 (Nat.lt_of_lt_of_le (by decide) h.made.1) (heq.trans (toPid_of_lt (by decide)).symm)
  have hfree := h.not_mem_members hg hlt
  generalize hpar' : s.procAt (some parent) = par at *
  -- the new process as `process::create` leaves it, before it is put into the group
  have hproc : ∀ q, (s.allocPid.modifyProc (some s.nextPid) fun proc =>
      proc.join par.pgid par.sid).procAt q =
      if q = some s.nextPid then ⟨toPid s.nextPid, par.pgid, par.sid, false, ∅⟩ else s.procAt q := by
    intro q
    rw [procAt_modifyProc, hnew]
    split
    · rfl
    · exact Function.update_of_ne ‹_› _ _
  have hgroup : (s.allocPid.modifyProc (some s.nextPid) fun proc =>
      proc.join par.pgid par.sid).groupFor par.pgid = some g := hg
  have hfree' : toPid s.nextPid ∉ ((s.allocPid.modifyProc (some s.nextPid) fun proc =>
      proc.join par.pgid par.sid).groupAt g).members := hfree
  have hmade : (s.allocPid.modifyProc (some s.nextPid) fun proc =>
      proc.join par.pgid par.sid).nextPid = s.nextPid + 1 := rfl
  have hat : (s.allocPid.modifyProc (some s.nextPid) fun proc =>
      proc.join par.pgid par.sid).groupAt = s.groupAt := rfl
  have hrest : (s.allocPid.modifyProc (some s.nextPid) fun proc =>
      proc.join par.pgid par.sid).groups = s.groups := rfl
  have hcreate : s.create (some (some parent)) = some
      (((s.allocPid.modifyProc (some s.nextPid) fun proc => proc.join par.pgid par.sid).modifyGroup g
        fun grp => grp.insert (toPid s.nextPid) (some s.nextPid)).modifyProc (some parent)
          fun proc => proc.addChild (toPid s.nextPid) (some s.nextPid)) := by
    simp only [ProcTables.create, enterGroup, hnew, hpar, if_neg hzero, if_neg hone, hgroup,
      if_neg hfree', Option.map_some, procAt_modifyGroup, hproc, if_true]
  refine ⟨_, hcreate, modifyProc ?_ fun _ => ⟨rfl, rfl, rfl⟩, rfl, rfl, ?_, fun n _ => ?_⟩
  rotate_left
  · rw [procAt_modifyProc, if_neg nofun, procAt_modifyGroup, hproc, if_neg nofun]
  · rw [procAt_modifyProc, procAt_modifyGroup, hproc, hproc, if_neg hne]
    by_cases hn : n = parent
    · rw [hn, if_pos rfl, if_pos rfl]
      rfl
    · rw [if_neg fun heq => hn (Option.some.inj heq), if_neg hn]
      by_cases hnew' : n = s.nextPid
      · rw [hnew', if_pos rfl, if_pos rfl]
      · rw [if_neg fun heq => hnew' (Option.some.inj heq), if_neg hnew']
  refine h.enter (n := s.nextPid) hg hlt (fun m => ?_) ?_ ?_ ?_ (fun m hm => ?_) rfl (fun g' => ?_)
    (fun g' pid p hg' => ?_) rfl rfl
  · change 1 ≤ m ∧ m < s.nextPid + 1 ↔ m = s.nextPid ∨ 1 ≤ m ∧ m < s.nextPid
    have := h.made
    omega
  · rw [procAt_modifyGroup, hproc, if_pos rfl]
  · rw [procAt_modifyGroup, hproc, if_pos rfl]
  · rw [procAt_modifyGroup, hproc, if_pos rfl]
    exact hsid
  · rw [procAt_modifyGroup, hproc, if_neg fun heq => hm (Option.some.inj heq)]
  · rw [groupAt_modifyGroup]
    split
    · rw [‹g' = g›]
      exact ⟨rfl, rfl⟩
    · exact ⟨rfl, rfl⟩
  · obtain ⟨k, hk⟩ := hg'
    have hne' : (s.groupAt g').members.lookup pid = some p → p ≠ some s.nextPid := h.ne_of_lookup hk
    rw [groupAt_modifyGroup, hat]
    split
    · rename_i heq
      have hinsert : (Group.insert (s.groupAt g) (toPid s.nextPid) (some s.nextPid)).members =
          (s.groupAt g).members.insert (toPid s.nextPid) (some s.nextPid) := rfl
      rw [hinsert, Finmap.lookup_insert_eq_some hfree, ← heq]
      simp only [true_and]
      exact or_congr_right ⟨fun hp => ⟨hne' hp, hp⟩, And.right⟩
    · rename_i hgg
      simp only [hgg, false_and, false_or]
      exact ⟨fun hp => ⟨hne' hp, hp⟩, And.right⟩

/-- A process of a group is in no other group, and under its own number. -/
theorem eq_of_lookup (h : s.Inv) {n : ℕ} {old g : GroupId} {k pid : ℤ}
    (hold : s.groups.lookup (s.procAt (some n)).pgid = some old) (hk : s.groups.lookup k = some g)
    (hp : (s.groupAt g).members.lookup pid = some (some n)) :
    g = old ∧ pid = (s.procAt (some n)).pid := by
  obtain ⟨m, hm, -, hpid, hpgid⟩ := h.member k g hk pid _ hp
  rw [← hpgid, hold] at hk
  exact ⟨(Option.some.inj hk).symm, hpid.symm⟩

/-- The state after a process has moved to another group. -/
theorem movedTo (h : s.Inv) {n : ℕ} (hn : s.Live n) {k : ℤ} {old g : GroupId}
    (hk : s.groups.lookup k = some g) (hold : s.groups.lookup (s.procAt (some n)).pgid = some old)
    (hmem : (s.groupAt old).members.lookup (s.procAt (some n)).pid = some (some n))
    (hin : (s.procAt (some n)).pid ∉ (s.groupAt g).members) (hne : old ≠ g) :
    (s.movedTo n old g).Inv := by
  have hpid := h.pid n hn
  refine h.enter (n := n) hk h.made.2 (fun m => ?_) ?_ ?_ ?_ (fun m hm => ?_) rfl (fun g' => ?_)
    (fun g' pid p hg' => ?_) rfl rfl
  · exact ⟨.inr, fun hm => hm.elim (fun heq => heq ▸ hn) id⟩
  · rw [procAt_movedTo, if_pos rfl]
    exact hpid
  · rw [procAt_movedTo, if_pos rfl]
    exact h.group k g hk
  · rw [procAt_movedTo, if_pos rfl]
    rfl
  · rw [procAt_movedTo, if_neg fun heq => hm (Option.some.inj heq)]
  · rw [groupAt_movedTo hne]
    split
    · rw [‹g' = old›]
      exact ⟨rfl, rfl⟩
    · split
      · rw [‹g' = g›]
        exact ⟨rfl, rfl⟩
      · exact ⟨rfl, rfl⟩
  · obtain ⟨k', hk'⟩ := hg'
    rw [groupAt_movedTo hne]
    -- in its old group the process is found under its own number only
    split
    · rename_i heq
      have herase : ((s.groupAt old).erase (s.procAt (some n)).pid).members =
          (s.groupAt old).members.erase (s.procAt (some n)).pid := rfl
      rw [heq] at hk' ⊢
      have hown : (s.groupAt old).members.lookup pid = some p →
          (p = some n ↔ pid = (s.procAt (some n)).pid) := by
        intro hp
        refine ⟨fun hpn => (h.eq_of_lookup hold hk' (hpn ▸ hp)).2, fun hpn => ?_⟩
        rw [hpn, hmem] at hp
        exact (Option.some.inj hp).symm
      simp only [hne, false_and, false_or, herase, Finmap.lookup_erase_eq]
      split
      · refine ⟨nofun, fun ⟨hpn, hp⟩ => absurd ((hown hp).mpr ‹_›) hpn⟩
      · exact ⟨fun hp => ⟨fun hpn => ‹¬_› ((hown hp).mp hpn), hp⟩, And.right⟩
    · rename_i hg'
      have hother : (s.groupAt g').members.lookup pid = some p → p ≠ some n := fun hp heq =>
        hg' (h.eq_of_lookup hold hk' (heq ▸ hp)).1
      split
      · rename_i heq
        have hinsert : ((s.groupAt g).insert (s.procAt (some n)).pid (some n)).members =
            (s.groupAt g).members.insert (s.procAt (some n)).pid (some n) := rfl
        rw [hinsert, Finmap.lookup_insert_eq_some hin, hpid, ← heq]
        simp only [true_and]
        exact or_congr_right ⟨fun hp => ⟨hother hp, hp⟩, And.right⟩
      · rename_i hgg
        simp only [hgg, false_and, false_or]
        exact ⟨fun hp => ⟨hother hp, hp⟩, And.right⟩

/-- `change_group` on a process that is in a group. The tables are left alone when the process is in
the group already. -/
theorem changeGroup (h : s.Inv) {n : ℕ} (hn : s.Live n) {k : ℤ} {g : GroupId}
    (hk : s.groups.lookup k = some g) : ∃ changed s', s.changeGroup (some n) g = some (changed, s') ∧
      s'.Inv ∧ s.SameRest s' ∧ (changed = false → s' = s) := by
  obtain ⟨old, hold, hmem, -⟩ := h.joined n hn
  by_cases hin : (s.procAt (some n)).pid ∈ (s.groupAt g).members
  · exact ⟨false, s, if_pos hin, h, .refl s, fun _ => rfl⟩
  · have hne : old ≠ g := fun heq => hin (Finmap.mem_of_lookup_eq_some (heq ▸ hmem))
    have hchange : s.changeGroup (some n) g = some (true, s.movedTo n old g) := by
      have hold₁ : (s.modifyGroup g fun grp => grp.insert (s.procAt (some n)).pid (some n)).groupFor
          (s.procAt (some n)).pgid = some old := hold
      have hin₁ : (s.procAt (some n)).pid ∈ ((s.modifyGroup g fun grp =>
          grp.insert (s.procAt (some n)).pid (some n)).groupAt old).members := by
        rw [groupAt_modifyGroup, if_neg hne]
        exact Finmap.mem_of_lookup_eq_some hmem
      simp only [ProcTables.changeGroup, if_neg hin, hold₁, if_neg hne, if_neg (not_not.mpr hin₁)]
      rfl
    refine ⟨true, _, hchange, ?_, ⟨rfl, rfl, ?_, fun m => ?_⟩, nofun⟩
    · exact h.movedTo hn hk hold hmem hin hne
    · rw [procAt_movedTo, if_neg nofun]
    · rw [procAt_movedTo]
      split
      · rw [‹some m = some n›]
        rfl
      · rfl

/-- The state after a group has moved to another session. -/
theorem regrouped (h : s.Inv) {k k' : ℤ} {g : GroupId} {old ss : SessionId}
    (hk : s.groups.lookup k = some g) (hss : s.sessions.lookup k' = some ss)
    (hold : s.sessions.lookup (s.groupAt g).sid = some old)
    (hin : k ∉ (s.sessionAt ss).members) (hne : old ≠ ss) : (s.regrouped k g old ss).Inv := by
  -- a group is in one session, and under its own number
  have hgroup : ∀ k₁ ss₁, s.sessions.lookup k₁ = some ss₁ → ∀ pgid,
      (s.sessionAt ss₁).members.lookup pgid = some g → ss₁ = old ∧ pgid = k := by
    intro k₁ ss₁ hss₁ pgid hp
    obtain ⟨hg, hsid⟩ := h.groupMember k₁ ss₁ hss₁ pgid g hp
    rw [← hsid, hold] at hss₁
    exact ⟨(Option.some.inj hss₁).symm, (h.group pgid g hg).symm.trans (h.group k g hk)⟩
  have hsid := h.session k' ss hss
  refine ⟨h.made, fun n hn => ?_, fun k₁ g₁ hg₁ => ?_, fun k₁ g₁ hg₁ pid p hp => ?_, fun n hn => ?_,
    fun k₁ ss₁ hss₁ => ?_, fun k₁ ss₁ hss₁ pgid g₁ hg₁ => ?_, fun k₁ g₁ hg₁ => ?_⟩
  · rw [(fields_regrouped _).1]
    exact h.pid n hn
  · rw [(groupAt_regrouped _).1]
    exact h.group k₁ g₁ hg₁
  · rw [(groupAt_regrouped _).2.1] at hp
    rw [(fields_regrouped _).1, (fields_regrouped _).2.1]
    exact h.member k₁ g₁ hg₁ pid p hp
  · obtain ⟨g₁, hg₁, hmem, hn₁⟩ := h.joined n hn
    rw [(fields_regrouped _).1, (fields_regrouped _).2.1]
    refine ⟨g₁, hg₁, ?_, ?_⟩
    · rw [(groupAt_regrouped _).2.1]
      exact hmem
    · rw [(groupAt_regrouped _).2.2]
      by_cases heq : g₁ = g
      · rw [if_pos heq, procAt_regrouped_of_mem (heq ▸ hmem)]
      · rw [if_neg heq, procAt_regrouped_of_not_mem, hn₁]
        exact fun pid hp => heq (h.eq_of_lookup hg₁ hk hp).1.symm
  · rw [(sessionAt_regrouped hne _).1]
    exact h.session k₁ ss₁ hss₁
  · rw [(sessionAt_regrouped hne _).2] at hg₁
    rw [(groupAt_regrouped _).2.2]
    -- only the new session gets a member, and the old one loses it
    by_cases h₁ : ss₁ = old
    · rw [if_pos h₁, Finmap.lookup_erase_eq] at hg₁
      split at hg₁
      · cases hg₁
      · have hmem := h.groupMember k₁ ss₁ hss₁ pgid g₁ (h₁ ▸ hg₁)
        rw [if_neg fun heq : g₁ = g => ‹¬pgid = k› (hgroup k₁ ss₁ hss₁ pgid (heq ▸ h₁ ▸ hg₁)).2]
        exact hmem
    · by_cases h₂ : ss₁ = ss
      · rw [if_neg h₁, if_pos h₂, Finmap.lookup_insert_eq_some hin] at hg₁
        rw [h₂] at hss₁
        obtain ⟨hpgid, hgg⟩ | hg₁ := hg₁
        · rw [if_pos hgg, hpgid, hgg]
          exact ⟨hk, h.session k₁ ss hss₁⟩
        · rw [if_neg fun heq : g₁ = g => h₁ (h₂.trans (hgroup k₁ ss hss₁ pgid (heq ▸ hg₁)).1)]
          exact h.groupMember k₁ ss hss₁ pgid g₁ hg₁
      · rw [if_neg h₁, if_neg h₂] at hg₁
        rw [if_neg fun heq : g₁ = g => h₁ (hgroup k₁ ss₁ hss₁ pgid (heq ▸ hg₁)).1]
        exact h.groupMember k₁ ss₁ hss₁ pgid g₁ hg₁
  · rw [(groupAt_regrouped _).2.2]
    by_cases heq : g₁ = g
    · have hkk : k₁ = k := (h.group k₁ g₁ hg₁).symm.trans (heq ▸ h.group k g hk)
      rw [if_pos heq, hsid]
      refine ⟨ss, hss, ?_⟩
      rw [(sessionAt_regrouped hne _).2, if_neg (Ne.symm hne), if_pos rfl, hkk, heq,
        Finmap.lookup_insert]
    · rw [if_neg heq]
      obtain ⟨ss₁, hss₁, hmem⟩ := h.groupJoined k₁ g₁ hg₁
      have hkk : k₁ ≠ k := by
        rintro rfl
        exact heq (Option.some.inj (hg₁.symm.trans hk))
      refine ⟨ss₁, hss₁, ?_⟩
      rw [(sessionAt_regrouped hne _).2]
      split
      · rename_i h₁
        rw [Finmap.lookup_erase_ne hkk, ← h₁]
        exact hmem
      · split
        · rename_i h₂
          rw [Finmap.lookup_insert_of_ne _ hkk, ← h₂]
          exact hmem
        · exact hmem

/-- `change_session` on a group and a session of the tables. -/
theorem changeSession (h : s.Inv) {k k' : ℤ} {g : GroupId} {ss : SessionId}
    (hk : s.groups.lookup k = some g) (hss : s.sessions.lookup k' = some ss) :
    ∃ changed s', s.changeSession g ss = some (changed, s') ∧ s'.Inv ∧ s.SameRest s' := by
  obtain ⟨old, hold, hmem⟩ := h.groupJoined k g hk
  have hpgid := h.group k g hk
  by_cases hin : k ∈ (s.sessionAt ss).members
  · exact ⟨false, s, if_pos (hpgid ▸ hin), h, .refl s⟩
  · have hne : old ≠ ss := fun heq => hin (Finmap.mem_of_lookup_eq_some (heq ▸ hmem))
    have hchange : s.changeSession g ss = some (true, s.regrouped k g old ss) := by
      have hold₁ : (s.modifySession ss fun sess => sess.insert k g).sessionFor (s.groupAt g).sid =
          some old := hold
      have hin₁ : k ∈ ((s.modifySession ss fun sess => sess.insert k g).sessionAt old).members := by
        rw [sessionAt_modifySession, if_neg hne]
        exact Finmap.mem_of_lookup_eq_some hmem
      simp only [ProcTables.changeSession, hpgid, if_neg hin, hold₁, if_neg hne,
        if_neg (not_not.mpr hin₁)]
      rfl
    refine ⟨true, _, hchange, h.regrouped hk hss hold hin hne, rfl, rfl, ?_, fun m => ?_⟩
    · apply procAt_regrouped_of_not_mem
      intro pid hp
      obtain ⟨n, hn, -⟩ := h.member k g hk pid none hp
      cases hn
    · exact (fields_regrouped _).2.2

end Inv

/-- What the checks of `setpgid` rest on: the children of a process are processes, and no session has
the number 0 that the idle process keeps. -/
structure Callers (s : ProcTables) : Prop where
  idle : (s.procAt none).sid = 0
  session : s.sessions.lookup 0 = none
  child : ∀ n, s.Live n → ∀ pid ∈ (s.procAt (some n)).children, ∃ m, s.Live m ∧ pid = toPid m

namespace Callers

theorem sameRest (hc : s.Callers) (h : s.SameRest s') : s'.Callers := by
  have hlive : ∀ n, s'.Live n ↔ s.Live n := fun n => by rw [Live, Live, h.nextPid]
  refine ⟨h.idle ▸ hc.idle, h.sessions ▸ hc.session, fun n hn pid hpid => ?_⟩
  rw [h.children] at hpid
  obtain ⟨m, hm, heq⟩ := hc.child n ((hlive n).mp hn) pid hpid
  exact ⟨m, (hlive m).mpr hm, heq⟩

/-- The process a number stands for, when it is the number of a process. -/
theorem procFor_toPid (h : s.Inv) {m : ℕ} (hm : s.Live m) {target : ProcId}
    (htarget : s.procFor (toPid m) = some target) : target = none ∨ target = some m := by
  have hlt : m < 2 ^ 32 := Nat.lt_of_lt_of_le hm.2 h.made.2
  unfold procFor at htarget
  split at htarget
  · exact .inl (Option.some.inj htarget).symm
  · rename_i hone
    obtain hsmall | hbig := Nat.lt_or_ge m (2 ^ 31)
    · have hmod : (toPid m % 2 ^ 64).toNat = m := by
        rw [toPid_of_lt hsmall]
        omega
      rw [hmod, if_pos hm.2] at htarget
      exact .inr (Option.some.inj htarget).symm
    · -- a negative number is past the end of `processes`
      have hmod : ¬(toPid m % 2 ^ 64).toNat < s.nextPid := by
        have := h.made.2
        rw [toPid_of_ge hbig hlt]
        omega
      rw [if_neg hmod] at htarget
      cases htarget

/-- The target that `setpgid` lets through is a process in a group. -/
theorem checkSetpgid (hc : s.Callers) (h : s.Inv) {caller : ℕ} (hcaller : s.Live caller)
    {pid pgid : ℤ} {target : ProcId} {g : GroupId}
    (hok : s.checkSetpgid (some caller) pid pgid = .ok (target, g)) :
    (∃ m, target = some m ∧ s.Live m) ∧ s.groups.lookup pgid = some g := by
  unfold ProcTables.checkSetpgid at hok
  cases htarget : s.procFor pid with
  | none =>
      rw [htarget] at hok
      cases hok
  | some t =>
      rw [htarget] at hok
      simp only at hok
      split_ifs at hok with h₁ h₂ h₃ h₄
      cases hgroup : s.groupFor pgid with
      | none =>
          rw [hgroup] at hok
          cases hok
      | some g' =>
          rw [hgroup] at hok
          simp only at hok
          split_ifs at hok with hsid
          cases hok
          refine ⟨?_, hgroup⟩
          have hpid : ∃ m, s.Live m ∧ pid = toPid m := by
            by_cases hchild : pid ∈ (s.procAt (some caller)).children
            · exact hc.child caller hcaller pid hchild
            · refine ⟨caller, hcaller, ?_⟩
              rw [← h.pid caller hcaller]
              exact not_not.mp fun hne => h₄ ⟨hchild, hne⟩
          obtain ⟨m, hm, heq⟩ := hpid
          rw [heq] at htarget
          obtain ht | ht := procFor_toPid h hm htarget
          · -- the idle process has the number of no session
            obtain ⟨ss, hss, -⟩ := h.groupJoined pgid g hgroup
            rw [not_not.mp hsid, ht, hc.idle, hc.session] at hss
            cases hss
          · exact ⟨m, ht, hm⟩

end Callers

/-- `setpgid` returns, and leaves the tables alone when it fails. -/
theorem Inv.setpgid (h : s.Inv) (hc : s.Callers) {caller : ℕ} (hcaller : s.Live caller)
    (pid pgid : ℤ) : ∃ r s', s.setpgid (some caller) pid pgid = some (r, s') ∧ s'.Inv ∧
      s.SameRest s' ∧ ∀ e, r = .error e → s' = s := by
  unfold ProcTables.setpgid
  split
  · exact ⟨_, s, rfl, h, .refl s, fun _ _ => rfl⟩
  · simp only
    split
    · exact ⟨_, s, rfl, h, .refl s, fun _ _ => rfl⟩
    · rename_i target g hok
      obtain ⟨⟨m, rfl, hm⟩, hg⟩ := hc.checkSetpgid h hcaller hok
      obtain ⟨changed, s', hchange, hinv, hrest, hsame⟩ := h.changeGroup hm hg
      rw [hchange]
      refine ⟨_, s', rfl, hinv, hrest, fun e he => ?_⟩
      cases changed
      · exact hsame rfl
      · cases he

theorem Callers.create (hc : s.Callers) {parent : ℕ} (hmade : s'.nextPid = s.nextPid + 1)
    (hlt : 1 ≤ s.nextPid) (hsessions : s'.sessions = s.sessions)
    (hidle : s'.procAt none = s.procAt none)
    (hchildren : ∀ n, s'.Live n → (s'.procAt (some n)).children =
      if n = parent then (s.procAt (some n)).children.insert (toPid s.nextPid) (some s.nextPid)
      else if n = s.nextPid then ∅ else (s.procAt (some n)).children)
    (hparent : s.Live parent) : s'.Callers := by
  have hlive : ∀ m, s.Live m → s'.Live m := fun m hm => ⟨hm.1, hmade ▸ Nat.lt_succ_of_lt hm.2⟩
  refine ⟨hidle ▸ hc.idle, hsessions ▸ hc.session, fun n hn pid hpid => ?_⟩
  rw [hchildren n hn] at hpid
  split_ifs at hpid with hpar hnew
  · rw [Finmap.mem_insert] at hpid
    obtain heq | hpid := hpid
    · exact ⟨s.nextPid, ⟨hlt, by omega⟩, heq⟩
    · obtain ⟨m, hm, heq⟩ := hc.child n (hpar ▸ hparent) pid hpid
      exact ⟨m, hlive m hm, heq⟩
  · exact absurd hpid Finmap.notMem_empty
  · obtain ⟨m, hm, heq⟩ := hc.child n ⟨hn.1, by have := hn.2; omega⟩ pid hpid
    exact ⟨m, hlive m hm, heq⟩

/-- The tables once process 1 has been made. -/
def first : ProcTables :=
  let proc₁ : Proc := ⟨1, 1, 1, false, ∅⟩
  { empty with
    procAt := Function.update (Function.update empty.procAt (some 0) ⟨0, 0, 0, false, ∅⟩) (some 1) proc₁
    nextPid := 2
    groupAt := Function.update empty.groupAt 0 ⟨1, 1, (∅ : Finmap fun _ : ℤ => ProcId).insert 1 (some 1)⟩
    groups := (∅ : Finmap fun _ : ℤ => GroupId).insert 1 0
    newGroup := 1
    sessionAt := Function.update empty.sessionAt 0 ⟨1, (∅ : Finmap fun _ : ℤ => GroupId).insert 1 0⟩
    sessions := (∅ : Finmap fun _ : ℤ => SessionId).insert 1 0
    newSession := 1 }

theorem init_iff : groupSystem.init s ↔ s = first := by
  have hzero : toPid 0 = 0 := toPid_of_lt (by decide)
  have hone : toPid 1 = 1 := toPid_of_lt (by decide)
  have h₀ : empty.create none = some empty.allocPid := by
    simp [ProcTables.create, enterGroup, allocPid, empty, hzero]
  have h₁ : empty.allocPid.create none = some first := by
    simp [ProcTables.create, enterGroup, allocPid, empty, hzero, hone, createGroup, createSession,
      modifyProc, modifyGroup, first]
  constructor
  · rintro ⟨s₀, hs₀, hs⟩
    rw [h₀, Option.some.injEq] at hs₀
    rw [← hs₀, h₁, Option.some.injEq] at hs
    exact hs.symm
  · intro hs
    exact ⟨_, h₀, hs ▸ h₁⟩

theorem inv_first : first.Inv := by
  have hlive : ∀ n, first.Live n → n = 1 := by
    intro n hn
    exact Nat.le_antisymm (Nat.lt_succ_iff.mp hn.2) hn.1
  have hgroup : ∀ k g, first.groups.lookup k = some g → k = 1 ∧ g = 0 := fun k g hg =>
    Finmap.lookup_insert_empty.mp hg
  have hsession : ∀ k ss, first.sessions.lookup k = some ss → k = 1 ∧ ss = 0 := fun k ss hss =>
    Finmap.lookup_insert_empty.mp hss
  refine ⟨⟨le_rfl, by decide⟩, fun n hn => ?_, fun k g hg => ?_, fun k g hg pid p hp => ?_,
    fun n hn => ?_, fun k ss hss => ?_, fun k ss hss pgid g hg => ?_, fun k g hg => ?_⟩
  · rw [hlive n hn, toPid_of_lt (by decide)]
    rfl
  · obtain ⟨rfl, rfl⟩ := hgroup k g hg
    rfl
  · obtain ⟨rfl, rfl⟩ := hgroup k g hg
    obtain ⟨rfl, rfl⟩ := Finmap.lookup_insert_empty.mp hp
    exact ⟨1, rfl, ⟨le_rfl, by decide⟩, rfl, rfl⟩
  · rw [hlive n hn]
    exact ⟨0, Finmap.lookup_insert _, Finmap.lookup_insert _, rfl⟩
  · obtain ⟨rfl, rfl⟩ := hsession k ss hss
    rfl
  · obtain ⟨rfl, rfl⟩ := hsession k ss hss
    obtain ⟨rfl, rfl⟩ := Finmap.lookup_insert_empty.mp hg
    exact ⟨Finmap.lookup_insert _, rfl⟩
  · obtain ⟨rfl, rfl⟩ := hgroup k g hg
    exact ⟨0, Finmap.lookup_insert _, Finmap.lookup_insert _⟩

theorem callers_first : first.Callers := by
  have hzero : first.sessions.lookup 0 = none := by
    rw [Option.eq_none_iff_forall_ne_some]
    intro ss hss
    exact absurd (Finmap.lookup_insert_empty.mp hss).1 (by decide)
  refine ⟨rfl, hzero, fun n hn pid hpid => ?_⟩
  have hn₁ : n = 1 := Nat.le_antisymm (Nat.lt_succ_iff.mp hn.2) hn.1
  rw [hn₁] at hpid
  exact absurd hpid Finmap.notMem_empty

end ProcTables

/-- The numbers of the processes fit 32 bits. -/
def Numbered (s : ProcTables) : GroupStep → Prop
  | .create _ => s.nextPid < 2 ^ 32
  | .setpgid .. | .changeSession .. | .execve _ => True

namespace ProcTables

variable {s s' : ProcTables}

theorem Performs.inv {e : GroupStep} (h : s.Inv ∧ s.Callers) (hnum : Numbered s e)
    (hstep : s.Performs e s') : s'.Inv ∧ s'.Callers := by
  obtain ⟨hinv, hc⟩ := h
  cases e with
  | create parent =>
      obtain ⟨hparent, hcreate⟩ := hstep
      obtain ⟨s₁, hs₁, hinv₁, hmade, hsessions, hidle, hchildren⟩ := hinv.create hparent hnum
      rw [hcreate] at hs₁
      rw [Option.some.inj hs₁]
      have hone : 1 ≤ s.nextPid := Nat.le_of_succ_le hinv.made.1
      exact ⟨hinv₁, hc.create hmade hone hsessions hidle hchildren hparent⟩
  | setpgid caller pid pgid =>
      obtain ⟨hcaller, r, hset⟩ := hstep
      obtain ⟨r₁, s₁, hs₁, hinv₁, hrest, -⟩ := hinv.setpgid hc hcaller pid pgid
      rw [hset] at hs₁
      rw [(Prod.mk.inj (Option.some.inj hs₁)).2]
      exact ⟨hinv₁, hc.sameRest hrest⟩
  | changeSession g ss =>
      obtain ⟨⟨k, hk⟩, ⟨k', hk'⟩, r, hset⟩ := hstep
      obtain ⟨r₁, s₁, hs₁, hinv₁, hrest⟩ := hinv.changeSession hk hk'
      rw [hset] at hs₁
      rw [(Prod.mk.inj (Option.some.inj hs₁)).2]
      exact ⟨hinv₁, hc.sameRest hrest⟩
  | execve n =>
      obtain ⟨hn, rfl⟩ := hstep
      refine ⟨hinv.modifyProc fun _ => ⟨rfl, rfl, rfl⟩, hc.sameRest ⟨rfl, rfl, ?_, fun m => ?_⟩⟩
      · rw [procAt_modifyProc, if_neg nofun]
      · rw [procAt_modifyProc]
        split
        · rw [‹some m = some n›]
        · rfl

theorem reachable_inv (h : (groupSystem.restrict Numbered).Reachable s) : s.Inv ∧ s.Callers :=
  h.invariant (fun _ hs => init_iff.mp hs ▸ ⟨inv_first, callers_first⟩)
    fun _ _ _ _ hinv ⟨hnum, hstep⟩ => Performs.inv hinv hnum hstep

/-- The tables are linked, no call comes to a failed `bug_on`, and a failed `setpgid` changes
nothing. -/
structure Sound (s : ProcTables) : Prop where
  linked : s.Linked
  create : ∀ parent, s.Live parent → ∃ s', s.create (some (some parent)) = some s'
  setpgid : ∀ caller pid pgid, s.Live caller →
    ∃ r s', s.setpgid (some caller) pid pgid = some (r, s') ∧ ∀ e, r = .error e → s' = s
  changeSession : ∀ g ss, s.IsGroup g → s.IsSession ss → ∃ r, s.changeSession g ss = some r

/-- When the numbers have run out, the next process gets the number 0 and is put into no group. -/
theorem create_of_wrapped (hmade : s.nextPid = 2 ^ 32) (parent : ℕ) :
    s.create (some (some parent)) =
      some (s.allocPid.modifyProc (some parent) fun par =>
        par.addChild (toPid s.nextPid) (some s.nextPid)) := by
  have hwrap : toPid s.nextPid = 0 := by
    rw [hmade]
    unfold toPid
    decide
  have hnew : s.allocPid.procAt (some s.nextPid) = ⟨toPid s.nextPid, 0, 0, false, ∅⟩ :=
    Function.update_self _ _ _
  simp only [ProcTables.create, enterGroup, hnew, if_pos hwrap, Option.map_some]

theorem Inv.sound (h : s.Inv) (hc : s.Callers) : s.Sound := by
  refine ⟨h.linked, fun parent hparent => ?_, fun caller pid pgid hcaller => ?_,
    fun g ss ⟨k, hk⟩ ⟨k', hk'⟩ => ?_⟩
  · obtain hlt | heq := Nat.lt_or_eq_of_le h.made.2
    · obtain ⟨s', hs', -⟩ := h.create hparent hlt
      exact ⟨s', hs'⟩
    · exact ⟨_, create_of_wrapped heq parent⟩
  · obtain ⟨r, s', hs', -, -, hsame⟩ := h.setpgid hc hcaller pid pgid
    exact ⟨r, s', hs', hsame⟩
  · obtain ⟨changed, s', hs', -⟩ := h.changeSession hk hk'
    exact ⟨(changed, s'), hs'⟩

/-- In every run in which the numbers of the processes fit 32 bits, every process is in one group and
every group in one session, the ones they name, and no call fails a `bug_on`. -/
theorem groups_sound (h : (groupSystem.restrict Numbered).Reachable s) : s.Sound :=
  (reachable_inv h).1.sound (reachable_inv h).2

/-- As many processes can be made as there are numbers of 32 bits. -/
theorem exists_reachable (n : ℕ) (hn : 2 ≤ n) (hlt : n ≤ 2 ^ 32) :
    ∃ s, (groupSystem.restrict Numbered).Reachable s ∧ s.nextPid = n := by
  induction n, hn using Nat.le_induction with
  | base => exact ⟨first, .init (init_iff.mpr rfl), rfl⟩
  | succ n hn ih =>
      obtain ⟨s, hs, hmade⟩ := ih (Nat.le_of_succ_le hlt)
      have hlive : s.Live 1 := ⟨le_rfl, hmade ▸ hn⟩
      have hnum : s.nextPid < 2 ^ 32 := hmade ▸ hlt
      obtain ⟨s', hs', -, hmade', -⟩ := (reachable_inv hs).1.create hlive hnum
      exact ⟨s', .step (l := .create 1) hs ⟨hnum, hlive, hs'⟩, hmade ▸ hmade'⟩

theorem groups_sound_child : ∃ s, (groupSystem.restrict Numbered).Reachable s ∧ s.nextPid = 3 ∧
    s.Sound := by
  obtain ⟨s, hs, hmade⟩ := exists_reachable 3 (by decide) (by decide)
  exact ⟨s, hs, hmade, groups_sound hs⟩

/-- The process made after 2^32 others is in no group. -/
theorem wrapped_in_no_group : ¬∀ s, groupSystem.Reachable s → s.Sound := by
  intro hsound
  obtain ⟨s, hs, hmade⟩ := exists_reachable (2 ^ 32) (by decide) le_rfl
  have hlive : s.Live 1 := ⟨le_rfl, hmade ▸ by decide⟩
  have hcreate := create_of_wrapped hmade 1
  have hstep : groupSystem.step s (.create 1) _ := ⟨hlive, hcreate⟩
  have hreach := hs.of_restrict.step hstep
  obtain ⟨g, hg, -, hsid⟩ := (hsound _ hreach).linked.process s.nextPid
    ⟨Nat.le_trans hlive.1 (Nat.le_of_lt hlive.2), Nat.lt_succ_self _⟩
  -- its `pgid` and its `sid` are the 0 they are made with, and no session has that number
  have hne : (some s.nextPid : ProcId) ≠ some 1 := fun heq => hlive.2.ne' (Option.some.inj heq)
  have hnew : s.allocPid.procAt (some s.nextPid) = ⟨toPid s.nextPid, 0, 0, false, ∅⟩ :=
    Function.update_self _ _ _
  rw [procAt_modifyProc, if_neg hne, hnew] at hg hsid
  obtain ⟨hinv, hc⟩ := reachable_inv hs
  have hg' : s.groups.lookup 0 = some g := hg
  have hsid' : (s.groupAt g).sid = 0 := hsid.symm
  obtain ⟨ss, hss, -⟩ := hinv.groupJoined 0 g hg'
  rw [hsid', hc.session] at hss
  cases hss

end ProcTables

end Ilobilix.Scheduler
