import Ilobilix.Fs.Vfs.Create

/-!
# What a step does

`Effect` lists what an operation that succeeds does to the state. Everything that is kept by all
operations is then shown once for each effect. `Tidy` is such an invariant, of the names of the
dentries and of the places of the mounts.
-/

namespace Ilobilix.Fs

open Outcome

/-! ## Normal paths -/

/-- A name that can stand between two slashes. -/
def Proper (name : String) : Prop := name ≠ "" ∧ name ≠ "." ∧ name ≠ ".." ∧ '/' ∉ name.toList

namespace PathName

def names : PathName → List String
  | empty => []
  | absolute names | relative _ names => names

/-- What cwalk promises of the names of a path. -/
def Normal (path : PathName) : Prop := ∀ name ∈ path.names, Proper name

theorem mem_names_of_segments {path : PathName} {name : String} (h : .name name ∈ path.segments) :
    name ∈ path.names := by
  cases path with
  | empty => cases h
  | absolute _ => simpa [segments, names] using h
  | relative _ _ => simpa [segments, names] using h

end PathName

namespace Vfs

variable {s s' : Vfs} {fuel : ℕ}

/-- The paths that an operation makes or removes an entry at are normal. -/
def Op.Normal : Op → Prop
  | .create _ path _ _ | .symlink _ path _ | .link _ path _ _ _ | .unlink _ path => path.Normal
  | _ => True

/-- Where an operation makes an entry. -/
def Op.makes : Op → Option (Option Path × PathName)
  | .create parent path _ _ | .symlink parent path _ | .link parent path _ _ _ => some (parent, path)
  | _ => none

/-! ## Effects -/

/-- An entry that is removed, with the dentry `t` that was found under the path. -/
structure Removed (s : Vfs) (fuel : ℕ) (parent : Option Path) (path : PathName) where
  res : ResolveRes
  d : DentryId
  t : DentryId
  found : s.resolve fuel parent path = pure res
  checked : s.checkUnlink res.target = pure ()
  target : res.target.dentry = some t
  dentry : res.parent.dentry = some d
  entry : (s.dentryAt d).children.lookup path.basename ≠ none

/-- The state without the entry. -/
def Removed.state {parent : Option Path} {path : PathName} (r : s.Removed fuel parent path) : Vfs :=
  (s.setNlink (s.dentryAt r.t).inode (s.nlinkAt (s.dentryAt r.t).inode - 1)).detach r.d path.basename

/-- What an operation does when it succeeds. -/
inductive Effect (s : Vfs) (fuel : ℕ) : Op → Vfs → Prop
  | held (op : Op) (held : List Path) (hheld : ∀ p ∈ held, p.Valid s) :
      Effect s fuel op { s with held := held }
  | make (op : Op) (parent : Option Path) (path : PathName) (q : Path) (t : Vfs)
      (hop : op.makes = some (parent, path)) (hparent : ∀ p ∈ parent, p.Valid s)
      (made : s.Made fuel parent path q t) : Effect s fuel op (t.hold q)
  | unlink (parent : Option Path) (path : PathName) (hparent : ∀ p ∈ parent, p.Valid s)
      (removed : s.Removed fuel parent path) : Effect s fuel (.unlink parent path) removed.state
  | mountTmpfs (source target : PathName) (fstype : String) (p : Path) (on : DentryId)
      (hp : p.Valid s) (hon : p.dentry = some on) (hdir : (s.dentryAt on).type = sIfdir) :
      Effect s fuel (.mount source target fstype) (s.addRoot.addMount s.dentries p on)
  | mountDevtmpfs (source target : PathName) (fstype : String) (p : Path) (on : DentryId)
      (hp : p.Valid s) (hon : p.dentry = some on) (hdir : (s.dentryAt on).type = sIfdir) :
      Effect s fuel (.mount source target fstype) (s.addMount devtmpfsRoot p on)
  | release (d : DentryId) (hd : ¬ s.Referenced d) : Effect s fuel (.release d) (s.release d)

namespace WellFormed

/-- The entry that `link` makes has the inode of the target that `resolve` found, and no text. The
target is no directory, and if it is a symbolic link to follow, it could be reduced. -/
theorem linked_made (h : s.WellFormed) {parent : Option Path} {src : PathName}
    {tgtparent : Option Path} {target : PathName} {followLinks : Bool} {q : Path}
    (htgtparent : ∀ p ∈ tgtparent, p.Valid s)
    (hlink : s.link fuel parent src tgtparent target followLinks = pure (q, s')) :
    ∃ (m : s.Made fuel parent src q s') (res : ResolveRes) (t : DentryId),
      s.resolve fuel tgtparent target = pure res ∧ res.target.dentry = some t ∧
      (s.dentryAt t).type ≠ sIfdir ∧
      (followLinks = true → (s.dentryAt t).type = sIflnk →
        ∃ r, s.reduce fuel res.parent res.target symloopMax = pure r) ∧
      m.inode = (s.dentryAt t).inode ∧ m.stMode = (s.dentryAt t).stMode ∧ m.symlinkedTo = .empty := by
  obtain ⟨rp, hrp, hlink⟩ := bind_eq_pure.mp hlink
  obtain ⟨tp, htp, hlink⟩ := bind_eq_pure.mp hlink
  obtain ⟨res, hres, htp⟩ := bind_eq_pure.mp htp
  have hvalid := ((h.resolve_valid htgtparent target).of_eq hres).2
  rcases ht : res.target.dentry with _ | t
  · rw [ht] at htp
    exact absurd htp stop_ne_pure
  rw [ht, derefDentry, Outcome.pure_bind] at htp
  have hfollowed : tp = res.target ∧ (followLinks = true → (s.dentryAt t).type = sIflnk →
      ∃ r, s.reduce fuel res.parent res.target symloopMax = pure r) := by
    by_cases hlnk : followLinks = true ∧ (s.dentryAt t).type = sIflnk
    · rw [if_pos hlnk] at htp
      obtain ⟨r, hr, htp⟩ := bind_eq_pure.mp htp
      cases htp
      exact ⟨rfl, fun _ _ => ⟨r, hr⟩⟩
    · rw [if_neg hlnk] at htp
      cases htp
      exact ⟨rfl, fun hfollow htype => absurd ⟨hfollow, htype⟩ hlnk⟩
  obtain ⟨rfl, hreduce⟩ := hfollowed
  rw [ht] at hlink
  change (if (s.dentryAt t).type = sIfdir then _ else _) = _ at hlink
  split at hlink
  · exact absurd hlink throw_ne_pure
  · split at hlink
    · exact absurd hlink throw_ne_pure
    · obtain ⟨m, hinode, hstMode, hsymlinkedTo⟩ :=
        made_of_enter (.old res.target t hvalid ht) (bind_eq_pure.mpr ⟨rp, hrp, hlink⟩)
      exact ⟨m, res, t, hres, ht, ‹_›, hreduce, hinode, hstMode, hsymlinkedTo⟩

theorem removed_of_unlink {parent : Option Path} {path : PathName}
    (hunlink : s.unlink fuel parent path = pure s') :
    ∃ r : s.Removed fuel parent path, s' = r.state := by
  obtain ⟨res, hres, hunlink⟩ := bind_eq_pure.mp hunlink
  obtain ⟨_, hcheck, hunlink⟩ := bind_eq_pure.mp hunlink
  rcases ht : res.target.dentry with _ | t
  · rw [ht] at hunlink
    exact absurd hunlink stop_ne_pure
  · rw [ht] at hunlink
    rcases hd : res.parent.dentry with _ | d
    · rw [hd] at hunlink
      exact absurd hunlink stop_ne_pure
    · rw [hd] at hunlink
      change (if (s.dentryAt d).children.lookup path.basename = none then _ else _) = _ at hunlink
      split at hunlink
      · exact absurd hunlink stop_ne_pure
      · cases hunlink
        exact ⟨⟨res, d, t, hres, hcheck, ht, hd, ‹_›⟩, rfl⟩

/-- The new mount is on the directory that `resolve` found. -/
theorem mounted_of_mount {source target : PathName} {fstype : String}
    (hmount : s.mount fuel source target fstype = pure s') :
    ∃ (res : ResolveRes) (on : DentryId), s.resolve fuel (some s.root) target = pure res ∧
      res.target.dentry = some on ∧ (s.dentryAt on).type = sIfdir ∧
      (s' = s.addRoot.addMount s.dentries res.target on ∨
        s' = s.addMount devtmpfsRoot res.target on) := by
  unfold mount at hmount
  split at hmount
  · exact absurd hmount throw_ne_pure
  · obtain ⟨_, -, hmount⟩ := bind_eq_pure.mp hmount
    obtain ⟨p, hp, hmount⟩ := bind_eq_pure.mp hmount
    obtain ⟨res, hres, hp⟩ := bind_eq_pure.mp hp
    cases hp
    rcases hon : res.target.dentry with _ | on
    · rw [hon] at hmount
      exact absurd hmount stop_ne_pure
    · rw [hon] at hmount
      change (if (s.dentryAt on).type ≠ sIfdir then _ else _) = _ at hmount
      split at hmount
      · exact absurd hmount throw_ne_pure
      · refine ⟨res, on, hres, hon, not_not.mp ‹_›, ?_⟩
        split at hmount
        · cases hmount
          exact .inl rfl
        · cases hmount
          exact .inr rfl

theorem mount_effect (h : s.WellFormed) {source target : PathName} {fstype : String}
    (hmount : s.mount fuel source target fstype = pure s') :
    s.Effect fuel (.mount source target fstype) s' := by
  obtain ⟨res, on, hres, hon, hdir, rfl | rfl⟩ := mounted_of_mount hmount
  all_goals
    have hvalid := ((h.resolve_valid (by rintro _ ⟨⟩; exact h.root_valid) target).of_eq hres).2
  · exact .mountTmpfs source target fstype res.target on hvalid hon hdir
  · exact .mountDevtmpfs source target fstype res.target on hvalid hon hdir

/-- A step has one of the effects. -/
theorem effect (h : s.WellFormed) {op : Op} (henabled : op.Enabled s)
    (hexec : s.exec fuel op = pure s') : s.Effect fuel op s' := by
  cases op with
  | lookup parent path follow =>
      have hp := h.held_parent henabled
      obtain ⟨p, hlookup, hexec⟩ := bind_eq_pure.mp hexec
      cases hexec
      refine .held _ _ fun q hq => ?_
      obtain rfl | hq := List.mem_cons.mp hq
      · obtain ⟨res, hres, hlookup⟩ := bind_eq_pure.mp hlookup
        obtain ⟨hparent, htarget⟩ := (h.closed.resolve fuel hp path).of_eq hres
        split at hlookup
        · exact (h.closed.reduce fuel hparent htarget symloopMax).of_eq hlookup
        · cases hlookup
          exact htarget
      · exact h.held_valid q hq
  | create parent path mode dev =>
      obtain ⟨⟨q, t⟩, hcreate, hexec⟩ := bind_eq_pure.mp hexec
      cases hexec
      have hmake : (Make.create mode dev).run s fuel parent path = pure (q, t) := hcreate
      obtain ⟨made⟩ := Make.made hmake
      exact .make _ parent path q t rfl (h.held_parent henabled) made
  | symlink parent src target =>
      obtain ⟨⟨q, t⟩, hsymlink, hexec⟩ := bind_eq_pure.mp hexec
      cases hexec
      have hmake : (Make.symlink target).run s fuel parent src = pure (q, t) := hsymlink
      obtain ⟨made⟩ := Make.made hmake
      exact .make _ parent src q t rfl (h.held_parent henabled) made
  | link parent src tgtparent target followLinks =>
      obtain ⟨⟨q, t⟩, hlink, hexec⟩ := bind_eq_pure.mp hexec
      cases hexec
      obtain ⟨made, -⟩ := h.linked_made (h.held_parent henabled.2) hlink
      exact .make _ parent src q t rfl (h.held_parent henabled.1) made
  | unlink parent path =>
      obtain ⟨removed, rfl⟩ := removed_of_unlink hexec
      exact .unlink parent path (h.held_parent henabled) removed
  | mount source target fstype => exact h.mount_effect hexec
  | close p =>
      cases hexec
      exact .held _ _ fun q hq => h.held_valid q (List.mem_of_mem_erase hq)
  | release d =>
      cases hexec
      exact .release d henabled

end WellFormed

/-! ## Names and mount points -/

/-- A dentry is entered under its own name, every mount is listed where it is mounted, and mounts are
directories on directories. -/
structure Tidy (s : Vfs) : Prop where
  child_name : ∀ d n c, (s.dentryAt d).children.lookup n = some c → (s.dentryAt c).name = n
  listed : ∀ m < s.mounts, ∀ k d, (s.mountAt m).mountedOn = some ⟨k, some d⟩ →
    m ∈ (s.dentryAt d).childMounts
  on_dir : ∀ m < s.mounts, ∀ k d, (s.mountAt m).mountedOn = some ⟨k, some d⟩ →
    (s.dentryAt d).type = sIfdir
  root_dir : ∀ m < s.mounts, (s.dentryAt (s.mountAt m).root).type = sIfdir
  absolute_dir : (s.dentryAt absoluteRoot).type = sIfdir
  devtmpfs_dir : (s.dentryAt devtmpfsRoot).type = sIfdir

theorem statType_sIfdir : statType sIfdir = sIfdir := by decide

namespace Tidy

/-- The mounts and what is known of the old dentries stay, and entries are only taken away. -/
theorem of_same (ht : s.Tidy) (h : s.WellFormed) {s' : Vfs} (hmountAt : s'.mountAt = s.mountAt)
    (hmounts : s'.mounts = s.mounts)
    (hname : ∀ d < s.dentries, (s'.dentryAt d).name = (s.dentryAt d).name)
    (htype : ∀ d < s.dentries, (s'.dentryAt d).type = (s.dentryAt d).type)
    (hchildMounts : ∀ d < s.dentries, (s'.dentryAt d).childMounts = (s.dentryAt d).childMounts)
    (hchild : ∀ d n c, (s'.dentryAt d).children.lookup n = some c →
      (s'.dentryAt c).name = n ∨ (s.dentryAt d).children.lookup n = some c) : s'.Tidy := by
  have hon : ∀ m < s.mounts, ∀ k d, (s.mountAt m).mountedOn = some ⟨k, some d⟩ → d < s.dentries := by
    intro m hm k d hd
    by_cases h0 : m = 0
    · rw [h0, h.first_mount] at hd
      cases hd
      exact h.absoluteRoot_lt
    · obtain ⟨_, -, _, hlt, hd', -⟩ := h.mounted_on m hm h0
      rw [hd] at hd'
      cases hd'
      exact hlt
  refine
    { child_name := fun d n c hc => ?_
      listed := fun m hm k d hd => ?_
      on_dir := fun m hm k d hd => ?_
      root_dir := fun m hm => ?_
      absolute_dir := (htype _ h.absoluteRoot_lt).trans ht.absolute_dir
      devtmpfs_dir := (htype _ h.dentries_pos).trans ht.devtmpfs_dir }
  · obtain hc' | hc' := hchild d n c hc
    · exact hc'
    · rw [hname c (h.child_lt d n c hc'), ht.child_name d n c hc']
  · rw [hmountAt] at hd
    rw [hmounts] at hm
    rw [hchildMounts d (hon m hm k d hd)]
    exact ht.listed m hm k d hd
  · rw [hmountAt] at hd
    rw [hmounts] at hm
    rw [htype d (hon m hm k d hd), ht.on_dir m hm k d hd]
  · rw [hmounts] at hm
    rw [hmountAt, htype _ (h.root_lt hm), ht.root_dir m hm]

theorem made (ht : s.Tidy) (h : s.WellFormed) {parent : Option Path} {path : PathName} {q : Path}
    (hparent : ∀ p ∈ parent, p.Valid s) (m : s.Made fuel parent path q s') : s'.Tidy := by
  have hold : ∀ d < s.dentries, (s'.dentryAt d).name = (s.dentryAt d).name ∧
      (s'.dentryAt d).stMode = (s.dentryAt d).stMode ∧
      (s'.dentryAt d).childMounts = (s.dentryAt d).childMounts := by
    intro d hd
    rw [m.dentryAt_eq h hparent, if_neg hd.ne]
    split
    · subst d
      exact ⟨rfl, rfl, rfl⟩
    · exact ⟨rfl, rfl, rfl⟩
  refine ht.of_same h (by rw [m.state]; rfl) (by rw [m.state]; rfl) (fun d hd => (hold d hd).1)
    (fun d hd => by rw [Dentry.type, (hold d hd).2.1, Dentry.type]) (fun d hd => (hold d hd).2.2)
    fun d n c hc => ?_
  obtain ⟨-, rfl, rfl⟩ | ⟨-, hc⟩ := m.lookup_cases h hparent hc
  · left
    rw [m.dentryAt_eq h hparent, if_neg (m.d_lt h hparent).ne', if_pos rfl]
  · exact .inr hc

theorem detach (ht : s.Tidy) (h : s.WellFormed) (d : DentryId) (name : String) (inode : InodeId)
    (nlink : ℕ) : ((s.setNlink inode nlink).detach d name).Tidy :=
  ht.of_same h rfl rfl (fun e _ => by rw [WellFormed.dentryAt_detach]; rfl)
    (fun e _ => by rw [WellFormed.dentryAt_detach]; rfl)
    (fun e _ => by rw [WellFormed.dentryAt_detach]; rfl)
    fun e n c hc => .inr (WellFormed.lookup_detach.mp hc).2

theorem addRoot (ht : s.Tidy) (h : s.WellFormed) : s.addRoot.Tidy := by
  have hold : ∀ d < s.dentries, s.addRoot.dentryAt d = s.dentryAt d := fun d hd => by
    rw [WellFormed.dentryAt_addRoot, if_neg hd.ne]
  exact ht.of_same h rfl rfl (fun d hd => by rw [hold d hd]) (fun d hd => by rw [hold d hd])
    (fun d hd => by rw [hold d hd]) fun d n c hc => .inr (WellFormed.lookup_addRoot hc)

theorem addMount (ht : s.Tidy) {root on : DentryId} {p : Path} (hon : p.dentry = some on)
    (hdir : (s.dentryAt on).type = sIfdir) (hroot : (s.dentryAt root).type = sIfdir) :
    (s.addMount root p on).Tidy := by
  have htype : ∀ d, ((s.addMount root p on).dentryAt d).type = (s.dentryAt d).type := fun d => by
    rw [WellFormed.dentryAt_addMount]
    rfl
  have hmounts : (s.addMount root p on).mounts = s.mounts + 1 := rfl
  refine
    { child_name := fun d n c hc => ?_
      listed := fun m hm k d hd => ?_
      on_dir := fun m hm k d hd => ?_
      root_dir := fun m hm => ?_
      absolute_dir := (htype _).trans ht.absolute_dir
      devtmpfs_dir := (htype _).trans ht.devtmpfs_dir }
  · rw [WellFormed.dentryAt_addMount] at hc ⊢
    exact ht.child_name d n c hc
  · rw [WellFormed.dentryAt_addMount]
    dsimp only
    obtain hm | rfl := Nat.lt_succ_iff_lt_or_eq.mp (hmounts ▸ hm)
    · rw [WellFormed.mountAt_addMount_of_lt hm] at hd
      have hmem := ht.listed m hm k d hd
      split
      · exact List.mem_append_left _ hmem
      · exact hmem
    · rw [WellFormed.mountAt_addMount_self] at hd
      cases hd
      cases hon
      rw [if_pos rfl]
      exact List.mem_append_right _ (List.mem_singleton_self _)
  · rw [htype]
    obtain hm | rfl := Nat.lt_succ_iff_lt_or_eq.mp (hmounts ▸ hm)
    · rw [WellFormed.mountAt_addMount_of_lt hm] at hd
      exact ht.on_dir m hm k d hd
    · rw [WellFormed.mountAt_addMount_self] at hd
      cases hd
      cases hon
      exact hdir
  · rw [htype]
    obtain hm | rfl := Nat.lt_succ_iff_lt_or_eq.mp (hmounts ▸ hm)
    · rw [WellFormed.mountAt_addMount_of_lt hm]
      exact ht.root_dir m hm
    · rw [WellFormed.mountAt_addMount_self]
      exact hroot

theorem effect (ht : s.Tidy) (h : s.WellFormed) {op : Op} (he : s.Effect fuel op s') : s'.Tidy := by
  cases he with
  | held op held hheld => exact ⟨ht.1, ht.2, ht.3, ht.4, ht.5, ht.6⟩
  | make op parent path q t hop hparent made =>
      have htidy := ht.made h hparent made
      exact ⟨htidy.1, htidy.2, htidy.3, htidy.4, htidy.5, htidy.6⟩
  | unlink parent path hparent removed => exact ht.detach h _ _ _ _
  | mountTmpfs source target fstype p on hp hon hdir =>
      have hlt := (hp.dentry on hon).1
      refine (ht.addRoot h).addMount hon ?_ ?_
      · rw [WellFormed.dentryAt_addRoot, if_neg hlt.ne, hdir]
      · rw [WellFormed.dentryAt_addRoot, if_pos rfl]
        exact statType_sIfdir
  | mountDevtmpfs source target fstype p on hp hon hdir =>
      exact ht.addMount hon hdir ht.devtmpfs_dir
  | release d hd =>
      exact ht.of_same h rfl rfl (fun _ _ => rfl) (fun _ _ => rfl) (fun _ _ => rfl)
        fun e n c hc => .inr (WellFormed.lookup_release.mp hc).2

theorem boot (cdevs : List ℕ) : (boot cdevs).Tidy where
  child_name d n c hc := by
    have hnone : ((Vfs.boot cdevs).dentryAt d).children.lookup n = none := AList.lookup_empty n
    cases hnone.symm.trans hc
  listed m hm k d hd := by
    cases hd
    obtain rfl := Nat.lt_one_iff.mp hm
    exact List.mem_singleton_self _
  on_dir _ _ _ _ _ := statType_sIfdir
  root_dir _ _ := statType_sIfdir
  absolute_dir := statType_sIfdir
  devtmpfs_dir := statType_sIfdir

end Tidy

theorem reachable_tidy {cdevs : List ℕ} (h : (system cdevs).Reachable s) : s.Tidy := by
  refine h.invariant (I := Tidy) ?_ ?_
  · rintro s rfl
    exact .boot cdevs
  · rintro s op s' hs ht ⟨henabled, fuel, hexec⟩
    have hwf := reachable_wellFormed hs
    exact ht.effect hwf (hwf.effect henabled hexec)

/-! ## Proper names -/

/-- An entry is an old one, or has the last name of the path that it is made at. -/
theorem Effect.entry (h : s.WellFormed) {op : Op} (he : s.Effect fuel op s') {d c : DentryId}
    {n : String} (hc : (s'.dentryAt d).children.lookup n = some c) :
    (s.dentryAt d).children.lookup n = some c ∨
      ∃ parent path, op.makes = some (parent, path) ∧ .name n ∈ path.segments := by
  cases he with
  | held op held hheld => exact .inl hc
  | make op parent path q t hop hparent made =>
      obtain ⟨-, rfl, -⟩ | ⟨-, hc⟩ := made.lookup_cases h hparent hc
      · right
        refine ⟨parent, path, hop, ?_⟩
        rw [(made.segments_eq h hparent).1]
        exact List.mem_append_right _ (List.mem_singleton_self _)
      · exact .inl hc
  | unlink parent path hparent removed => exact .inl (WellFormed.lookup_detach.mp hc).2
  | mountTmpfs source target fstype p on hp hon hdir =>
      rw [WellFormed.dentryAt_addMount] at hc
      exact .inl (WellFormed.lookup_addRoot hc)
  | mountDevtmpfs source target fstype p on hp hon hdir =>
      rw [WellFormed.dentryAt_addMount] at hc
      exact .inl hc
  | release e he => exact .inl (WellFormed.lookup_release.mp hc).2

theorem Op.Normal.path {op : Op} (hop : op.Normal) {parent : Option Path} {path : PathName}
    (hmakes : op.makes = some (parent, path)) : path.Normal := by
  cases op <;> cases hmakes <;> exact hop

/-- With normal paths only, all names are proper. -/
theorem reachable_proper {cdevs : List ℕ}
    (h : ((system cdevs).restrict fun _ op => op.Normal).Reachable s) :
    ∀ d n c, (s.dentryAt d).children.lookup n = some c → Proper n := by
  refine h.invariant (I := fun s => ∀ d n c, (s.dentryAt d).children.lookup n = some c → Proper n) ?_ ?_
  · rintro s rfl d n c hc
    have hnone : ((boot cdevs).dentryAt d).children.lookup n = none := AList.lookup_empty n
    cases hnone.symm.trans hc
  · rintro s op s' hs ih ⟨hnormal, henabled, fuel, hexec⟩ d n c hc
    have hwf := reachable_wellFormed hs.of_restrict
    obtain hc | ⟨parent, path, hmakes, hn⟩ := (hwf.effect henabled hexec).entry hwf hc
    · exact ih d n c hc
    · exact (hnormal.path hmakes) n (PathName.mem_names_of_segments hn)

/-- Operations with normal paths that can be done in any state, one after the other. -/
theorem normal_of_foldlM {cdevs : List ℕ} (fuel : ℕ) (ops : List Op)
    (hops : ∀ op ∈ ops, op.Normal ∧ ∀ s, op.Enabled s)
    (hs : ((system cdevs).restrict fun _ op => op.Normal).Reachable s)
    (h : ops.foldlM (fun s op => s.exec fuel op) s = pure s') :
    ((system cdevs).restrict fun _ op => op.Normal).Reachable s' := by
  induction ops generalizing s with
  | nil => exact pure_inj h ▸ hs
  | cons op ops ih =>
      rw [List.foldlM_cons] at h
      obtain ⟨t, ht, h⟩ := bind_eq_pure.mp h
      obtain ⟨hnormal, henabled⟩ := hops op (List.mem_cons_self ..)
      exact ih (fun o ho => hops o (List.mem_cons_of_mem op ho))
        (hs.step ⟨hnormal, henabled s, fuel, ht⟩) h

end Vfs

end Ilobilix.Fs
