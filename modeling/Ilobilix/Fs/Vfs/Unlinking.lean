import Ilobilix.Fs.Vfs.Links
import Ilobilix.Fs.Vfs.Avoiding

/-!
# What `unlink` removes

`unlink` finds its target with `resolve` and removes the last name of the path from the parent that
`resolve` reports. For a path without a last name there is no such entry, and the `bug_on` fires. For
a path with one the entry is there, and without it the path is not found, unless a symbolic link on
the way was reduced through the entry itself: then the link is invalid. `Unlinks` is what the call
should do, and `Removable` says for which paths it does.
-/

namespace Ilobilix.Fs

open Outcome

namespace Vfs

variable {s s' : Vfs} {fuel : ℕ}

/-- The lookup of a child that gives up at the entry of this name in `d`. -/
def avoidingEntry (s : Vfs) (d : DentryId) (name : String) (p : Path) (n : String) : Outcome Path :=
  if p.dentry = some d ∧ n = name then stop .fuel else s.child p n

/-- The lookup of a child once the entry is gone. -/
def missingEntry (s : Vfs) (d : DentryId) (name : String) (p : Path) (n : String) : Outcome Path :=
  if p.dentry = some d ∧ n = name then throw .notFound else s.child p n

/-- Without passing through the entry, `resolve` returns `r`. -/
def ReturnsWithout (s : Vfs) (d : DentryId) (name : String) (parent : Option Path) (path : PathName)
    (r : Except VfsError ResolveRes) : Prop :=
  ∃ fuel, s.resolveBy (s.avoidingEntry d name) (s.avoidingEntry d name) fuel parent path = .ok r

/-- `resolve` once the entry is gone, but for the symbolic links on the way: a reduction that comes to
the entry gives up. -/
def resolveMissing (s : Vfs) (d : DentryId) (name : String) (fuel : ℕ) (parent : Option Path)
    (path : PathName) : Outcome ResolveRes :=
  s.resolveWithBy (s.missingEntry d name) (s.missingEntry d name)
    (s.nestedReduceBy (s.avoidingEntry d name) fuel) parent path

/-- Before it comes to the entry itself, the walk along the path follows a symbolic link that is
reduced through the entry. -/
def LinksThrough (s : Vfs) (d : DentryId) (name : String) (parent : Option Path) (path : PathName) :
    Prop :=
  ∀ fuel, s.resolveMissing d name fuel parent path = stop .fuel

/-- The state that a call of `unlink` leaves behind: a call that returns an error has changed
nothing. -/
def afterUnlink (s : Vfs) (fuel : ℕ) (parent : Option Path) (path : PathName) : Vfs :=
  match s.unlink fuel parent path with
  | .ok (.ok s') => s'
  | _ => s

/-- What `unlink` of a path should do. -/
structure Unlinks (s : Vfs) (parent : Option Path) (path : PathName) : Prop where
  no_bug : ∀ fuel, s.unlink fuel parent path ≠ stop .bug
  failed : ∀ fuel e, s.unlink fuel parent path = throw e → s.afterUnlink fuel parent path = s
  gone : ∀ fuel s', s.unlink fuel parent path = pure s' →
    Returns (fun fuel => s'.resolve fuel parent path) (.error .notFound)
  kept : ∀ fuel s' res d, s.unlink fuel parent path = pure s' →
    s.resolve fuel parent path = pure res → res.parent.dentry = some d →
    ∀ parent' path' r, (∀ p ∈ parent', p ∈ s.held) →
      s.ReturnsWithout d path.basename parent' path' r →
      Returns (fun fuel => s.resolve fuel parent' path') r ∧
        Returns (fun fuel => s'.resolve fuel parent' path') r

/-- If the checks of `unlink` pass, the path has a last name, and no symbolic link on it is reduced
through the entry. -/
def Removable (s : Vfs) (parent : Option Path) (path : PathName) : Prop :=
  ∀ fuel res d, s.resolve fuel parent path = pure res → s.checkUnlink res.target = pure () →
    res.parent.dentry = some d →
    (∃ init name, path.segments = init ++ [.name name]) ∧
      ¬ s.LinksThrough d path.basename parent path

/-! ## The state without the entry -/

theorem detached_sameWays (s : Vfs) (d : DentryId) (name : String) (i : InodeId) (nlink : ℕ) :
    SameWays s ((s.setNlink i nlink).detach d name) where
  root := rfl
  dotdot p _ := by
    have hparent : ∀ e, (((s.setNlink i nlink).detach d name).dentryAt e).parent =
        (s.dentryAt e).parent := fun e => by rw [WellFormed.dentryAt_detach]; rfl
    have hresolveMounts : ∀ q, ((s.setNlink i nlink).detach d name).resolveMounts q =
        s.resolveMounts q := resolveMounts_congr rfl rfl
    unfold dotdot
    rw [hresolveMounts]
    refine congrArg _ (funext fun q => ?_)
    rcases hd : q.dentry with _ | e
    · simp only [derefDentry, Outcome.stop_bind]
    · simp only [derefDentry, Outcome.pure_bind, hparent, hresolveMounts]
  type e _ := by rw [WellFormed.dentryAt_detach]; rfl
  symlinkedTo e _ := by rw [WellFormed.dentryAt_detach]; rfl

/-- The new state looks a child up as the old one does once the entry is gone. -/
theorem child_detach {d : DentryId} {name : String} {i : InodeId} {nlink : ℕ} {p : Path}
    (hp : p.Valid s) (n : String) :
    ((s.setNlink i nlink).detach d name).child p n = s.missingEntry d name p n := by
  set s' := (s.setNlink i nlink).detach d name with hs'
  obtain ⟨m, -, hm⟩ := hp.mnt
  have henter : ∀ n mnt c, s'.enterMounts n mnt c = s.enterMounts n mnt c :=
    enterMounts_congr rfl fun e => by rw [hs', WellFormed.dentryAt_detach]; rfl
  have hlookup : ∀ e n c, (s'.dentryAt e).children.lookup n = some c ↔
      (e ≠ d ∨ n ≠ name) ∧ (s.dentryAt e).children.lookup n = some c := fun _ _ _ =>
    WellFormed.lookup_detach
  rcases hd : p.dentry with _ | e
  · simp only [missingEntry, child, hd, derefDentry, Outcome.stop_bind]
    rfl
  by_cases hentry : e = d ∧ n = name
  · obtain ⟨rfl, rfl⟩ := hentry
    have hnone : (s'.dentryAt e).children.lookup n = none := by
      refine Option.eq_none_iff_forall_ne_some.mpr fun c hc => ?_
      exact ((hlookup e n c).mp hc).1.elim (fun h => h rfl) fun h => h rfl
    rw [missingEntry, if_pos ⟨hd, rfl⟩]
    exact WellFormed.child_eq_throw (s := s') ⟨hp.mnt, hp.dentry⟩ hd hnone
  · have hne : ¬ (p.dentry = some d ∧ n = name) := by
      rintro ⟨hpd, hn⟩
      exact hentry ⟨Option.some.inj (hd.symm.trans hpd), hn⟩
    have hsame : (s'.dentryAt e).children.lookup n = (s.dentryAt e).children.lookup n := by
      refine Option.ext fun c => ?_
      rw [hlookup]
      exact and_iff_right (not_and_or.mp hentry)
    rw [missingEntry, if_neg hne]
    simp only [child, hd, derefDentry, Outcome.pure_bind, hsame]
    cases (s.dentryAt e).children.lookup n with
    | some c => exact henter s.mounts p.mnt c
    | none => simp only [hm, derefMount, Outcome.pure_bind]

section

variable (h : s.WellFormed) (d : DentryId) (name : String)
include h

theorem WellFormed.finds_of_avoidingEntry :
    s.Finds (fun _ => True) (s.avoidingEntry d name) s.child := by
  intro p n hp
  by_cases hentry : p.dentry = some d ∧ n = name
  · exact .inl ⟨if_pos hentry, trivial⟩
  · rw [avoidingEntry, if_neg hentry]
    exact h.finds_child _ p n hp

/-- Where the one lookup gives up, the other finds nothing. -/
theorem WellFormed.finds_missingEntry {F : VfsError → Prop} (hF : F .notFound) :
    s.Finds (Fails F Path) (s.avoidingEntry d name) (s.missingEntry d name) := by
  intro p n hp
  by_cases hentry : p.dentry = some d ∧ n = name
  · rw [missingEntry, if_pos hentry]
    exact .inl ⟨if_pos hentry, .inr ⟨_, rfl, hF⟩⟩
  · rw [avoidingEntry, missingEntry, if_neg hentry, if_neg hentry]
    exact h.finds_child _ p n hp

theorem WellFormed.finds_detached (i : InodeId) (nlink : ℕ) (H : Outcome Path → Prop) :
    s.Finds H (s.missingEntry d name) ((s.setNlink i nlink).detach d name).child := by
  intro p n hp
  rw [child_detach hp n]
  exact .ite (fun _ => .of_throw _) fun _ => h.finds_child H p n hp

/-- A lookup that gives up at the entry, and the lookup in the state without it. -/
theorem WellFormed.finds_avoidingEntry_detached (i : InodeId) (nlink : ℕ) :
    s.Finds (Fails (fun _ => True) Path) (s.avoidingEntry d name)
      ((s.setNlink i nlink).detach d name).child := by
  intro p n hp
  rw [child_detach hp n]
  exact h.finds_missingEntry d name trivial p n hp

end

/-! ## Where the entry is -/

variable {parent : Option Path} {path : PathName}

theorem segments_of_name {init : List Segment} {name : String}
    (hsegments : path.segments = init ++ [.name name]) :
    path.segments = path.dirname.segments ++ [.name path.basename] := by
  obtain ⟨n, hn⟩ | ⟨hsplit, -⟩ := path.segments_cases
  · have hmem : Segment.name name ∈ List.replicate n Segment.dotdot := by
      rw [← hn, hsegments]
      exact List.mem_append_right _ (List.mem_singleton_self _)
    cases List.eq_of_mem_replicate hmem
  · exact hsplit

/-- A path with a last name has its entry in the parent that `resolve` reports. -/
theorem WellFormed.entry_of_name (h : s.WellFormed) (hparent : ∀ p ∈ parent, p.Valid s)
    (hsegments : path.segments = path.dirname.segments ++ [.name path.basename]) {res : ResolveRes}
    (hfound : s.resolve fuel parent path = pure res) :
    ∃ d c, res.parent.dentry = some d ∧ (s.dentryAt d).children.lookup path.basename = some c := by
  have hv := ((h.resolve_valid hparent path).of_eq hfound).1
  rw [h.resolve_eq hparent fuel (by simp [hsegments]), hsegments] at hfound
  obtain ⟨d, c, hd, hlookup, -⟩ := h.of_child_eq hv (walk_name _ _ hfound)
  exact ⟨d, c, hd, hlookup⟩

namespace Removed

variable (h : s.WellFormed) (hparent : ∀ p ∈ parent, p.Valid s) (r : s.Removed fuel parent path)
include h hparent

/-- Once the entry is gone, `resolve` does what `resolveMissing` does; where that gives up, a link is
invalid. -/
theorem resolve_upTo (f : ℕ) :
    UpTo (Fails (· = .invalidSymlink) ResolveRes) (fun q => q.parent.Valid s ∧ q.target.Valid s)
      (s.resolveMissing r.d path.basename f parent path) (r.state.resolve f parent path) := by
  have hways : SameWays s r.state := detached_sameWays s r.d path.basename _ _
  have hmissing : s.Finds (Fails (· = .invalidSymlink) Path) (s.missingEntry r.d path.basename)
      r.state.child := h.finds_detached r.d path.basename _ _ _
  have havoiding : s.Finds (Fails (fun _ => True) Path) (s.avoidingEntry r.d path.basename)
      r.state.child := h.finds_avoidingEntry_detached r.d path.basename _ _
  have hreduce := hways.nestedReduce h caught_fails havoiding f
  have hresolve := hways.resolveWith h (firstPart_fails (· = .invalidSymlink)) hmissing hmissing
    hreduce hparent path
  rwa [nestedReduceBy_child, resolveWithBy_child] at hresolve

/-- `resolve` comes to the entry: at the latest with the last name. -/
theorem gives_up (hsegments : path.segments = path.dirname.segments ++ [.name path.basename]) (f : ℕ) :
    s.resolveBy (s.avoidingEntry r.d path.basename) (s.avoidingEntry r.d path.basename) f parent
      path = stop .fuel := by
  by_contra hne
  have hfinds := h.finds_of_avoidingEntry r.d path.basename
  obtain ⟨hgave, -⟩ | ⟨hsame, -⟩ :=
    (SameWays.refl s).resolve h caught_true hfinds hfinds f hparent path
  · exact hne hgave
  · rw [resolveBy_child] at hsame
    have hmono := resolve_fuelMono s parent path
    have hf : s.resolve f parent path = pure r.res := by
      rw [← hmono.le (Nat.le_max_left f fuel) (hsame ▸ hne),
        hmono.le (Nat.le_max_right f fuel) (r.found ▸ pure_ne_stop), r.found]
    rw [hf, resolveBy_snoc hsegments (WellFormed.mnt_ne_none (h.closed.start hparent path))] at hsame
    obtain ⟨p, -, hsame⟩ := bind_eq_pure.mp hsame.symm
    obtain ⟨q, hq, hsame⟩ := bind_eq_pure.mp hsame
    have hp : p.dentry = some r.d := by
      rw [← r.dentry, ← pure_inj hsame]
    rw [avoidingEntry, if_pos ⟨hp, rfl⟩] at hq
    exact stop_ne_pure hq

/-- Without the entry, the path is not found if and only if no link leads through it before. -/
theorem gone_iff (hsegments : path.segments = path.dirname.segments ++ [.name path.basename]) :
    Returns (fun fuel => r.state.resolve fuel parent path) (.error .notFound) ↔
      ¬ s.LinksThrough r.d path.basename parent path := by
  constructor
  · rintro ⟨N, hN⟩ hthrough
    obtain ⟨-, hfuel | ⟨e, he, rfl⟩⟩ | ⟨heq, -⟩ := r.resolve_upTo h hparent N
    · cases hfuel.symm.trans (hN N le_rfl)
    · cases he.symm.trans (hN N le_rfl)
    · cases (heq.trans (hthrough N)).symm.trans (hN N le_rfl)
  · intro hthrough
    obtain ⟨f, hf⟩ := not_forall.mp hthrough
    have hfinds := h.finds_missingEntry r.d path.basename (F := (· = .notFound)) rfl
    have hreduce := (SameWays.refl s).nestedReduce h caught_true
      (h.finds_of_avoidingEntry r.d path.basename) f
    have hmissing := (SameWays.refl s).resolveWith h (firstPart_fails (· = .notFound)) hfinds hfinds
      (fun p q hp hq => (hreduce p q hp hq).left) hparent path
    have hgives := r.gives_up h hparent hsegments f
    -- where the run that avoids the entry gives up, the other finds nothing
    have hnone : s.resolveMissing r.d path.basename f parent path = throw .notFound := by
      obtain ⟨-, hfuel | ⟨e, he, rfl⟩⟩ | ⟨heq, -⟩ := hmissing
      · exact absurd hfuel hf
      · exact he
      · exact absurd (heq.trans hgives) hf
    obtain ⟨hfuel, -⟩ | ⟨heq, -⟩ := r.resolve_upTo h hparent f
    · exact absurd hfuel hf
    · exact (resolve_fuelMono r.state parent path).returns_iff.mpr ⟨f, heq.trans hnone⟩

omit hparent in
/-- What is resolved without the entry, is resolved to the same once it is gone. -/
theorem kept {parent' : Option Path} (hparent' : ∀ p ∈ parent', p.Valid s) {path' : PathName}
    {e : Except VfsError ResolveRes} (he : s.ReturnsWithout r.d path.basename parent' path' e) :
    Returns (fun fuel => s.resolve fuel parent' path') e ∧
      Returns (fun fuel => r.state.resolve fuel parent' path') e := by
  obtain ⟨f, hf⟩ := he
  have hold := (SameWays.refl s).resolve h caught_true (h.finds_of_avoidingEntry r.d path.basename)
    (h.finds_of_avoidingEntry r.d path.basename) f hparent' path'
  have havoiding : s.Finds (Fails (fun _ => True) Path) (s.avoidingEntry r.d path.basename)
      r.state.child := h.finds_avoidingEntry_detached r.d path.basename _ _
  have hways : SameWays s r.state := detached_sameWays s r.d path.basename _ _
  have hnew := hways.resolve h caught_fails havoiding havoiding f hparent' path'
  rw [resolveBy_child] at hold hnew
  exact ⟨(resolve_fuelMono s parent' path').returns_iff.mpr ⟨f, hold.ok_eq hf⟩,
    (resolve_fuelMono r.state parent' path').returns_iff.mpr ⟨f, hnew.ok_eq hf⟩⟩

end Removed

/-! ## When `unlink` does what it should -/

/-- With the checks passed, the `bug_on` fires if and only if the entry is not there. -/
theorem unlink_of_checked {res : ResolveRes} {d : DentryId}
    (hfound : s.resolve fuel parent path = pure res) (hcheck : s.checkUnlink res.target = pure ())
    (hd : res.parent.dentry = some d) :
    ((s.dentryAt d).children.lookup path.basename = none → s.unlink fuel parent path = stop .bug) ∧
      ((s.dentryAt d).children.lookup path.basename ≠ none →
        ∃ s', s.unlink fuel parent path = pure s') := by
  obtain ⟨target, htarget, -⟩ := bind_eq_pure.mp hcheck
  have hrun : s.unlink fuel parent path =
      if (s.dentryAt d).children.lookup path.basename = none then stop .bug
      else pure ((s.setNlink target.inode (s.nlinkAt target.inode - 1)).detach d path.basename) := by
    simp only [unlink, hfound, Outcome.pure_bind, hcheck, htarget, hd]
  rw [hrun]
  exact ⟨fun h => if_pos h, fun h => ⟨_, if_neg h⟩⟩

theorem derefDentry_ne_bug (d : Option DentryId) : s.derefDentry d ≠ stop .bug := by
  cases d <;> exact fun h => by cases h

theorem checkUnlink_ne_bug {p : Path} : s.checkUnlink p ≠ stop .bug := by
  intro h
  obtain h | ⟨target, -, h⟩ := bind_eq_stop.mp h
  · exact derefDentry_ne_bug _ h
  obtain h | ⟨mnt, -, h⟩ := bind_eq_stop.mp h
  · cases hm : p.mnt <;> rw [hm] at h <;> cases h
  · split at h
    · split at h
      · cases h
      · split at h <;> cases h
    · cases h

/-- A call in which the `bug_on` fires has found a path and passed the checks. -/
theorem WellFormed.checked_of_bug (h : s.WellFormed) (hparent : ∀ p ∈ parent, p.Valid s)
    (hbug : s.unlink fuel parent path = stop .bug) :
    ∃ res d, s.resolve fuel parent path = pure res ∧ s.checkUnlink res.target = pure () ∧
      res.parent.dentry = some d ∧ (s.dentryAt d).children.lookup path.basename = none := by
  obtain hbug | ⟨res, hres, hbug⟩ := bind_eq_stop.mp hbug
  · have hstop : Stop.bug = .fuel ∨ Stop.bug = .nullDentry :=
      (h.closed.resolve fuel hparent path).of_stop hbug
    simp at hstop
  obtain hbug | ⟨_, hcheck, hbug⟩ := bind_eq_stop.mp hbug
  · exact absurd hbug checkUnlink_ne_bug
  obtain hbug | ⟨target, htarget, hbug⟩ := bind_eq_stop.mp hbug
  · exact absurd hbug (derefDentry_ne_bug _)
  rcases hd : res.parent.dentry with _ | d
  · rw [hd] at hbug
    cases hbug
  · rw [hd] at hbug
    simp only at hbug
    split at hbug
    · exact ⟨res, d, hres, hcheck, hd, ‹_›⟩
    · cases hbug

/-- In every reachable state, `unlink` of a path does what it should, if and only if the path can be
removed. -/
theorem unlinks_iff {cdevs : List ℕ} (hs : ((system cdevs).restrict fun _ op => op.Normal).Reachable s)
    (hparent : ∀ p ∈ parent, p ∈ s.held) : s.Unlinks parent path ↔ s.Removable parent path := by
  have h := reachable_wellFormed hs.of_restrict
  have hvalid := h.held_parent hparent
  constructor
  · intro hu fuel res d hfound hcheck hd
    obtain ⟨hbug, hdone⟩ := unlink_of_checked hfound hcheck hd
    obtain ⟨n, hn⟩ | ⟨hsegments, -⟩ := path.segments_cases
    · -- without a last name there is nothing to remove
      refine absurd (hbug ?_) (hu.no_bug fuel)
      refine Option.eq_none_iff_forall_ne_some.mpr fun c hc => ?_
      exact PathName.not_proper_basename hn (reachable_proper hs d _ c hc)
    · refine ⟨⟨_, _, hsegments⟩, ?_⟩
      obtain ⟨d', c, hd', hlookup⟩ := h.entry_of_name hvalid hsegments hfound
      obtain rfl : d' = d := Option.some.inj (hd'.symm.trans hd)
      obtain ⟨s', hs'⟩ := hdone (by simp [hlookup])
      obtain ⟨r, rfl⟩ := WellFormed.removed_of_unlink hs'
      obtain rfl : r.d = d' := by
        rw [← Option.some_inj, ← r.dentry, pure_inj (r.found.symm.trans hfound), hd]
      exact (r.gone_iff h hvalid hsegments).mp (hu.gone fuel _ hs')
  · intro hr
    refine ⟨fun fuel hbug => ?_, fun fuel e he => ?_, fun fuel s' hs' => ?_,
      fun fuel s' res d hs' hfound hd parent' path' e hparent' he => ?_⟩
    · obtain ⟨res, d, hfound, hcheck, hd, hnone⟩ := h.checked_of_bug hvalid hbug
      obtain ⟨⟨init, name, hsegments⟩, -⟩ := hr fuel res d hfound hcheck hd
      obtain ⟨d', c, hd', hlookup⟩ := h.entry_of_name hvalid (segments_of_name hsegments) hfound
      obtain rfl : d' = d := Option.some.inj (hd'.symm.trans hd)
      cases hnone.symm.trans hlookup
    · unfold afterUnlink
      rw [he]
      rfl
    · obtain ⟨r, rfl⟩ := WellFormed.removed_of_unlink hs'
      obtain ⟨⟨init, name, hsegments⟩, hthrough⟩ := hr fuel r.res r.d r.found r.checked r.dentry
      exact (r.gone_iff h hvalid (segments_of_name hsegments)).mpr hthrough
    · obtain ⟨r, rfl⟩ := WellFormed.removed_of_unlink hs'
      obtain rfl : r.d = d := by
        rw [← Option.some_inj, ← r.dentry, pure_inj (r.found.symm.trans hfound), hd]
      exact r.kept h (h.held_parent hparent') he

/-- A file in the root directory can be removed. -/
theorem unlinks_file : ∃ s, ((system []).restrict fun _ op => op.Normal).Reachable s ∧
    s.Unlinks none (.absolute ["f"]) := by
  have hs : ((system []).restrict fun _ op => op.Normal).Reachable _ := normal_of_foldlM 0
    [.create none (.absolute ["f"]) 0o100644 0]
    (by simp [Op.Normal, PathName.Normal, PathName.names, Proper, Op.Enabled]) (.init rfl) rfl
  refine ⟨_, hs, (unlinks_iff hs (by rintro _ ⟨⟩)).mpr fun fuel res d hfound _ hd => ?_⟩
  cases hfound
  cases hd
  exact ⟨⟨[], "f", rfl⟩, fun hthrough => by cases hthrough 0⟩

/-- Nothing has been made yet, and the root directory is removed: the `bug_on` fires. And where the
link `/m` leads to the link `/l`, and that to `/`, the path `/m/l` is not found to be missing once `/l`
is removed through it, but to have an invalid link. -/
theorem unlink_not_unlinks :
    (∃ s, ((system []).restrict fun _ op => op.Normal).Reachable s ∧
      s.unlink 0 none (.absolute []) = stop .bug ∧ ¬ s.Unlinks none (.absolute [])) ∧
    ∃ s, ((system []).restrict fun _ op => op.Normal).Reachable s ∧
      ∃ s', s.unlink 1 none (.absolute ["m", "l"]) = pure s' ∧
        Returns (fun fuel => s'.resolve fuel none (.absolute ["m", "l"])) (.error .invalidSymlink) ∧
        ¬ s.Unlinks none (.absolute ["m", "l"]) := by
  constructor
  · exact ⟨_, .init rfl, rfl, fun h => h.no_bug 0 rfl⟩
  · have hs : ((system []).restrict fun _ op => op.Normal).Reachable _ := normal_of_foldlM 0
      [.symlink none (.absolute ["l"]) (.absolute []),
        .symlink none (.absolute ["m"]) (.relative 0 ["l"])]
      (by simp [Op.Normal, PathName.Normal, PathName.names, Proper, Op.Enabled]) (.init rfl) rfl
    refine ⟨_, hs, _, rfl, (resolve_fuelMono _ _ _).returns_iff.mpr ⟨1, rfl⟩, fun h => ?_⟩
    obtain ⟨N, hN⟩ := h.gone 1 _ rfl
    cases hN (N + 1) (Nat.le_succ N)

end Vfs

end Ilobilix.Fs
