import Ilobilix.Fs.Vfs.Steps
import Mathlib.Data.Set.Card

/-!
# Link counts

tmpfs counts the links of an inode, and the virtual file system keeps the dentries. `create`,
`symlink` and `link` add one link and one dentry, and `unlink` takes one of each away, so the count of
an inode is the number of its dentries in the tree. It stops being so where a dentry comes or goes
without its link: an entry is made in a directory that is no longer in the tree, or in the place of
another one, or a file is removed that has entries itself.

The last two need an entry under something that is no directory, which `create`, `symlink` and `link`
do not refuse.
-/

namespace Ilobilix.Fs

open Outcome

/-- A path that only goes up has no name of its own. -/
theorem PathName.not_proper_basename {path : PathName} {n : ℕ}
    (h : path.segments = List.replicate n .dotdot) : ¬ Proper path.basename := by
  have hname : ∀ x, Segment.name x ∉ path.segments := by
    intro x hx
    rw [h] at hx
    cases List.eq_of_mem_replicate hx
  cases path with
  | empty => exact fun hproper => hproper.1 rfl
  | absolute names =>
      cases names with
      | nil => exact fun hproper => hproper.1 rfl
      | cons x xs => exact absurd (by simp [segments]) (hname x)
  | relative ups names =>
      cases names with
      | nil =>
          cases ups with
          | zero => exact fun hproper => hproper.2.1 rfl
          | succ ups => exact fun hproper => hproper.2.2.1 rfl
      | cons x xs => exact absurd (by simp [segments]) (hname x)

namespace Vfs

variable {s s' : Vfs} {fuel : ℕ}

/-! ## The tree -/

/-- The root of a file system, or the absolute root. -/
def IsRoot (s : Vfs) (d : DentryId) : Prop :=
  d = absoluteRoot ∨ d = devtmpfsRoot ∨ ∃ m < s.mounts, (s.mountAt m).root = d

/-- The dentries that can be reached from the roots. -/
inductive InTree (s : Vfs) : DentryId → Prop
  | root {d : DentryId} (hd : s.IsRoot d) : InTree s d
  | child {d c : DentryId} {n : String} (hd : InTree s d)
      (hc : (s.dentryAt d).children.lookup n = some c) : InTree s c

/-- The dentries in the tree that refer to an inode. -/
def linksTo (s : Vfs) (i : InodeId) : Set DentryId := {d | s.InTree d ∧ (s.dentryAt d).inode = i}

/-- The inode of the root of a file system. -/
def RootInode (s : Vfs) (i : InodeId) : Prop := ∃ d, s.IsRoot d ∧ (s.dentryAt d).inode = i

/-- Entries are made in the tree, under names that are free there, and what is removed and is no
directory has no entries. -/
def Op.Orderly (s : Vfs) : Op → Prop
  | .create parent path _ _ | .symlink parent path _ | .link parent path _ _ _ =>
    ∀ q d, s.ResolvesTo parent path.dirname q → q.dentry = some d →
      s.InTree d ∧ (s.dentryAt d).children.lookup path.basename = none
  | .unlink parent path =>
    ∀ q d, s.ResolvesTo parent path q → q.dentry = some d → (s.dentryAt d).type ≠ sIfdir →
      (s.dentryAt d).children.keys = []
  | _ => True

theorem Op.Orderly.made {op : Op} (hop : op.Orderly s) {parent : Option Path} {path : PathName}
    (hmakes : op.makes = some (parent, path)) {q : Path} (m : s.Made fuel parent path q s') :
    s.InTree m.d ∧ (s.dentryAt m.d).children.lookup path.basename = none := by
  have hdir : s.ResolvesTo parent path.dirname m.dir.target :=
    resolvesTo_iff.mpr ⟨fuel, m.dir, m.found, rfl⟩
  cases op <;> cases hmakes <;> exact hop _ m.d hdir m.dentry

theorem IsRoot.lt (h : s.WellFormed) {d : DentryId} (hd : s.IsRoot d) : d < s.dentries := by
  obtain rfl | rfl | ⟨m, hm, rfl⟩ := hd
  · exact h.absoluteRoot_lt
  · exact h.dentries_pos
  · exact h.root_lt hm

theorem InTree.lt (h : s.WellFormed) {d : DentryId} (hd : s.InTree d) : d < s.dentries := by
  cases hd with
  | root hd => exact hd.lt h
  | child _ hc => exact h.child_lt _ _ _ hc

/-- A child is no root. -/
theorem IsRoot.not_child (h : s.WellFormed) {d c : DentryId} {n : String}
    (hc : (s.dentryAt d).children.lookup n = some c) : ¬ s.IsRoot c := by
  obtain ⟨habs, hdev, hroots⟩ := h.child_ne d n c hc
  rintro (hc | hc | ⟨m, hm, hc⟩)
  · exact habs hc
  · exact hdev hc
  · exact hroots m hm hc

/-- A dentry without names has no entries. -/
theorem lookup_ne_of_keys {d : DentryId} (h : (s.dentryAt d).children.keys = []) (n : String)
    (c : DentryId) : (s.dentryAt d).children.lookup n ≠ some c := by
  intro hc
  have hmem : n ∈ (s.dentryAt d).children := AList.lookup_isSome.mp (by rw [hc]; rfl)
  rw [AList.mem_keys, h] at hmem
  cases hmem

theorem linksTo_finite (h : s.WellFormed) (i : InodeId) : (s.linksTo i).Finite :=
  (Set.finite_Iio s.dentries).subset fun _ hd => hd.1.lt h

theorem Linked.cases_eq {i : InodeId} {nlinkAt : InodeId → ℕ} {inodes : ℕ}
    (h : s.Linked i nlinkAt inodes) :
    (i = s.inodes ∧ nlinkAt = Function.update s.nlinkAt s.inodes 1 ∧ inodes = s.inodes + 1) ∨
      ∃ t < s.dentries, i = (s.dentryAt t).inode ∧
        nlinkAt = Function.update s.nlinkAt i (s.nlinkAt i + 1) ∧ inodes = s.inodes := by
  cases h with
  | new => exact .inl ⟨rfl, rfl, rfl⟩
  | old target t hvalid ht => exact .inr ⟨t, (hvalid.dentry t ht).1, rfl, rfl, rfl⟩

/-! ## What `unlink` removes -/

/-- A walk that ends with a name looks it up in the parent that it reports. -/
theorem walk_name {reduce : Path → Path → Outcome Path} (init : List Segment) (x : String) :
    ∀ {current : Path} {r : ResolveRes}, s.walk reduce current (init ++ [.name x]) = pure r →
      s.child r.parent x = pure r.target := by
  induction init with
  | nil =>
      intro current r hr
      obtain ⟨next, hnext, hr⟩ := bind_eq_pure.mp hr
      cases hr
      exact hnext
  | cons first rest ih =>
      intro current r hr
      rw [List.cons_append, walk_cons current first (by simp)] at hr
      obtain ⟨next, -, hr⟩ := bind_eq_pure.mp hr
      exact ih hr

/-- What the checks of `unlink` let through: files, and directories that are no root and have no
entries. -/
theorem of_checkUnlink {p : Path} {t : DentryId} {m : MountId} (hp : p.dentry = some t)
    (hm : p.mnt = some m) (hcheck : s.checkUnlink p = pure ())
    (hdir : (s.dentryAt t).type = sIfdir) :
    t ≠ (s.mountAt m).root ∧ (s.dentryAt t).children.keys = [] := by
  simp only [checkUnlink, hp, hm, derefDentry, derefMount, Outcome.pure_bind, if_pos hdir] at hcheck
  split at hcheck
  · exact absurd hcheck throw_ne_pure
  · split at hcheck
    · exact absurd hcheck throw_ne_pure
    · exact ⟨fun heq => ‹¬ some t = _› (congrArg some heq), not_not.mp ‹_›⟩

/-- The entry that `unlink` removes is that of the dentry it has found. -/
theorem Removed.lookup_eq (h : s.WellFormed) (ht : s.Tidy)
    (hproper : ∀ d n c, (s.dentryAt d).children.lookup n = some c → Proper n)
    {parent : Option Path} {path : PathName} (hparent : ∀ p ∈ parent, p.Valid s)
    (r : s.Removed fuel parent path) :
    (s.dentryAt r.d).children.lookup path.basename = some r.t ∧
      ((s.dentryAt r.t).type = sIfdir → (s.dentryAt r.t).children.keys = []) := by
  obtain ⟨c, hc⟩ := Option.ne_none_iff_exists'.mp r.entry
  obtain ⟨hpv, htv⟩ := (h.closed.resolve fuel hparent path).of_eq r.found
  obtain ⟨m, hm, htm⟩ := htv.mnt
  have hcheck := of_checkUnlink r.target htm r.checked
  obtain ⟨n, hn⟩ | ⟨hsegments, -⟩ := path.segments_cases
  · exact absurd (hproper r.d _ c hc) (PathName.not_proper_basename hn)
  · have hfound := r.found
    rw [h.resolve_eq hparent fuel (by simp [hsegments]), hsegments] at hfound
    obtain ⟨d, c', hd, hlookup, hback⟩ := h.of_child_eq hpv (walk_name _ _ hfound)
    obtain rfl : d = r.d := Option.some.inj (hd.symm.trans r.dentry)
    -- a mount on the entry would have been entered, and its root is a directory
    have hnot : ¬ s.AtRoot r.res.target := by
      rintro ⟨k, hk, hroot⟩
      obtain rfl : m = k := Option.some.inj (htm.symm.trans hk)
      have ht' : r.t = (s.mountAt m).root := Option.some.inj (r.target.symm.trans hroot)
      exact (hcheck (ht' ▸ ht.root_dir m hm)).1 ht'
    rw [WellFormed.resolveMounts_of_not_atRoot htv hnot] at hback
    have hsame : r.res.target.dentry = some c' := congrArg Path.dentry (pure_inj hback)
    obtain rfl : r.t = c' := Option.some.inj (r.target.symm.trans hsame)
    exact ⟨hlookup, fun hdir => (hcheck hdir).2⟩

/-! ## What an operation does to the tree -/

theorem inTree_made (h : s.WellFormed) {parent : Option Path} {path : PathName} {q : Path}
    (hparent : ∀ p ∈ parent, p.Valid s) (m : s.Made fuel parent path q s') (hd : s.InTree m.d)
    (hfree : (s.dentryAt m.d).children.lookup path.basename = none) (e : DentryId) :
    s'.InTree e ↔ s.InTree e ∨ e = s.dentries := by
  have hmounts : s'.mounts = s.mounts ∧ s'.mountAt = s.mountAt := by
    rw [m.state]
    exact ⟨rfl, rfl⟩
  have hroot : ∀ e, s'.IsRoot e ↔ s.IsRoot e := by
    intro e
    simp only [IsRoot, hmounts.1, hmounts.2]
  have hext : Extends s s' := by
    rw [m.state]
    exact extends_attach (m.d_lt h hparent) hfree _ _ _
  have hold : ∀ {e}, s.InTree e → s'.InTree e := by
    intro e he
    induction he with
    | root he => exact .root ((hroot _).mpr he)
    | child he hc ih => exact .child ih (hext.children _ (he.lt h) _ _ hc)
  constructor
  · intro he
    induction he with
    | root he => exact .inl (.root ((hroot _).mp he))
    | child he hc ih =>
        obtain ⟨-, -, rfl⟩ | ⟨-, hc⟩ := m.lookup_cases h hparent hc
        · exact .inr rfl
        · obtain ih | rfl := ih
          · exact .inl (ih.child hc)
          · -- nothing is entered under a dentry that is not there yet
            exact absurd (h.parent_lt _ _ (h.child_parent _ _ _ hc)).1 (lt_irrefl _)
  · rintro (he | rfl)
    · exact hold he
    · apply (hold hd).child
      rw [m.dentryAt_eq h hparent, if_pos rfl, AList.lookup_insert]

/-- What is left in the tree when a dentry without entries is taken out. -/
theorem inTree_detach (h : s.WellFormed) (ht : s.Tidy) {d c : DentryId} {name : String}
    (hc : (s.dentryAt d).children.lookup name = some c)
    (hempty : ∀ n e, (s.dentryAt c).children.lookup n ≠ some e) (inode : InodeId) (nlink : ℕ)
    (e : DentryId) :
    ((s.setNlink inode nlink).detach d name).InTree e ↔ s.InTree e ∧ e ≠ c := by
  constructor
  · intro he
    induction he with
    | root he => exact ⟨.root he, fun hec => IsRoot.not_child h hc (hec ▸ he)⟩
    | child he hentry ih =>
        obtain ⟨hother, hentry⟩ := WellFormed.lookup_detach.mp hentry
        refine ⟨ih.1.child hentry, ?_⟩
        rintro rfl
        -- the dentry has one parent and one name, and this entry is the one that is gone
        have hparent := (h.child_parent _ _ _ hentry).symm.trans (h.child_parent _ _ _ hc)
        have hname := (ht.child_name _ _ _ hentry).symm.trans (ht.child_name _ _ _ hc)
        obtain hne | hne := hother
        · exact hne (Option.some.inj hparent)
        · exact hne hname
  · rintro ⟨he, hne⟩
    induction he with
    | root he => exact .root he
    | @child d' e n he hentry ih =>
        have hd' : d' ≠ c := by
          rintro rfl
          exact hempty n e hentry
        refine (ih hd').child (WellFormed.lookup_detach.mpr ⟨?_, hentry⟩)
        by_contra hsame
        push Not at hsame
        obtain ⟨rfl, rfl⟩ := hsame
        exact hne (Option.some.inj (hentry.symm.trans hc))

/-- Nothing changes for the tree. -/
theorem inTree_congr (hroot : ∀ d, s'.IsRoot d ↔ s.IsRoot d)
    (hchild : ∀ d n c, s.InTree d → ((s'.dentryAt d).children.lookup n = some c ↔
      (s.dentryAt d).children.lookup n = some c)) (e : DentryId) : s'.InTree e ↔ s.InTree e := by
  constructor
  · intro he
    induction he with
    | root he => exact .root ((hroot _).mp he)
    | child he hc ih => exact ih.child ((hchild _ _ _ ih).mp hc)
  · intro he
    induction he with
    | root he => exact .root ((hroot _).mpr he)
    | child he hc ih => exact ih.child ((hchild _ _ _ he).mpr hc)

theorem isRoot_addMount {root on : DentryId} {p : Path} (e : DentryId) :
    (s.addMount root p on).IsRoot e ↔ s.IsRoot e ∨ e = root := by
  have hmount : (∃ m < s.mounts + 1, ((s.addMount root p on).mountAt m).root = e) ↔
      (∃ m < s.mounts, (s.mountAt m).root = e) ∨ e = root := by
    constructor
    · rintro ⟨m, hm, he⟩
      obtain hm | rfl := Nat.lt_succ_iff_lt_or_eq.mp hm
      · rw [WellFormed.mountAt_addMount_of_lt hm] at he
        exact .inl ⟨m, hm, he⟩
      · rw [WellFormed.mountAt_addMount_self] at he
        exact .inr he.symm
    · rintro (⟨m, hm, he⟩ | rfl)
      · refine ⟨m, hm.trans (Nat.lt_succ_self _), ?_⟩
        rw [WellFormed.mountAt_addMount_of_lt hm, he]
      · refine ⟨s.mounts, Nat.lt_succ_self _, ?_⟩
        rw [WellFormed.mountAt_addMount_self]
  have hmounts : (s.addMount root p on).mounts = s.mounts + 1 := rfl
  simp only [IsRoot, hmounts, hmount, or_assoc]

/-! ## Counting -/

/-- The counts are right, and nothing is entered under a dentry that is not in the tree. -/
structure Counted (s : Vfs) : Prop where
  inode_lt : ∀ d < s.dentries, (s.dentryAt d).inode < s.inodes
  live : ∀ d n c, (s.dentryAt d).children.lookup n = some c → s.InTree d
  count : ∀ i < s.inodes, ¬ s.RootInode i → s.nlinkAt i = (s.linksTo i).ncard

namespace Counted

/-- Nothing changes for the tree and for the inodes. -/
theorem of_same (hs : s.Counted) (hdentries : s'.dentries = s.dentries)
    (hinodes : s'.inodes = s.inodes) (hnlink : s'.nlinkAt = s.nlinkAt)
    (hinode : ∀ d, (s'.dentryAt d).inode = (s.dentryAt d).inode)
    (hroot : ∀ d, s'.IsRoot d ↔ s.IsRoot d)
    (hchild : ∀ d n c, (s'.dentryAt d).children.lookup n = some c ↔
      (s.dentryAt d).children.lookup n = some c) : s'.Counted := by
  have htree := inTree_congr hroot fun d n c _ => hchild d n c
  have hlinks : ∀ i, s'.linksTo i = s.linksTo i := by
    intro i
    ext d
    simp only [linksTo, Set.mem_ofPred_eq, htree, hinode]
  refine ⟨fun d hd => ?_, fun d n c hc => ?_, fun i hi hnot => ?_⟩
  · rw [hinode, hinodes]
    exact hs.inode_lt d (hdentries ▸ hd)
  · exact (htree d).mpr (hs.live d n c ((hchild d n c).mp hc))
  · rw [hnlink, hlinks]
    refine hs.count i (hinodes ▸ hi) fun hri => hnot ?_
    obtain ⟨d, hd, rfl⟩ := hri
    exact ⟨d, (hroot d).mpr hd, hinode d⟩

/-- One more link for the new dentry. -/
theorem made (hs : s.Counted) (h : s.WellFormed) {parent : Option Path} {path : PathName} {q : Path}
    (hparent : ∀ p ∈ parent, p.Valid s) (m : s.Made fuel parent path q s') (hd : s.InTree m.d)
    (hfree : (s.dentryAt m.d).children.lookup path.basename = none) : s'.Counted := by
  have htree := inTree_made h hparent m hd hfree
  have hmounts : s'.mounts = s.mounts := (congrArg mounts m.state).trans rfl
  have hmountAt : s'.mountAt = s.mountAt := (congrArg mountAt m.state).trans rfl
  have hdentries : s'.dentries = s.dentries + 1 := (congrArg dentries m.state).trans rfl
  have hinodes : s'.inodes = m.inodes := (congrArg inodes m.state).trans rfl
  have hnlink : s'.nlinkAt = m.nlinkAt := (congrArg nlinkAt m.state).trans rfl
  have hnew : (s'.dentryAt s.dentries).inode = m.inode := by
    rw [m.dentryAt_eq h hparent, if_neg (m.d_lt h hparent).ne', if_pos rfl]
  have hold : ∀ e < s.dentries, (s'.dentryAt e).inode = (s.dentryAt e).inode := by
    intro e he
    rw [m.dentryAt_eq h hparent, if_neg he.ne]
    split
    · subst e
      rfl
    · rfl
  have hlinks : ∀ i e, e ∈ s'.linksTo i ↔ e ∈ s.linksTo i ∨ e = s.dentries ∧ i = m.inode := by
    intro i e
    simp only [linksTo, Set.mem_ofPred_eq, htree]
    constructor
    · rintro ⟨he | rfl, hi⟩
      · exact .inl ⟨he, hold e (he.lt h) ▸ hi⟩
      · exact .inr ⟨rfl, hi.symm.trans hnew⟩
    · rintro (⟨he, hi⟩ | ⟨rfl, rfl⟩)
      · exact ⟨.inl he, (hold e (he.lt h)).trans hi⟩
      · exact ⟨.inr rfl, hnew⟩
  have hother : ∀ i, i ≠ m.inode → s'.linksTo i = s.linksTo i := by
    intro i hi
    ext e
    rw [hlinks]
    simp [hi]
  have hsame : s'.linksTo m.inode = insert s.dentries (s.linksTo m.inode) := by
    ext e
    rw [hlinks, Set.mem_insert_iff]
    simp [or_comm]
  have hnotMem : ∀ i, s.dentries ∉ s.linksTo i := fun i hi => lt_irrefl _ (hi.1.lt h)
  have hcard : (s'.linksTo m.inode).ncard = (s.linksTo m.inode).ncard + 1 := by
    rw [hsame, Set.ncard_insert_of_notMem (hnotMem _) (linksTo_finite h _)]
  have hroot : ∀ i, ¬ s'.RootInode i → ¬ s.RootInode i := by
    rintro i hnot ⟨d, hd, rfl⟩
    refine hnot ⟨d, ?_, hold d (hd.lt h)⟩
    simpa only [IsRoot, hmounts, hmountAt] using hd
  have hlive : ∀ d n c, (s'.dentryAt d).children.lookup n = some c → s'.InTree d := by
    intro d n c hc
    rw [htree]
    obtain ⟨rfl, -⟩ | ⟨-, hc⟩ := m.lookup_cases h hparent hc
    · exact .inl hd
    · exact .inl (hs.live d n c hc)
  obtain ⟨hi, hnl, hk⟩ | ⟨t, ht, hi, hnl, hk⟩ := m.linked.cases_eq
  · -- a new inode, which nothing referred to
    have hempty : s.linksTo m.inode = ∅ := by
      refine Set.eq_empty_of_forall_notMem fun d hd => ?_
      have hlt := hs.inode_lt d (hd.1.lt h)
      rw [hd.2, hi] at hlt
      exact lt_irrefl _ hlt
    refine ⟨fun d hd => ?_, hlive, fun i hlt hnot => ?_⟩
    · rw [hinodes, hk]
      obtain hd | rfl := Nat.lt_succ_iff_lt_or_eq.mp (hdentries ▸ hd)
      · rw [hold d hd]
        exact (hs.inode_lt d hd).trans (Nat.lt_succ_self _)
      · rw [hnew, hi]
        exact Nat.lt_succ_self _
    · rw [hnlink, hnl]
      by_cases heq : i = m.inode
      · subst heq
        rw [hcard, hempty, Set.ncard_empty, hi, Function.update_self]
      · rw [hother i heq, Function.update_of_ne (hi ▸ heq)]
        refine hs.count i ?_ (hroot i hnot)
        rw [hinodes, hk] at hlt
        exact lt_of_le_of_ne (Nat.le_of_lt_succ hlt) (hi ▸ heq)
  · refine ⟨fun d hd => ?_, hlive, fun i hlt hnot => ?_⟩
    · rw [hinodes, hk]
      obtain hd | rfl := Nat.lt_succ_iff_lt_or_eq.mp (hdentries ▸ hd)
      · rw [hold d hd]
        exact hs.inode_lt d hd
      · rw [hnew, hi]
        exact hs.inode_lt t ht
    · rw [hinodes, hk] at hlt
      rw [hnlink, hnl]
      by_cases heq : i = m.inode
      · subst heq
        rw [hcard, Function.update_self, hs.count m.inode hlt (hroot m.inode hnot)]
      · rw [hother i heq, Function.update_of_ne heq]
        exact hs.count i hlt (hroot i hnot)

/-- One link less for the dentry that is taken out. -/
theorem detach (hs : s.Counted) (h : s.WellFormed) (ht : s.Tidy) {d c : DentryId} {name : String}
    (hc : (s.dentryAt d).children.lookup name = some c)
    (hempty : ∀ n e, (s.dentryAt c).children.lookup n ≠ some e) :
    ((s.setNlink (s.dentryAt c).inode (s.nlinkAt (s.dentryAt c).inode - 1)).detach d name).Counted := by
  have htree := inTree_detach h ht hc hempty (s.dentryAt c).inode (s.nlinkAt (s.dentryAt c).inode - 1)
  set s' := (s.setNlink (s.dentryAt c).inode (s.nlinkAt (s.dentryAt c).inode - 1)).detach d name
  have hinode : ∀ e, (s'.dentryAt e).inode = (s.dentryAt e).inode := fun e => by
    rw [WellFormed.dentryAt_detach]
    rfl
  have hlinks : ∀ i, s'.linksTo i = s.linksTo i \ {c} := by
    intro i
    ext e
    simp only [linksTo, Set.mem_ofPred_eq, Set.mem_sdiff, Set.mem_singleton_iff, htree, hinode]
    tauto
  have hmem : c ∈ s.linksTo (s.dentryAt c).inode := ⟨(hs.live d name c hc).child hc, rfl⟩
  refine ⟨fun e he => hinode e ▸ hs.inode_lt e he, fun e n e' he => ?_, fun i hi hnot => ?_⟩
  · have hlookup := (WellFormed.lookup_detach.mp he).2
    refine (htree e).mpr ⟨hs.live e n e' hlookup, ?_⟩
    rintro rfl
    exact hempty n e' hlookup
  · have hroot : ¬ s.RootInode i := by
      rintro ⟨e, he, rfl⟩
      exact hnot ⟨e, he, hinode e⟩
    have hcount := hs.count i hi hroot
    change Function.update s.nlinkAt (s.dentryAt c).inode _ i = _
    rw [hlinks]
    by_cases heq : i = (s.dentryAt c).inode
    · subst heq
      rw [Function.update_self, Set.ncard_sdiff_singleton_of_mem hmem, hcount]
    · rw [Function.update_of_ne heq, Set.sdiff_singleton_eq_self, hcount]
      exact fun hci => heq hci.2.symm

/-- A new file system has a root with an inode of its own. -/
theorem mountTmpfs (hs : s.Counted) (h : s.WellFormed) (p : Path) (on : DentryId) :
    (s.addRoot.addMount s.dentries p on).Counted := by
  set s' := s.addRoot.addMount s.dentries p on
  have hroot : ∀ e, s'.IsRoot e ↔ s.IsRoot e ∨ e = s.dentries := isRoot_addMount
  have hold : ∀ e < s.dentries, (s'.dentryAt e).inode = (s.dentryAt e).inode ∧
      (s'.dentryAt e).children = (s.dentryAt e).children := by
    intro e he
    rw [WellFormed.dentryAt_addMount, WellFormed.dentryAt_addRoot, if_neg he.ne]
    exact ⟨rfl, rfl⟩
  have hlookup : ∀ {e n c}, (s'.dentryAt e).children.lookup n = some c →
      (s.dentryAt e).children.lookup n = some c := by
    intro e n c hc
    rw [WellFormed.dentryAt_addMount] at hc
    exact WellFormed.lookup_addRoot hc
  have hnew : (s'.dentryAt s.dentries).inode = s.inodes := by
    rw [WellFormed.dentryAt_addMount, WellFormed.dentryAt_addRoot, if_pos rfl]
  have htree : ∀ e, s'.InTree e ↔ s.InTree e ∨ e = s.dentries := by
    intro e
    constructor
    · intro he
      induction he with
      | root he => exact ((hroot _).mp he).imp_left .root
      | child he hc ih =>
          obtain ih | rfl := ih
          · exact .inl (ih.child (hlookup hc))
          · exact absurd (h.parent_lt _ _ (h.child_parent _ _ _ (hlookup hc))).1 (lt_irrefl _)
    · rintro (he | rfl)
      · induction he with
        | root he => exact .root ((hroot _).mpr (.inl he))
        | child he hc ih => exact ih.child ((hold _ (he.lt h)).2 ▸ hc)
      · exact .root ((hroot _).mpr (.inr rfl))
  refine ⟨fun d hd => ?_, fun d n c hc => (htree d).mpr (.inl (hs.live d n c (hlookup hc))),
    fun i hi hnot => ?_⟩
  · obtain hd | rfl := Nat.lt_succ_iff_lt_or_eq.mp hd
    · rw [(hold d hd).1]
      exact (hs.inode_lt d hd).trans (Nat.lt_succ_self _)
    · rw [hnew]
      exact Nat.lt_succ_self _
  · have hne : i ≠ s.inodes := by
      rintro rfl
      exact hnot ⟨s.dentries, (hroot _).mpr (.inr rfl), hnew⟩
    have hlinks : s'.linksTo i = s.linksTo i := by
      ext e
      simp only [linksTo, Set.mem_ofPred_eq, htree]
      constructor
      · rintro ⟨he | rfl, hei⟩
        · exact ⟨he, (hold e (he.lt h)).1 ▸ hei⟩
        · exact absurd (hei.symm.trans hnew) hne
      · rintro ⟨he, hei⟩
        exact ⟨.inl he, (hold e (he.lt h)).1.trans hei⟩
    change Function.update s.nlinkAt s.inodes 1 i = _
    rw [hlinks, Function.update_of_ne hne]
    refine hs.count i (lt_of_le_of_ne (Nat.le_of_lt_succ hi) hne) ?_
    rintro ⟨d, hd, rfl⟩
    exact hnot ⟨d, (hroot d).mpr (.inl hd), (hold d (hd.lt h)).1⟩

theorem mountDevtmpfs (hs : s.Counted) (p : Path) (on : DentryId) :
    (s.addMount devtmpfsRoot p on).Counted := by
  refine hs.of_same rfl rfl rfl (fun d => by rw [WellFormed.dentryAt_addMount]) (fun d => ?_)
    fun d n c => by rw [WellFormed.dentryAt_addMount]
  rw [isRoot_addMount]
  exact or_iff_left_of_imp fun hd => .inr (.inl hd)

/-- What is destroyed was not in the tree. -/
theorem release (hs : s.Counted) (h : s.WellFormed) {d : DentryId} (hd : ¬ s.Referenced d) :
    (s.release d).Counted := by
  have hnot : ¬ s.InTree d := by
    intro hin
    cases hin with
    | root hroot =>
        obtain hd' | hd' | ⟨m, hm, hd'⟩ := hroot
        · exact hd (.inl hd')
        · exact hd (.inr (.inl hd'))
        · exact hd (.inr (.inr (.inr (.inl ⟨m, hm, .inl hd'⟩))))
    | @child e _ n he hc =>
        have hn : n ∈ (s.dentryAt e).children.keys :=
          AList.mem_keys.mp (AList.lookup_isSome.mp (by rw [hc]; rfl))
        exact hd (.inr (.inr (.inr (.inr ⟨e, he.lt h, n, hn, hc⟩))))
  refine hs.of_same rfl rfl rfl (fun _ => rfl) (fun _ => Iff.rfl) fun e n c => ?_
  rw [WellFormed.lookup_release]
  exact and_iff_right_of_imp fun hc hed => hnot (hed ▸ hs.live e n c hc)

theorem effect (hs : s.Counted) (h : s.WellFormed) (ht : s.Tidy)
    (hproper : ∀ d n c, (s.dentryAt d).children.lookup n = some c → Proper n) {op : Op}
    (hop : op.Orderly s) (he : s.Effect fuel op s') : s'.Counted := by
  cases he with
  | held op held hheld =>
      exact hs.of_same rfl rfl rfl (fun _ => rfl) (fun _ => Iff.rfl) fun _ _ _ => Iff.rfl
  | make op parent path q t hmakes hparent m =>
      obtain ⟨hd, hfree⟩ := hop.made hmakes m
      exact (hs.made h hparent m hd hfree).of_same rfl rfl rfl (fun _ => rfl) (fun _ => Iff.rfl)
        fun _ _ _ => Iff.rfl
  | unlink parent path hparent r =>
      obtain ⟨hlookup, hdir⟩ := r.lookup_eq h ht hproper hparent
      have hfound : s.ResolvesTo parent path r.res.target :=
        resolvesTo_iff.mpr ⟨fuel, r.res, r.found, rfl⟩
      have hkeys : (s.dentryAt r.t).children.keys = [] := by
        by_cases htype : (s.dentryAt r.t).type = sIfdir
        · exact hdir htype
        · exact hop _ r.t hfound r.target htype
      exact hs.detach h ht hlookup (lookup_ne_of_keys hkeys)
  | mountTmpfs source target fstype p on hp hon hdir => exact hs.mountTmpfs h p on
  | mountDevtmpfs source target fstype p on hp hon hdir => exact hs.mountDevtmpfs p on
  | release d hd => exact hs.release h hd

theorem boot (cdevs : List ℕ) : (boot cdevs).Counted where
  inode_lt d hd := hd
  live d n c hc := by
    have hnone : ((Vfs.boot cdevs).dentryAt d).children.lookup n = none := AList.lookup_empty n
    cases hnone.symm.trans hc
  count i hi hnot := by
    -- the three inodes are those of roots
    refine absurd ⟨i, ?_, rfl⟩ hnot
    have hi : i < 3 := hi
    match i, hi with
    | 0, _ => exact .inl rfl
    | 1, _ => exact .inr (.inr ⟨0, Nat.one_pos, rfl⟩)
    | 2, _ => exact .inr (.inl rfl)

end Counted

/-- In a run with normal paths and orderly operations, the count of every inode that is not the inode
of a root is the number of dentries in the tree that refer to it. -/
theorem nlink_eq {cdevs : List ℕ}
    (hs : ((system cdevs).restrict fun s op => op.Normal ∧ op.Orderly s).Reachable s) {i : InodeId}
    (hi : i < s.inodes) (hroot : ¬ s.RootInode i) : s.nlinkAt i = (s.linksTo i).ncard := by
  suffices hcounted : s.Counted from hcounted.count i hi hroot
  refine hs.invariant (I := Counted) ?_ ?_
  · rintro s rfl
    exact .boot cdevs
  · rintro s op s' hs ih ⟨⟨-, horderly⟩, henabled, fuel, hexec⟩
    have hwf := reachable_wellFormed hs.of_restrict
    have hnormal := hs.mono_restrict fun _ _ hop => hop.1
    exact ih.effect hwf (reachable_tidy hs.of_restrict) (reachable_proper hnormal) horderly
      (hwf.effect henabled hexec)

/-- An entry under a path whose directory part is known. -/
theorem Op.Orderly.of_resolvesTo {op : Op} {parent : Option Path} {path : PathName}
    (hmakes : op.makes = some (parent, path)) {p : Path} (hp : s.ResolvesTo parent path.dirname p)
    (htree : ∀ d, p.dentry = some d →
      s.InTree d ∧ (s.dentryAt d).children.lookup path.basename = none) : op.Orderly s := by
  have hop : ∀ q d, s.ResolvesTo parent path.dirname q → q.dentry = some d →
      s.InTree d ∧ (s.dentryAt d).children.lookup path.basename = none := by
    intro q d hq hd
    exact htree d (hq.unique hp ▸ hd)
  cases op <;> cases hmakes <;> exact hop

/-- A file and a hard link to it. -/
theorem nlink_eq_two : ∃ s, ((system []).restrict fun s op => op.Normal ∧ op.Orderly s).Reachable s ∧
    s.nlinkAt 3 = (s.linksTo 3).ncard ∧ s.nlinkAt 3 = 2 := by
  have hs₀ : ((system []).restrict fun s op => op.Normal ∧ op.Orderly s).Reachable (Vfs.boot []) :=
    .init rfl
  have hs₁ := hs₀.step (l := .create none (.absolute ["g"]) 0o100644 0)
    ⟨⟨by simp [Op.Normal, PathName.Normal, PathName.names, Proper],
      .of_resolvesTo rfl (resolvesTo_iff.mpr ⟨0, _, rfl, rfl⟩)
        (by rintro _ ⟨⟩; exact ⟨.root (.inl rfl), rfl⟩)⟩, by simp [Op.Enabled], 0, rfl⟩
  have hs₂ := hs₁.step (l := .link none (.absolute ["h"]) none (.absolute ["g"]) false)
    ⟨⟨by simp [Op.Normal, PathName.Normal, PathName.names, Proper],
      .of_resolvesTo rfl (resolvesTo_iff.mpr ⟨0, _, rfl, rfl⟩)
        (by rintro _ ⟨⟩; exact ⟨.root (.inl rfl), rfl⟩)⟩, by simp [Op.Enabled], 0, rfl⟩
  refine ⟨_, hs₂, nlink_eq hs₂ (by decide) ?_, rfl⟩
  rintro ⟨d, rfl | rfl | ⟨m, hm, rfl⟩, hd⟩
  · cases hd
  · cases hd
  · obtain rfl := Nat.lt_one_iff.mp hm
    cases hd

/-- Two hard links to `/g` are made at `/f/x`, under a regular file. The second takes the place of the
first, and the count is three where there are two dentries. -/
theorem nlink_overwritten : ∃ s, ((system []).restrict fun _ op => op.Normal).Reachable s ∧
    ¬ s.RootInode 4 ∧ s.nlinkAt 4 = 3 ∧ (s.linksTo 4).ncard ≤ 2 := by
  obtain ⟨s, hs, hdentries, hmounts, hroot, hnlink, hinode, hparent, hname, hx⟩ :
      ∃ s, ((system []).restrict fun _ op => op.Normal).Reachable s ∧ s.dentries = 7 ∧ s.mounts = 1 ∧
        (s.mountAt 0).root = 1 ∧ s.nlinkAt 4 = 3 ∧
        (∀ d < 7, (s.dentryAt d).inode = 4 → d = 4 ∨ d = 5 ∨ d = 6) ∧
        (s.dentryAt 5).parent = some 3 ∧ (s.dentryAt 5).name = "x" ∧
        (s.dentryAt 3).children.lookup "x" = some 6 := by
    refine ⟨_, normal_of_foldlM 0
      [.create none (.absolute ["f"]) 0o100644 0, .create none (.absolute ["g"]) 0o100644 0,
        .link none (.absolute ["f", "x"]) none (.absolute ["g"]) false,
        .link none (.absolute ["f", "x"]) none (.absolute ["g"]) false] ?_ (.init rfl) rfl,
      rfl, rfl, rfl, rfl, by decide, rfl, rfl, rfl⟩
    simp [Op.Normal, PathName.Normal, PathName.names, Proper, Op.Enabled]
  have h := reachable_wellFormed hs.of_restrict
  have ht := reachable_tidy hs.of_restrict
  have hisRoot : ∀ d, s.IsRoot d → d ≤ 2 := by
    rintro d (rfl | rfl | ⟨m, hm, rfl⟩)
    · exact Nat.zero_le 2
    · exact le_rfl
    · obtain rfl := Nat.lt_one_iff.mp (hmounts ▸ hm)
      rw [hroot]
      decide
  have hold : ∀ d, s.IsRoot d → (s.dentryAt d).inode ≠ 4 := by
    intro d hd hi
    have hle := hisRoot d hd
    obtain rfl | rfl | rfl := hinode d (lt_of_le_of_lt hle (by decide)) hi <;>
    · exact absurd hle (by decide)
  have hgone : ¬ s.InTree 5 := by
    intro hin
    cases hin with
    | root hd => exact absurd (hisRoot 5 hd) (by decide)
    | @child d _ n hd hc =>
        obtain rfl : 3 = d := Option.some.inj (hparent.symm.trans (h.child_parent d n 5 hc))
        obtain rfl : "x" = n := hname.symm.trans (ht.child_name _ n 5 hc)
        cases hx.symm.trans hc
  refine ⟨s, hs, fun hr => ?_, hnlink, ?_⟩
  · obtain ⟨d, hd, hi⟩ := hr
    exact hold d hd hi
  · have hsub : s.linksTo 4 ⊆ {4, 6} := by
      rintro d ⟨hd, hi⟩
      obtain rfl | rfl | rfl := hinode d (hdentries ▸ hd.lt h) hi
      · exact .inl rfl
      · exact absurd hd hgone
      · exact .inr rfl
    calc (s.linksTo 4).ncard ≤ ({4, 6} : Set DentryId).ncard := Set.ncard_le_ncard hsub
      _ = 2 := Set.ncard_pair (by decide)

end Vfs

end Ilobilix.Fs
