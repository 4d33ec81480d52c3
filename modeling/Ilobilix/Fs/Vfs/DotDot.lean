import Ilobilix.Fs.Vfs.Invariant

/-!
# The dot-dot law

Going to a child and up again should lead back. `resolve` climbs out of the mounts before it takes
the parent, which is right, and climbs out of them once more after it, which is not: if the parent is
the root of a mounted file system, the result is the directory the file system is mounted on. So the
law holds exactly for parents that are not the root of their mount.
-/

namespace Ilobilix.Fs

open Outcome

namespace Vfs

variable {s : Vfs}

namespace WellFormed

theorem mnt_ne_none {p : Path} (hp : p.Valid s) : p.mnt ≠ none := by
  obtain ⟨m, -, hm⟩ := hp.mnt
  simp [hm]

/-- `resolve` of a relative path from a valid path walks from there. -/
theorem resolve_relative {p : Path} (hp : p.Valid s) (fuel ups : ℕ) (names : List String)
    (hne : (PathName.relative ups names).segments ≠ []) :
    s.resolve fuel (some p) (.relative ups names) =
      s.walk (s.nestedReduce fuel) p (PathName.relative ups names).segments := by
  simp only [resolve, resolveWith, start, if_neg hne, PathName.isAbsolute, Bool.false_eq_true, if_false,
    Option.getD_some, if_neg (mnt_ne_none hp)]

/-- Going to a child and climbing out of the mounts leads to the child's dentry, in the mount the
child was looked up in. -/
theorem of_child_eq (h : s.WellFormed) {p q : Path} (hp : p.Valid s) {name : String}
    (hchild : s.child p name = pure q) : ∃ d c, p.dentry = some d ∧
      (s.dentryAt d).children.lookup name = some c ∧ s.resolveMounts q = pure ⟨p.mnt, some c⟩ := by
  rcases hd : p.dentry with _ | d
  · simp only [child, hd, derefDentry, Outcome.stop_bind] at hchild
    exact absurd hchild stop_ne_pure
  · rcases hlookup : (s.dentryAt d).children.lookup name with _ | c
    · rw [child_eq_throw hp hd hlookup] at hchild
      exact absurd hchild throw_ne_pure
    · obtain ⟨q', hq', -, -, hback⟩ := h.exists_child hp hd hlookup
      obtain rfl := pure_inj (hchild.symm.trans hq')
      exact ⟨d, c, rfl, hlookup, hback⟩

/-- Up from a child is the parent, climbed out of. -/
theorem dotdot_child (h : s.WellFormed) {p q : Path} (hp : p.Valid s) {name : String}
    (hchild : s.child p name = pure q) : s.dotdot q = s.resolveMounts p := by
  obtain ⟨d, c, hd, hlookup, hback⟩ := h.of_child_eq hp hchild
  rw [(h.exists_dotdot (h.child_valid hp hlookup) rfl hback).1, h.child_parent d name c hlookup, ← hd]

/-- Up from a path with a dentry leads somewhere, outside of mount roots. -/
theorem exists_dotdot_eq (h : s.WellFormed) {p : Path} (hp : p.Valid s) (hd : p.dentry ≠ none) :
    ∃ q, s.dotdot p = pure q := by
  obtain ⟨q, hq, hv, -, hnone⟩ := h.exists_resolveMounts hp
  obtain ⟨d, hqd⟩ := Option.ne_none_iff_exists'.mp fun hq => hd (hnone hq)
  obtain ⟨hup, hvup⟩ := h.exists_dotdot hv hqd hq
  obtain ⟨r, hr, -⟩ := h.exists_resolveMounts hvup
  exact ⟨r, hup.trans hr⟩

/-- What `..` resolves to, from a child. -/
theorem resolve_dotdot_child (h : s.WellFormed) {p q : Path} (hp : p.Valid s) {name : String}
    (hchild : s.child p name = pure q) :
    ∃ r, s.resolveMounts p = pure r ∧ s.ResolvesTo (some q) (.relative 1 []) r := by
  have hq : q.Valid s := (h.closed.child p name hp).of_eq hchild
  obtain ⟨d, c, hd, -, -⟩ := h.of_child_eq hp hchild
  obtain ⟨r, hr, hv, -, hnone⟩ := h.exists_resolveMounts hp
  have hrd : r.dentry ≠ none := fun hr => by cases hd.symm.trans (hnone hr)
  obtain ⟨u, hu⟩ := h.exists_dotdot_eq hv hrd
  refine ⟨r, hr, resolvesTo_iff.mpr ⟨0, ⟨u, r⟩, ?_, rfl⟩⟩
  rw [resolve_relative hq 0 1 [] (by decide)]
  change s.finish q .dotdot = _
  simp only [finish, h.dotdot_child hp hchild, hr, hu, Outcome.pure_bind]

/-- The law, at one parent and one child. -/
theorem dotdot_child_iff (h : s.WellFormed) {p q : Path} (hp : p.Valid s) {name : String}
    (hchild : s.child p name = pure q) :
    s.ResolvesTo (some q) (.relative 1 []) p ↔ ¬ s.AtRoot p := by
  obtain ⟨r, hr, hres⟩ := h.resolve_dotdot_child hp hchild
  constructor
  · intro hup hroot
    obtain rfl := hres.unique hup
    obtain ⟨r', hr', -, hnot, -⟩ := h.exists_resolveMounts hp
    exact hnot (pure_inj (hr.symm.trans hr') ▸ hroot)
  · intro hroot
    obtain rfl := pure_inj ((resolveMounts_of_not_atRoot hp hroot).symm.trans hr)
    exact hres

theorem dotdot_root (h : s.WellFormed) : s.dotdot s.root = pure s.root := by
  have hv := h.root_valid
  have hnot : ¬ s.AtRoot s.root := by
    rintro ⟨m, hm, hd⟩
    exact h.ne_zero_of_atRoot hv hm hd (by rw [h.root_eq] at hm; exact (Option.some.inj hm).symm)
  have hclimb := resolveMounts_of_not_atRoot hv hnot
  rw [(h.exists_dotdot hv (by rw [h.root_eq]) hclimb).1, h.root_parent, ← hclimb, h.root_eq]

theorem walk_dotdot_root (h : s.WellFormed) (reduce : Path → Path → Outcome Path) (n : ℕ) :
    s.walk reduce s.root (List.replicate (n + 1) .dotdot) = pure ⟨s.root, s.root⟩ := by
  induction n with
  | zero =>
      change s.finish s.root .dotdot = _
      simp only [finish, h.dotdot_root, Outcome.pure_bind]
  | succ n ih =>
      rw [List.replicate_succ, walk_cons s.root .dotdot (by simp)]
      change s.dotdot s.root >>= _ = _
      rw [h.dotdot_root, Outcome.pure_bind, ih]

/-- Going up any number of times from the root. -/
theorem resolvesTo_root (h : s.WellFormed) (n : ℕ) :
    s.ResolvesTo (some s.root) (.relative n []) s.root := by
  refine resolvesTo_iff.mpr ⟨0, ⟨s.root, s.root⟩, ?_, rfl⟩
  cases n with
  | zero => rfl
  | succ n =>
      rw [resolve_relative h.root_valid 0 (n + 1) [] (by simp [PathName.segments])]
      simpa [PathName.segments] using h.walk_dotdot_root (s.nestedReduce 0) n

/-- `resolve` never dereferences a null mount, and neither does `reduce` on what it returns. -/
theorem ne_nullMount (h : s.WellFormed) {parent : Option Path} (hparent : ∀ p ∈ parent, p.Valid s)
    (fuel : ℕ) (path : PathName) :
    s.resolve fuel parent path ≠ stop .nullMount ∧ ∀ r depth, s.resolve fuel parent path = pure r →
      s.reduce fuel r.parent r.target depth ≠ stop .nullMount := by
  have hsat := h.closed.resolve fuel hparent path
  refine ⟨fun hstop => ?_, fun r depth hr hstop => ?_⟩
  · exact absurd (hsat.of_stop hstop) (by simp)
  · obtain ⟨hp, ht⟩ := hsat.of_eq hr
    exact absurd ((h.closed.reduce fuel hp ht depth).of_stop hstop) (by simp)

end WellFormed

/-- In every reachable state: `..` from the root is the root, no walk from a held path dereferences a
null mount, and `..` from a child `c` of `p` is `p` if and only if `p` is not the root of its
mount. -/
theorem dotdot_law {cdevs : List ℕ} (hs : (system cdevs).Reachable s) :
    (∀ n, s.ResolvesTo (some s.root) (.relative n []) s.root) ∧
    (∀ fuel parent path, (∀ p ∈ parent, p ∈ s.held) →
      s.resolve fuel parent path ≠ stop .nullMount ∧ ∀ r depth, s.resolve fuel parent path = pure r →
        s.reduce fuel r.parent r.target depth ≠ stop .nullMount) ∧
    ∀ parent path p name c, (∀ q ∈ parent, q ∈ s.held) → s.ResolvesTo parent path p →
      s.ResolvesTo (some p) (.relative 0 [name]) c →
      (s.ResolvesTo (some c) (.relative 1 []) p ↔ ¬ s.AtRoot p) := by
  have h := reachable_wellFormed hs
  refine ⟨h.resolvesTo_root, fun fuel parent path hparent =>
    h.ne_nullMount (h.held_parent hparent) fuel path, fun parent path p name c hparent hp hc => ?_⟩
  obtain ⟨fuel, r, hr, rfl⟩ := resolvesTo_iff.mp hp
  have hv := ((h.closed.resolve fuel (h.held_parent hparent) path).of_eq hr).2
  obtain ⟨fuel', r', hr', rfl⟩ := resolvesTo_iff.mp hc
  rw [WellFormed.resolve_relative hv fuel' 0 [name] (by simp [PathName.segments])] at hr'
  obtain ⟨next, hnext, hret⟩ := bind_eq_pure.mp hr'
  cases hret
  exact h.dotdot_child_iff hv hnext

/-- A file system is mounted on `/dev`, and `/dev/c` is a directory in it: up from there is the
directory under the mount. -/
theorem dotdot_leaves_mount : ∃ s, (system []).Reachable s ∧ ∃ p c,
    s.ResolvesTo none (.absolute ["dev"]) p ∧ s.IsDir p ∧
    s.ResolvesTo (some p) (.relative 0 ["c"]) c ∧ s.IsDir c ∧
    s.ResolvesTo (some c) (.relative 1 []) ⟨some 0, some 3⟩ ∧
    ¬ s.ResolvesTo (some c) (.relative 1 []) p := by
  refine ⟨_, reachable_of_foldlM 0
    [.create none (.absolute ["dev"]) sIfdir 0, .mount .empty (.absolute ["dev"]) "devtmpfs",
      .create none (.absolute ["dev", "c"]) sIfdir 0] ?_ (.init rfl) rfl,
    ⟨some 1, some 2⟩, ⟨some 1, some 4⟩, resolvesTo_iff.mpr ⟨0, _, rfl, rfl⟩, ⟨2, rfl, by decide⟩,
    resolvesTo_iff.mpr ⟨0, _, rfl, rfl⟩, ⟨4, rfl, by decide⟩, resolvesTo_iff.mpr ⟨0, _, rfl, rfl⟩,
    fun h => ?_⟩
  · simp [Op.Enabled]
  · have hup := h.unique (resolvesTo_iff.mpr ⟨0, _, rfl, rfl⟩)
    cases hup

/-- Without a mount the law applies: up from `/a/b` is `/a`. -/
theorem dotdot_law_directory : ∃ s, (system []).Reachable s ∧
    s.ResolvesTo (some ⟨some 0, some 4⟩) (.relative 1 []) ⟨some 0, some 3⟩ := by
  have hs : (system []).Reachable _ := reachable_of_foldlM 0
    [.create none (.absolute ["a"]) sIfdir 0, .create none (.absolute ["a", "b"]) sIfdir 0]
    (by simp [Op.Enabled]) (.init rfl) rfl
  refine ⟨_, hs, ((dotdot_law hs).2.2 none (.absolute ["a"]) ⟨some 0, some 3⟩ "b" _ ?_ ?_ ?_).mpr ?_⟩
  · rintro _ ⟨⟩
  · exact resolvesTo_iff.mpr ⟨0, _, rfl, rfl⟩
  · exact resolvesTo_iff.mpr ⟨0, _, rfl, rfl⟩
  · decide

end Vfs

end Ilobilix.Fs
