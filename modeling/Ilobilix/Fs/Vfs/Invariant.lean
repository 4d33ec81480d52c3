import Ilobilix.Fs.Vfs.Walk

/-!
# Well-formed mounts and dentries

`WellFormed` is what every operation keeps: children know their parent, every mount but the first is
on an older one, and the hidden root of the first mount, which is covered by the absolute root dentry
and not the other way round, is never where a path is. On well-formed states the loops over mounts
end, a climb out of the mounts undoes an entry into them, and no mount pointer on the way is null.
-/

namespace Ilobilix.Fs

open Outcome

/-- A place in the tree: a mount, and a dentry that is not the hidden root of the first mount. The
dentry may be null, as the parent of a dentry that has outlived it. -/
structure Path.Valid (s : Vfs) (p : Path) : Prop where
  mnt : ∃ m < s.mounts, p.mnt = some m
  dentry : ∀ d, p.dentry = some d → d < s.dentries ∧ d ≠ Vfs.rootfs

namespace Vfs

/-- The path is the root of its mount. -/
def AtRoot (s : Vfs) (p : Path) : Prop := ∃ m, p.mnt = some m ∧ p.dentry = some (s.mountAt m).root

instance (s : Vfs) (p : Path) : Decidable (s.AtRoot p) :=
  decidable_of_iff (p.mnt.any fun m => p.dentry = some (s.mountAt m).root) <| by
    simp [AtRoot, Option.any_eq_true]

structure WellFormed (s : Vfs) : Prop where
  root_eq : s.root = ⟨some 0, some absoluteRoot⟩
  root_parent : (s.dentryAt absoluteRoot).parent = some absoluteRoot
  dentries_pos : devtmpfsRoot < s.dentries
  mounts_pos : 0 < s.mounts
  first_mount : s.mountAt 0 = ⟨rootfs, some ⟨none, some absoluteRoot⟩⟩
  child_lt : ∀ d name c, (s.dentryAt d).children.lookup name = some c → c < s.dentries
  child_parent : ∀ d name c, (s.dentryAt d).children.lookup name = some c →
    (s.dentryAt c).parent = some d
  child_ne : ∀ d name c, (s.dentryAt d).children.lookup name = some c →
    c ≠ absoluteRoot ∧ c ≠ devtmpfsRoot ∧ ∀ m < s.mounts, (s.mountAt m).root ≠ c
  parent_lt : ∀ d e, (s.dentryAt d).parent = some e → e < s.dentries ∧ e ≠ rootfs
  mount_root : ∀ m < s.mounts, m ≠ 0 → (s.mountAt m).root < s.dentries ∧ (s.mountAt m).root ≠ rootfs
  mounted_on : ∀ m < s.mounts, m ≠ 0 → ∃ k < m, ∃ d < s.dentries,
    (s.mountAt m).mountedOn = some ⟨some k, some d⟩ ∧ d ≠ rootfs
  child_mount : ∀ d, ∀ m ∈ (s.dentryAt d).childMounts, m < s.mounts ∧
    ∃ k, (s.mountAt m).mountedOn = some ⟨k, some d⟩
  held_valid : ∀ p ∈ s.held, p.Valid s

namespace WellFormed

variable {s : Vfs}

/-! ## Climbing out of mounts -/

theorem absoluteRoot_lt (h : s.WellFormed) : absoluteRoot < s.dentries :=
  lt_of_le_of_lt (Nat.zero_le _) h.dentries_pos

theorem root_valid (h : s.WellFormed) : s.root.Valid s := by
  rw [h.root_eq]
  refine ⟨⟨0, h.mounts_pos, rfl⟩, ?_⟩
  rintro d ⟨⟩
  exact ⟨h.absoluteRoot_lt, by decide⟩

theorem root_lt (h : s.WellFormed) {m : MountId} (hm : m < s.mounts) :
    (s.mountAt m).root < s.dentries := by
  by_cases h0 : m = 0
  · rw [h0, h.first_mount]
    exact lt_trans (by decide) h.dentries_pos
  · exact (h.mount_root m hm h0).1

/-- The root of a mount is not in the first mount, whose root is hidden. -/
theorem ne_zero_of_atRoot (h : s.WellFormed) {p : Path} (hp : p.Valid s) {m : MountId}
    (hm : p.mnt = some m) (hd : p.dentry = some (s.mountAt m).root) : m ≠ 0 := by
  rintro rfl
  rw [h.first_mount] at hd
  exact (hp.dentry _ hd).2 rfl

/-- What a mount is on is a valid path in an older mount. -/
theorem mountedOn_valid (h : s.WellFormed) {m : MountId} (hm : m < s.mounts) (h0 : m ≠ 0) :
    ∃ k < m, ∃ d, (s.mountAt m).mountedOn = some ⟨some k, some d⟩ ∧
      (⟨some k, some d⟩ : Path).Valid s := by
  obtain ⟨k, hk, d, hd, heq, hne⟩ := h.mounted_on m hm h0
  refine ⟨k, hk, d, heq, ⟨k, hk.trans hm, rfl⟩, ?_⟩
  rintro _ ⟨⟩
  exact ⟨hd, hne⟩

theorem climb_of_not_atRoot {p : Path} (hp : p.Valid s) (hr : ¬ s.AtRoot p) (n : ℕ) :
    s.climb n p = pure p := by
  obtain ⟨⟨m, -, hm⟩, -⟩ := hp
  have hd : p.dentry ≠ some (s.mountAt m).root := fun hd => hr ⟨m, hm, hd⟩
  cases n <;>
  · simp only [climb, hm, derefMount]
    exact if_neg hd

theorem climb_of_atRoot {p : Path} {m : MountId} (hm : p.mnt = some m)
    (hd : p.dentry = some (s.mountAt m).root) {q : Path} (hq : (s.mountAt m).mountedOn = some q)
    (n : ℕ) : s.climb (n + 1) p = s.climb n q := by
  simp only [climb, hm, derefMount]
  refine (if_pos hd).trans ?_
  rw [hq]

/-- The climb ends, after at most as many turns as the mount is old, outside of mount roots. -/
theorem exists_climb (h : s.WellFormed) (m : MountId) : ∀ (p : Path) (n : ℕ), p.Valid s →
    p.mnt = some m → m ≤ n → ∃ q, s.climb n p = pure q ∧ q.Valid s ∧ ¬ s.AtRoot q ∧
      (q.dentry = none → p.dentry = none) ∧ s.climb m p = pure q := by
  induction m using Nat.strong_induction_on with
  | _ m ih =>
      intro p n hp hm hn
      by_cases hr : s.AtRoot p
      · obtain ⟨m', hm', hd⟩ := hr
        obtain rfl : m = m' := Option.some.inj (hm.symm.trans hm')
        have h0 := h.ne_zero_of_atRoot hp hm hd
        obtain ⟨m₁, hm₁, hpm⟩ := hp.mnt
        obtain rfl : m = m₁ := Option.some.inj (hm.symm.trans hpm)
        obtain ⟨k, hk, d, hon, hq⟩ := h.mountedOn_valid hm₁ h0
        obtain ⟨n, rfl⟩ := Nat.exists_eq_add_of_le' (le_trans (Nat.one_le_iff_ne_zero.mpr h0) hn)
        obtain ⟨r, hr, hv, hnr, hnone, hkr⟩ :=
          ih k hk ⟨some k, some d⟩ n hq rfl (Nat.le_of_lt_succ (hk.trans_le hn))
        obtain ⟨j, rfl⟩ := Nat.exists_eq_add_of_le' (Nat.one_le_iff_ne_zero.mpr h0)
        obtain ⟨r', hr', -, -, -, hkr'⟩ :=
          ih k hk ⟨some k, some d⟩ j hq rfl (Nat.le_of_lt_succ hk)
        refine ⟨r, ?_, hv, hnr, fun hr => absurd (hnone hr) (by simp), ?_⟩
        · rw [climb_of_atRoot hm hd hon, hr]
        · rw [climb_of_atRoot hm hd hon, hr', ← hkr', hkr]
      · exact ⟨p, climb_of_not_atRoot hp hr n, hp, hr, id, climb_of_not_atRoot hp hr m⟩

theorem exists_resolveMounts (h : s.WellFormed) {p : Path} (hp : p.Valid s) :
    ∃ q, s.resolveMounts p = pure q ∧ q.Valid s ∧ ¬ s.AtRoot q ∧
      (q.dentry = none → p.dentry = none) := by
  obtain ⟨m, hm, hpm⟩ := hp.mnt
  obtain ⟨q, hq, hv, hr, hnone, -⟩ := h.exists_climb m p s.mounts hp hpm hm.le
  exact ⟨q, hq, hv, hr, hnone⟩

theorem resolveMounts_of_not_atRoot {p : Path} (hp : p.Valid s) (hr : ¬ s.AtRoot p) :
    s.resolveMounts p = pure p :=
  climb_of_not_atRoot hp hr s.mounts

/-- One turn of the climb. -/
theorem resolveMounts_of_atRoot (h : s.WellFormed) {p : Path} (hp : p.Valid s) {m : MountId}
    (hm : p.mnt = some m) (hd : p.dentry = some (s.mountAt m).root) {q : Path}
    (hq : (s.mountAt m).mountedOn = some q) : s.resolveMounts p = s.resolveMounts q := by
  have h0 := h.ne_zero_of_atRoot hp hm hd
  obtain ⟨m', hm', hpm⟩ := hp.mnt
  obtain rfl : m = m' := Option.some.inj (hm.symm.trans hpm)
  obtain ⟨k, hk, d, hon, hv⟩ := h.mountedOn_valid hm' h0
  obtain rfl : ⟨some k, some d⟩ = q := Option.some.inj (hon.symm.trans hq)
  obtain ⟨n, hn⟩ := Nat.exists_eq_add_of_le' (Nat.one_le_of_lt hm')
  have hkn : k ≤ n := Nat.le_of_lt_succ ((hk.trans hm').trans_eq hn)
  obtain ⟨r, hr, -, -, -, hkr⟩ := h.exists_climb k _ n hv rfl hkn
  obtain ⟨r', hr', -, -, -, hkr'⟩ := h.exists_climb k _ s.mounts hv rfl (hk.trans hm').le
  calc s.resolveMounts p = s.climb (n + 1) p := by rw [resolveMounts, hn]
    _ = s.climb n ⟨some k, some d⟩ := climb_of_atRoot hm hd hon n
    _ = s.resolveMounts ⟨some k, some d⟩ := by
        rw [resolveMounts, hr, hr', ← hkr, hkr']

/-! ## Going to a child and going up -/

/-- The mount that is entered next is younger, and its root leads back to where it is on. -/
theorem next_mount (h : s.WellFormed) {m m' : MountId} {c : DentryId}
    (hfind : (s.dentryAt c).childMounts.find?
      (fun k => (s.mountAt k).mountedOn.map Path.mnt = some (some m)) = some m') :
    m < m' ∧ m' < s.mounts ∧ (s.mountAt m').mountedOn = some ⟨some m, some c⟩ ∧
      (⟨some m', some (s.mountAt m').root⟩ : Path).Valid s := by
  obtain ⟨hlt, k, hon⟩ := h.child_mount c m' (List.mem_of_find?_eq_some hfind)
  have hmnt := List.find?_some hfind
  simp only [hon, Option.map_some, decide_eq_true_eq, Option.some.injEq] at hmnt
  subst hmnt
  have h0 : m' ≠ 0 := by
    rintro rfl
    rw [h.first_mount] at hon
    cases hon
  obtain ⟨k, hk, d, hon', -⟩ := h.mountedOn_valid hlt h0
  rw [hon] at hon'
  cases hon'
  refine ⟨hk, hlt, hon, ⟨m', hlt, rfl⟩, ?_⟩
  rintro _ ⟨⟩
  exact h.mount_root m' hlt h0

/-- Mounts are entered until none is left, and a climb leads back. -/
theorem exists_enterMounts (h : s.WellFormed) (n : ℕ) : ∀ (m : MountId) (c : DentryId),
    (⟨some m, some c⟩ : Path).Valid s → s.mounts ≤ m + n →
    ∃ q, s.enterMounts n (some m) c = pure q ∧ q.Valid s ∧ q.dentry ≠ none ∧
      s.resolveMounts q = s.resolveMounts ⟨some m, some c⟩ := by
  induction n with
  | zero =>
      intro m c hv hn
      obtain ⟨m', hm', hmm⟩ := hv.mnt
      cases hmm
      exact absurd hm' (Nat.not_lt.mpr hn)
  | succ n ih =>
      intro m c hv hn
      unfold enterMounts
      split
      · exact ⟨_, rfl, hv, by simp, rfl⟩
      · rename_i m' hfind
        obtain ⟨hlt, hlt', hon, hv'⟩ := h.next_mount hfind
        have hn' : s.mounts ≤ m' + n :=
          hn.trans ((Nat.add_right_comm m n 1).le.trans (Nat.add_le_add_right hlt n))
        obtain ⟨q, hq, hvq, hne, hback⟩ := ih m' (s.mountAt m').root hv' hn'
        exact ⟨q, hq, hvq, hne, hback.trans (h.resolveMounts_of_atRoot hv' rfl rfl hon)⟩

theorem child_valid (h : s.WellFormed) {p : Path} (hp : p.Valid s) {d c : DentryId} {name : String}
    (hlookup : (s.dentryAt d).children.lookup name = some c) :
    (⟨p.mnt, some c⟩ : Path).Valid s := by
  refine ⟨hp.mnt, ?_⟩
  rintro _ ⟨⟩
  refine ⟨h.child_lt d name c hlookup, fun hc => ?_⟩
  exact (h.child_ne d name c hlookup).2.2 0 h.mounts_pos (by rw [h.first_mount, hc])

/-- A child is not the root of a mount. -/
theorem child_not_atRoot (h : s.WellFormed) {p : Path} (hp : p.Valid s) {d c : DentryId}
    {name : String} (hlookup : (s.dentryAt d).children.lookup name = some c) :
    ¬ s.AtRoot ⟨p.mnt, some c⟩ := by
  rintro ⟨m, hm, hroot⟩
  obtain ⟨m', hm', hpm⟩ := hp.mnt
  obtain rfl : m = m' := Option.some.inj (hm.symm.trans hpm)
  exact (h.child_ne d name c hlookup).2.2 m hm' (Option.some.inj hroot).symm

/-- The child of a valid path: valid, and a climb from it ends at the child's own dentry. -/
theorem exists_child (h : s.WellFormed) {p : Path} (hp : p.Valid s) {d c : DentryId} {name : String}
    (hd : p.dentry = some d) (hlookup : (s.dentryAt d).children.lookup name = some c) :
    ∃ q, s.child p name = pure q ∧ q.Valid s ∧ q.dentry ≠ none ∧
      s.resolveMounts q = pure ⟨p.mnt, some c⟩ := by
  obtain ⟨m, -, hm⟩ := hp.mnt
  have hv := h.child_valid hp hlookup
  have hnot := h.child_not_atRoot hp hlookup
  rw [hm] at hv hnot
  obtain ⟨q, hq, hvq, hne, hback⟩ :=
    h.exists_enterMounts s.mounts m c hv (Nat.le_add_left _ _)
  refine ⟨q, ?_, hvq, hne, ?_⟩
  · simp only [child, hd, derefDentry, Outcome.pure_bind, hlookup, hm, hq]
  · rw [hback, resolveMounts_of_not_atRoot hv hnot, hm]

theorem child_eq_throw {p : Path} (hp : p.Valid s) {d : DentryId} {name : String}
    (hd : p.dentry = some d) (hlookup : (s.dentryAt d).children.lookup name = none) :
    s.child p name = throw .notFound := by
  obtain ⟨m, -, hm⟩ := hp.mnt
  simp only [child, hd, derefDentry, Outcome.pure_bind, hlookup, hm, derefMount]

/-- Up from a dentry with a known climb. -/
theorem exists_dotdot (h : s.WellFormed) {p q : Path} {d : DentryId} (hq : q.Valid s)
    (hd : q.dentry = some d) (hback : s.resolveMounts p = pure q) :
    s.dotdot p = s.resolveMounts ⟨q.mnt, (s.dentryAt d).parent⟩ ∧
      (⟨q.mnt, (s.dentryAt d).parent⟩ : Path).Valid s := by
  refine ⟨?_, hq.mnt, fun e he => h.parent_lt d e he⟩
  simp only [dotdot, hback, Outcome.pure_bind, hd, derefDentry]

/-- Walks from valid paths stay valid, and stop only for want of fuel or at a dentry whose parent is
gone. -/
theorem closed (h : s.WellFormed) :
    s.Closed (fun e => e = .fuel ∨ e = .nullDentry) (Path.Valid s) where
  fuel := .inl rfl
  root := h.root_valid
  mnt := by
    rintro p ⟨⟨m, -, hm⟩, -⟩
    simp [hm]
  sub := fun _ hp => hp
  dir := fun _ hp _ => hp
  deref := by
    rintro ⟨mnt, _ | d⟩ _
    · exact sat_stop (.inr rfl)
    · exact sat_pure trivial
  child := by
    intro p name hp
    rcases hd : p.dentry with _ | d
    · simp only [child, hd, derefDentry, Outcome.stop_bind]
      exact sat_stop (.inr rfl)
    · rcases hlookup : (s.dentryAt d).children.lookup name with _ | c
      · rw [child_eq_throw hp hd hlookup]
        exact sat_throw _
      · obtain ⟨q, hq, hv, -⟩ := h.exists_child hp hd hlookup
        rw [hq]
        exact sat_pure hv
  dotdot := by
    intro p hp
    obtain ⟨q, hq, hv, -⟩ := h.exists_resolveMounts hp
    rcases hd : q.dentry with _ | d
    · simp only [Vfs.dotdot, hq, Outcome.pure_bind, hd, derefDentry, Outcome.stop_bind]
      exact sat_stop (.inr rfl)
    · obtain ⟨hup, hvup⟩ := h.exists_dotdot hv hd hq
      obtain ⟨r, hr, hvr, -⟩ := h.exists_resolveMounts hvup
      rw [hup, hr]
      exact sat_pure hvr

/-! ## Operations -/

theorem dentryAt_attach (s : Vfs) (d : DentryId) (name : String) (inode : InodeId) (stMode : ℕ)
    (symlinkedTo : PathName) (hd : d < s.dentries) (e : DentryId) :
    (s.attach d name inode stMode symlinkedTo).dentryAt e =
      if e = d then { s.dentryAt d with children := (s.dentryAt d).children.insert name s.dentries }
      else if e = s.dentries then ⟨name, inode, stMode, symlinkedTo, some d, ∅, []⟩ else s.dentryAt e := by
  have hne : d ≠ s.dentries := hd.ne
  simp only [attach, Function.update_apply, if_neg hne]

/-- The children after an entry is made: the new one, and those that were there under other names. -/
theorem lookup_attach (s : Vfs) {d : DentryId} (name : String) (inode : InodeId) (stMode : ℕ)
    (symlinkedTo : PathName) (hd : d < s.dentries) {e c : DentryId} {n : String}
    (h : ((s.attach d name inode stMode symlinkedTo).dentryAt e).children.lookup n = some c) :
    e = d ∧ n = name ∧ c = s.dentries ∨
      (e ≠ d ∨ n ≠ name) ∧ (s.dentryAt e).children.lookup n = some c := by
  rw [dentryAt_attach s d name inode stMode symlinkedTo hd] at h
  split_ifs at h with he he'
  · subst he
    by_cases hn : n = name
    · subst hn
      rw [AList.lookup_insert] at h
      exact .inl ⟨rfl, rfl, (Option.some.inj h).symm⟩
    · rw [AList.lookup_insert_ne hn] at h
      exact .inr ⟨.inr hn, h⟩
  · rw [AList.lookup_empty] at h
    cases h
  · exact .inr ⟨.inl he, h⟩

theorem attach (h : s.WellFormed) {d : DentryId} (hd : d < s.dentries) (hne : d ≠ rootfs)
    (name : String) (inode : InodeId) (stMode : ℕ) (symlinkedTo : PathName) :
    (s.attach d name inode stMode symlinkedTo).WellFormed := by
  have hparent : ∀ e, ((s.attach d name inode stMode symlinkedTo).dentryAt e).parent =
      if e = s.dentries then some d else (s.dentryAt e).parent := by
    intro e
    rw [dentryAt_attach s d name inode stMode symlinkedTo hd]
    by_cases he : e = d
    · rw [if_pos he, if_neg (he ▸ hd.ne), he]
    · rw [if_neg he]
      split <;> rfl
  have hmounts : ∀ e, ((s.attach d name inode stMode symlinkedTo).dentryAt e).childMounts =
      if e = s.dentries then [] else (s.dentryAt e).childMounts := by
    intro e
    rw [dentryAt_attach s d name inode stMode symlinkedTo hd]
    by_cases he : e = d
    · rw [if_pos he, if_neg (he ▸ hd.ne), he]
    · rw [if_neg he]
      split <;> rfl
  have hlt : ∀ {e : DentryId}, e < s.dentries → e < s.dentries + 1 :=
    fun he => he.trans (Nat.lt_succ_self _)
  refine
    { root_eq := h.root_eq
      root_parent := ?_
      dentries_pos := hlt h.dentries_pos
      mounts_pos := h.mounts_pos
      first_mount := h.first_mount
      child_lt := ?_
      child_parent := ?_
      child_ne := ?_
      parent_lt := ?_
      mount_root := fun m hm h0 => ⟨hlt (h.mount_root m hm h0).1, (h.mount_root m hm h0).2⟩
      mounted_on := ?_
      child_mount := ?_
      held_valid := ?_ }
  · rw [hparent, if_neg h.absoluteRoot_lt.ne, h.root_parent]
  · intro e n c hc
    obtain ⟨-, -, rfl⟩ | ⟨-, hc⟩ := lookup_attach s name inode stMode symlinkedTo hd hc
    · exact Nat.lt_succ_self _
    · exact hlt (h.child_lt e n c hc)
  · intro e n c hc
    rw [hparent]
    obtain ⟨rfl, -, rfl⟩ | ⟨-, hc⟩ := lookup_attach s name inode stMode symlinkedTo hd hc
    · exact if_pos rfl
    · rw [if_neg (h.child_lt e n c hc).ne, h.child_parent e n c hc]
  · intro e n c hc
    obtain ⟨rfl, -, rfl⟩ | ⟨-, hc⟩ := lookup_attach s name inode stMode symlinkedTo hd hc
    · exact ⟨h.absoluteRoot_lt.ne', h.dentries_pos.ne', fun m hm => (h.root_lt hm).ne⟩
    · exact h.child_ne e n c hc
  · intro e e' he
    rw [hparent] at he
    split at he
    · cases he
      exact ⟨hlt hd, hne⟩
    · exact ⟨hlt (h.parent_lt e e' he).1, (h.parent_lt e e' he).2⟩
  · intro m hm h0
    obtain ⟨k, hk, e, he, hon, hroot⟩ := h.mounted_on m hm h0
    exact ⟨k, hk, e, hlt he, hon, hroot⟩
  · intro e m hm
    rw [hmounts] at hm
    split at hm
    · cases hm
    · exact h.child_mount e m hm
  · intro p hp
    obtain ⟨hmnt, hdentry⟩ := h.held_valid p hp
    exact ⟨hmnt, fun e he => ⟨hlt (hdentry e he).1, (hdentry e he).2⟩⟩

/-- Changes that make no entry and no mount: children, mounts on dentries and parents are only taken
away, and no parent of a child is. -/
theorem of_fewer (h : s.WellFormed) {s' : Vfs} (hroot : s'.root = s.root)
    (hdentries : s.dentries ≤ s'.dentries) (hmountAt : s'.mountAt = s.mountAt)
    (hmounts : s'.mounts = s.mounts)
    (hchild : ∀ d n c, (s'.dentryAt d).children.lookup n = some c →
      (s.dentryAt d).children.lookup n = some c ∧ (s'.dentryAt c).parent = (s.dentryAt c).parent)
    (hparent : ∀ d e, (s'.dentryAt d).parent = some e → (s.dentryAt d).parent = some e)
    (habsolute : (s'.dentryAt absoluteRoot).parent = (s.dentryAt absoluteRoot).parent)
    (hchildMounts : ∀ d, (s'.dentryAt d).childMounts ⊆ (s.dentryAt d).childMounts)
    (hheld : ∀ p ∈ s'.held, p.Valid s) : s'.WellFormed := by
  have hlt : ∀ {e : DentryId}, e < s.dentries → e < s'.dentries := fun he => he.trans_le hdentries
  refine
    { root_eq := hroot.trans h.root_eq
      root_parent := habsolute.trans h.root_parent
      dentries_pos := hlt h.dentries_pos
      mounts_pos := hmounts ▸ h.mounts_pos
      first_mount := hmountAt ▸ h.first_mount
      child_lt := fun d n c hc => hlt (h.child_lt d n c (hchild d n c hc).1)
      child_parent := fun d n c hc =>
        (hchild d n c hc).2.trans (h.child_parent d n c (hchild d n c hc).1)
      child_ne := fun d n c hc => ?_
      parent_lt := fun d e he => ?_
      mount_root := fun m hm h0 => ?_
      mounted_on := fun m hm h0 => ?_
      child_mount := fun d m hm => ?_
      held_valid := fun p hp => ?_ }
  · rw [hmountAt, hmounts]
    exact h.child_ne d n c (hchild d n c hc).1
  · obtain ⟨he', hne⟩ := h.parent_lt d e (hparent d e he)
    exact ⟨hlt he', hne⟩
  · obtain ⟨hr, hne⟩ := h.mount_root m (hmounts ▸ hm) h0
    rw [hmountAt]
    exact ⟨hlt hr, hne⟩
  · obtain ⟨k, hk, e, he, hon, hne⟩ := h.mounted_on m (hmounts ▸ hm) h0
    rw [hmountAt]
    exact ⟨k, hk, e, hlt he, hon, hne⟩
  · rw [hmountAt, hmounts]
    exact h.child_mount d m (hchildMounts d hm)
  · obtain ⟨⟨m, hm, hpm⟩, hdentry⟩ := hheld p hp
    exact ⟨⟨m, hmounts ▸ hm, hpm⟩, fun e he => ⟨hlt (hdentry e he).1, (hdentry e he).2⟩⟩

/-- The counts of links are no part of it. -/
theorem setInodes (h : s.WellFormed) (nlinkAt : InodeId → ℕ) (inodes : ℕ) :
    ({ s with nlinkAt := nlinkAt, inodes := inodes } : Vfs).WellFormed :=
  h.of_fewer rfl le_rfl rfl rfl (fun _ _ _ hc => ⟨hc, rfl⟩) (fun _ _ he => he) rfl
    (fun _ => fun _ hm => hm) h.held_valid

/-- Only the children of one dentry are touched. -/
theorem dentryAt_detach (s : Vfs) (d : DentryId) (name : String) (e : DentryId) :
    (s.detach d name).dentryAt e =
      { s.dentryAt e with
        children := if e = d then (s.dentryAt e).children.erase name else (s.dentryAt e).children } := by
  simp only [Vfs.detach, Function.update_apply]
  split
  · subst e
    rfl
  · rfl

/-- The entries that are left. -/
theorem lookup_detach {d e c : DentryId} {name n : String} :
    ((s.detach d name).dentryAt e).children.lookup n = some c ↔
      (e ≠ d ∨ n ≠ name) ∧ (s.dentryAt e).children.lookup n = some c := by
  rw [dentryAt_detach]
  dsimp only
  split
  · by_cases hn : n = name
    · subst hn
      rw [AList.lookup_erase]
      simp_all
    · rw [AList.lookup_erase_ne hn]
      simp [hn]
  · simp_all

theorem detach (h : s.WellFormed) (d : DentryId) (name : String) :
    (s.detach d name).WellFormed :=
  h.of_fewer rfl le_rfl rfl rfl
    (fun e n c hc => ⟨(lookup_detach.mp hc).2, by rw [dentryAt_detach]⟩)
    (fun e e' he => by rwa [dentryAt_detach] at he) (by rw [dentryAt_detach])
    (fun e => by rw [dentryAt_detach]; exact fun _ hm => hm) h.held_valid

theorem lookup_release {d e c : DentryId} {n : String} :
    ((s.release d).dentryAt e).children.lookup n = some c ↔
      e ≠ d ∧ (s.dentryAt e).children.lookup n = some c := by
  simp only [Vfs.release]
  split
  · simp_all
  · simp_all

theorem release (h : s.WellFormed) {d : DentryId} (hd : ¬ s.Referenced d) :
    (s.release d).WellFormed := by
  have hparent : ∀ e, (s.dentryAt e).parent ≠ some d →
      ((s.release d).dentryAt e).parent = (s.dentryAt e).parent := fun e he => if_neg he
  refine h.of_fewer rfl le_rfl rfl rfl (fun e n c hc => ?_) (fun e e' he => ?_) ?_
    (fun e => fun _ hm => hm) h.held_valid
  · obtain ⟨hne, hc⟩ := lookup_release.mp hc
    refine ⟨hc, hparent c ?_⟩
    rw [h.child_parent e n c hc]
    exact fun heq => hne (Option.some.inj heq)
  · simp only [Vfs.release] at he
    split at he
    · cases he
    · exact he
  · refine hparent absoluteRoot ?_
    rw [h.root_parent]
    exact fun heq => hd (.inl (Option.some.inj heq).symm)

theorem hold (h : s.WellFormed) {p : Path} (hp : p.Valid s) : (s.hold p).WellFormed := by
  refine h.of_fewer rfl le_rfl rfl rfl (fun _ _ _ hc => ⟨hc, rfl⟩) (fun _ _ he => he) rfl
    (fun _ => fun _ hm => hm) fun q hq => ?_
  obtain rfl | hq := List.mem_cons.mp hq
  · exact hp
  · exact h.held_valid q hq

theorem close (h : s.WellFormed) (p : Path) :
    ({ s with held := s.held.erase p } : Vfs).WellFormed :=
  h.of_fewer rfl le_rfl rfl rfl (fun _ _ _ hc => ⟨hc, rfl⟩) (fun _ _ he => he) rfl
    (fun _ => fun _ hm => hm) fun q hq => h.held_valid q (List.mem_of_mem_erase hq)

theorem dentryAt_addRoot (s : Vfs) (e : DentryId) :
    s.addRoot.dentryAt e =
      if e = s.dentries then
        ⟨"tmpfs root. this shouldn't be visible anywhere", s.inodes, sIfdir, .empty, none, ∅, []⟩
      else s.dentryAt e :=
  Function.update_apply _ _ _ _

/-- The new root has no entries. -/
theorem lookup_addRoot {e c : DentryId} {n : String}
    (hc : (s.addRoot.dentryAt e).children.lookup n = some c) :
    (s.dentryAt e).children.lookup n = some c := by
  rw [dentryAt_addRoot] at hc
  split at hc
  · rw [AList.lookup_empty] at hc
    cases hc
  · exact hc

theorem addRoot (h : s.WellFormed) : s.addRoot.WellFormed := by
  refine h.of_fewer rfl (Nat.le_succ _) rfl rfl (fun e n c hc => ?_) (fun e e' he => ?_) ?_
    (fun e => ?_) h.held_valid
  · have hc := lookup_addRoot hc
    exact ⟨hc, by rw [dentryAt_addRoot, if_neg (h.child_lt e n c hc).ne]⟩
  · rw [dentryAt_addRoot] at he
    split at he
    · cases he
    · exact he
  · rw [dentryAt_addRoot, if_neg h.absoluteRoot_lt.ne]
  · rw [dentryAt_addRoot]
    split
    · exact List.nil_subset _
    · exact fun _ hm => hm

/-- Only the list of mounts on one dentry is touched. -/
theorem dentryAt_addMount (s : Vfs) (root : DentryId) (target : Path) (on e : DentryId) :
    (s.addMount root target on).dentryAt e =
      { s.dentryAt e with
        childMounts := if e = on then (s.dentryAt e).childMounts ++ [s.mounts]
          else (s.dentryAt e).childMounts } := by
  simp only [Vfs.addMount, Function.update_apply]
  split
  · subst e
    rfl
  · rfl

theorem mountAt_addMount_of_lt {root on : DentryId} {target : Path} {k : MountId}
    (hk : k < s.mounts) : (s.addMount root target on).mountAt k = s.mountAt k :=
  Function.update_of_ne hk.ne _ _

theorem mountAt_addMount_self {root on : DentryId} {target : Path} :
    (s.addMount root target on).mountAt s.mounts = ⟨root, some target⟩ :=
  Function.update_self _ _ _

/-- A mount of a dentry that is no child and was made before. -/
theorem addMount (h : s.WellFormed) {root on : DentryId} {m : MountId} (hm : m < s.mounts)
    (hon : on < s.dentries) (honne : on ≠ rootfs) (hroot : root < s.dentries) (hrne : root ≠ rootfs)
    (hchild : ∀ d n c, (s.dentryAt d).children.lookup n = some c → root ≠ c) :
    (s.addMount root ⟨some m, some on⟩ on).WellFormed := by
  have hdentry : ∀ e, ((s.addMount root ⟨some m, some on⟩ on).dentryAt e).children =
      (s.dentryAt e).children ∧
      ((s.addMount root ⟨some m, some on⟩ on).dentryAt e).parent = (s.dentryAt e).parent := by
    intro e
    rw [dentryAt_addMount]
    exact ⟨rfl, rfl⟩
  have hsplit : ∀ {k : MountId}, k < s.mounts + 1 → k < s.mounts ∨ k = s.mounts := fun hk =>
    Nat.lt_succ_iff_lt_or_eq.mp hk
  refine
    { root_eq := h.root_eq
      root_parent := (hdentry _).2.trans h.root_parent
      dentries_pos := h.dentries_pos
      mounts_pos := h.mounts_pos.trans (Nat.lt_succ_self _)
      first_mount := (mountAt_addMount_of_lt h.mounts_pos).trans h.first_mount
      child_lt := fun d n c hc => h.child_lt d n c ((hdentry d).1 ▸ hc)
      child_parent := fun d n c hc =>
        (hdentry c).2.trans (h.child_parent d n c ((hdentry d).1 ▸ hc))
      child_ne := fun d n c hc => ?_
      parent_lt := fun d e he => h.parent_lt d e ((hdentry d).2 ▸ he)
      mount_root := fun k hk h0 => ?_
      mounted_on := fun k hk h0 => ?_
      child_mount := fun d k hk => ?_
      held_valid := fun p hp => ?_ }
  · rw [(hdentry d).1] at hc
    obtain ⟨habs, hdev, hroots⟩ := h.child_ne d n c hc
    refine ⟨habs, hdev, fun k hk => ?_⟩
    obtain hk | rfl := hsplit hk
    · rw [mountAt_addMount_of_lt hk]
      exact hroots k hk
    · rw [mountAt_addMount_self]
      exact hchild d n c hc
  · obtain hk | rfl := hsplit hk
    · rw [mountAt_addMount_of_lt hk]
      exact h.mount_root k hk h0
    · rw [mountAt_addMount_self]
      exact ⟨hroot, hrne⟩
  · obtain hk | rfl := hsplit hk
    · rw [mountAt_addMount_of_lt hk]
      exact h.mounted_on k hk h0
    · rw [mountAt_addMount_self]
      exact ⟨m, hm, on, hon, rfl, honne⟩
  · have hkold : ∀ e, k ∈ (s.dentryAt e).childMounts → k < s.mounts + 1 ∧
        ∃ j, ((s.addMount root ⟨some m, some on⟩ on).mountAt k).mountedOn = some ⟨j, some e⟩ := by
      intro e hke
      obtain ⟨hlt, j, hj⟩ := h.child_mount e k hke
      exact ⟨hlt.trans (Nat.lt_succ_self _), j, by rw [mountAt_addMount_of_lt hlt, hj]⟩
    rw [dentryAt_addMount] at hk
    dsimp only at hk
    split at hk
    · subst d
      obtain hk | hk := List.mem_append.mp hk
      · exact hkold on hk
      · obtain rfl := List.mem_singleton.mp hk
        exact ⟨Nat.lt_succ_self _, some m, by rw [mountAt_addMount_self]⟩
    · exact hkold d hk
  · obtain ⟨⟨k, hk, hpk⟩, hpd⟩ := h.held_valid p hp
    exact ⟨⟨k, hk.trans (Nat.lt_succ_self _), hpk⟩, hpd⟩

/-! ## Runs -/

/-- The invariant after an operation that returns, whatever else may become of it. -/
abbrev Keeps (x : Outcome Vfs) : Prop := Sat (fun _ => True) WellFormed x

section

variable {fuel : ℕ} {parent : Option Path}

theorem held_parent (h : s.WellFormed) (hparent : ∀ p ∈ parent, p ∈ s.held) :
    ∀ p ∈ parent, p.Valid s :=
  fun p hp => h.held_valid p (hparent p hp)

theorem resolve_valid (h : s.WellFormed) (hparent : ∀ p ∈ parent, p.Valid s) (path : PathName) :
    Sat (fun _ => True) (fun r => r.parent.Valid s ∧ r.target.Valid s)
      (s.resolve fuel parent path) :=
  (h.closed.resolve fuel hparent path).mono (fun _ _ => trivial) fun _ hr => hr

theorem realParent_valid (h : s.WellFormed) (hparent : ∀ p ∈ parent, p.Valid s) (path : PathName) :
    Sat (fun _ => True) (Path.Valid s) (s.realParent fuel parent path) := by
  refine (h.resolve_valid hparent path).attempt.bind ?_
  rintro (_ | _) -
  · exact (h.resolve_valid hparent path.dirname).bind fun r hr => sat_pure hr.2
  · exact sat_throw _

/-- What an entry under a valid path makes: a valid path to hold. -/
theorem enter_keeps (h : s.WellFormed) {p : Path} (hp : p.Valid s) {nlinkAt : InodeId → ℕ}
    {inodes : ℕ} (name : String) (inode : InodeId) (stMode : ℕ) (symlinkedTo : PathName) :
    Sat (fun _ => True) (fun r => (r.2.hold r.1).WellFormed)
      (({ s with nlinkAt := nlinkAt, inodes := inodes } : Vfs).enter p name inode stMode
        symlinkedTo) := by
  obtain ⟨⟨m, hm, hpm⟩, hdentry⟩ := hp
  rcases hd : p.dentry with _ | d
  · simp only [enter, hpm, derefMount, Outcome.pure_bind, hd]
    exact sat_stop trivial
  · obtain ⟨hlt, hne⟩ := hdentry d hd
    have hbase := h.setInodes nlinkAt inodes
    simp only [enter, hpm, derefMount, Outcome.pure_bind, hd]
    refine sat_pure ((hbase.attach hlt hne name inode stMode symlinkedTo).hold ⟨⟨m, hm, rfl⟩, ?_⟩)
    rintro _ ⟨⟩
    exact ⟨Nat.lt_succ_self _, (lt_trans (by decide) h.dentries_pos).ne'⟩

theorem unlink_keeps (h : s.WellFormed) (hparent : ∀ p ∈ parent, p.Valid s) (path : PathName) :
    Keeps (s.unlink fuel parent path) := by
  refine (h.resolve_valid hparent path).bind fun res _ => ?_
  refine (sat_trivial (s.checkUnlink res.target)).bind fun _ _ => ?_
  refine (sat_trivial (s.derefDentry res.target.dentry)).bind fun target _ => ?_
  split
  · exact sat_stop trivial
  · exact .ite (fun _ => sat_stop trivial) fun _ => sat_pure ((h.setInodes _ _).detach _ _)

theorem mount_keeps (h : s.WellFormed) (source target : PathName) (fstype : String) :
    Keeps (s.mount fuel source target fstype) := by
  refine .ite (fun _ => sat_throw _) fun _ => ?_
  refine (sat_trivial (s.checkSource fuel source)).bind fun _ _ => ?_
  have hpath : Sat (fun _ => True) (Path.Valid s) (s.pathFor fuel target) :=
    (h.resolve_valid (by rintro _ ⟨⟩; exact h.root_valid) target).bind fun r hr => sat_pure hr.2
  refine hpath.bind fun p hp => ?_
  obtain ⟨⟨m, hm, hpm⟩, hdentry⟩ := hp
  obtain ⟨_, _ | on⟩ := p
  · exact sat_stop trivial
  · cases hpm
    obtain ⟨hon, honne⟩ := hdentry on rfl
    refine .ite (fun _ => sat_throw _) fun _ => .ite (fun _ => sat_pure ?_) fun _ => sat_pure ?_
    · refine h.addRoot.addMount hm (hon.trans (Nat.lt_succ_self _)) honne (Nat.lt_succ_self _)
        (lt_trans (by decide) h.dentries_pos).ne' fun d n c hc heq => ?_
      exact (h.child_lt d n c (lookup_addRoot hc)).ne' heq
    · exact h.addMount hm hon honne h.dentries_pos (by decide)
        fun d n c hc => (h.child_ne d n c hc).2.1.symm

theorem link_keeps (h : s.WellFormed) (hparent : ∀ p ∈ parent, p.Valid s) (src : PathName)
    (tgtparent : Option Path) (target : PathName) (followLinks : Bool) :
    Sat (fun _ => True) (fun r => (r.2.hold r.1).WellFormed)
      (s.link fuel parent src tgtparent target followLinks) := by
  refine (h.realParent_valid hparent src).bind fun rp hrp => ?_
  refine (sat_trivial _).bind fun t _ => (sat_trivial _).bind fun d _ => ?_
  exact .ite (fun _ => sat_throw _) fun _ => .ite (fun _ => sat_throw _) fun _ =>
    h.enter_keeps hrp _ _ _ _

end

/-- What a step does to the invariant. -/
theorem exec_keeps (h : s.WellFormed) (fuel : ℕ) {op : Op} (henabled : op.Enabled s) :
    Keeps (s.exec fuel op) := by
  cases op with
  | lookup parent path follow =>
      have hp := h.held_parent henabled
      have hlookup : Sat (fun _ => True) (Path.Valid s) (s.lookup fuel parent path follow) := by
        refine (h.resolve_valid hp path).bind fun r hr => .ite (fun _ => ?_) fun _ => sat_pure hr.2
        exact (h.closed.reduce fuel hr.1 hr.2 symloopMax).mono (fun _ _ => trivial) fun _ hq => hq
      exact hlookup.bind fun p hp => sat_pure (h.hold hp)
  | create parent path mode dev =>
      have hp := h.held_parent henabled
      refine Sat.bind (P := fun r => (r.2.hold r.1).WellFormed) ?_ fun r hr => sat_pure hr
      exact (sat_trivial (s.checkDev mode dev)).bind fun _ _ =>
        (h.realParent_valid hp path).bind fun rp hrp => h.enter_keeps hrp _ _ _ _
  | symlink parent src target =>
      have hp := h.held_parent henabled
      refine Sat.bind (P := fun r => (r.2.hold r.1).WellFormed) ?_ fun r hr => sat_pure hr
      exact (h.realParent_valid hp src).bind fun rp hrp => h.enter_keeps hrp _ _ _ _
  | link parent src tgtparent target followLinks =>
      have hp := h.held_parent henabled.1
      exact (h.link_keeps hp src tgtparent target followLinks).bind fun r hr => sat_pure hr
  | unlink parent path => exact h.unlink_keeps (h.held_parent henabled) path
  | mount source target fstype => exact h.mount_keeps source target fstype
  | close p => exact sat_pure (h.close p)
  | release d => exact sat_pure (h.release henabled)

theorem boot (cdevs : List ℕ) : (boot cdevs).WellFormed := by
  have hempty : ∀ d n c, ((Vfs.boot cdevs).dentryAt d).children.lookup n ≠ some c := by
    intro d n c hc
    have hnone : ((Vfs.boot cdevs).dentryAt d).children.lookup n = none := AList.lookup_empty n
    cases hnone.symm.trans hc
  refine
    { root_eq := rfl
      root_parent := rfl
      dentries_pos := Nat.lt_succ_self 2
      mounts_pos := Nat.one_pos
      first_mount := rfl
      child_lt := fun d n c hc => absurd hc (hempty d n c)
      child_parent := fun d n c hc => absurd hc (hempty d n c)
      child_ne := fun d n c hc => absurd hc (hempty d n c)
      parent_lt := fun d e he => ?_
      mount_root := fun m hm h0 => absurd (Nat.lt_one_iff.mp hm) h0
      mounted_on := fun m hm h0 => absurd (Nat.lt_one_iff.mp hm) h0
      child_mount := fun d m hm => ?_
      held_valid := fun p hp => ?_ }
  · simp only [Vfs.boot] at he
    split at he
    · cases he
      exact ⟨Nat.succ_pos 2, by decide⟩
    · cases he
  · simp only [Vfs.boot] at hm
    split at hm
    · obtain rfl := List.mem_singleton.mp hm
      subst d
      exact ⟨Nat.one_pos, none, rfl⟩
    · cases hm
  · obtain rfl := List.mem_singleton.mp hp
    refine ⟨⟨0, Nat.one_pos, rfl⟩, ?_⟩
    rintro _ ⟨⟩
    exact ⟨Nat.succ_pos 2, by decide⟩

end WellFormed

theorem reachable_wellFormed {cdevs : List ℕ} {s : Vfs} (h : (system cdevs).Reachable s) :
    s.WellFormed := by
  refine h.invariant (I := WellFormed) ?_ ?_
  · rintro s rfl
    exact .boot cdevs
  · rintro s op s' - hs ⟨henabled, fuel, hexec⟩
    exact (hs.exec_keeps fuel henabled).of_eq hexec

/-- Operations that can be done in any state, one after the other. -/
theorem reachable_of_foldlM {cdevs : List ℕ} (fuel : ℕ) (ops : List Op)
    (hops : ∀ op ∈ ops, ∀ s, op.Enabled s) {s s' : Vfs} (hs : (system cdevs).Reachable s)
    (h : ops.foldlM (fun s op => s.exec fuel op) s = pure s') : (system cdevs).Reachable s' := by
  induction ops generalizing s with
  | nil => exact pure_inj h ▸ hs
  | cons op ops ih =>
      rw [List.foldlM_cons] at h
      obtain ⟨t, ht, h⟩ := bind_eq_pure.mp h
      have hop := hops op (List.mem_cons_self ..) s
      exact ih (fun o ho => hops o (List.mem_cons_of_mem op ho)) (hs.step ⟨hop, fuel, ht⟩) h

end Vfs

end Ilobilix.Fs
