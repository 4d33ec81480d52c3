import Ilobilix.Fs.Vfs.Steps

/-!
# Names of paths

`pathname_from` builds the name of a path upwards, through the parents of dentries and the places of
mounts, and `resolve` goes down through children and the mounts on them. The two are inverse on
`Placed` paths, which are those that a walk from the root can come to, unless the path is `Hidden`: a
file system is mounted on it or on a directory above it, so that its name leads into that file system.

A walk should not come to a hidden path, but it does where `..` climbs out of a mount whose root it
has reached, which is the defect of the dot-dot law.
-/

namespace Ilobilix.Fs

open Outcome

namespace Vfs

variable {s : Vfs}

/-- The loop of `pathname_from`, with the names that it has found so far. -/
def pathnameLoop (s : Vfs) : ℕ → List String → Path → Outcome PathName
  | 0, _, _ => stop .fuel
  | fuel + 1, names, path => do
    let path ← s.resolveMounts path
    if path.dentry = some absoluteRoot then pure (.absolute names)
    else
      let dentry ← s.derefDentry path.dentry
      s.pathnameLoop fuel (dentry.name :: names) { path with dentry := dentry.parent }

/-- `pathname_from`, with the text it returns as the path it stands for. `getcwd` returns this text for
the working directory, if there is room for it. -/
def pathnameFrom (s : Vfs) (fuel : ℕ) (path : Path) : Outcome PathName := s.pathnameLoop fuel [] path

/-! ## Places -/

/-- What a walk from the root can come to, with the names on the way: children of directories, and
what a climb out of mounts leads to. -/
inductive Placed (s : Vfs) : List String → Path → Prop
  | root : Placed s [] s.root
  | child {names : List String} {p q : Path} {name : String} (hp : Placed s names p)
      (hdir : s.IsDir p) (hq : s.child p name = pure q) : Placed s (names ++ [name]) q
  | climb {names : List String} {p q : Path} (hp : Placed s names p)
      (hq : s.resolveMounts p = pure q) : Placed s names q

/-- Another file system than the first one is mounted on the path. -/
def Covered (s : Vfs) (p : Path) : Prop :=
  p ≠ s.root ∧ ∃ m < s.mounts, m ≠ 0 ∧ (s.mountAt m).mountedOn = some p

/-- A file system is mounted on the path or on a directory above it. -/
inductive Hidden (s : Vfs) : Path → Prop
  | covered {p : Path} (hp : s.Covered p) : Hidden s p
  | inside {p q : Path} {name : String} (hp : Hidden s p) (hq : s.child p name = pure q) : Hidden s q

/-- The names lead to the path from the root, without a symbolic link on the way. -/
def LeadsTo (s : Vfs) (names : List String) (p : Path) : Prop :=
  ∃ r, s.resolveWith (fun _ _ => throw .invalidSymlink) (some s.root) (.absolute names) = pure r ∧
    r.target = p

namespace WellFormed

theorem resolveMounts_root (h : s.WellFormed) : s.resolveMounts s.root = pure s.root := by
  refine resolveMounts_of_not_atRoot h.root_valid ?_
  rintro ⟨m, hm, hd⟩
  exact h.ne_zero_of_atRoot h.root_valid hm hd (by rw [h.root_eq] at hm; exact (Option.some.inj hm).symm)

/-- A climb that has ended goes no further. -/
theorem resolveMounts_idem (h : s.WellFormed) {p q : Path} (hp : p.Valid s)
    (hq : s.resolveMounts p = pure q) : s.resolveMounts q = pure q := by
  obtain ⟨q', hq', hv, hnot, -⟩ := h.exists_resolveMounts hp
  obtain rfl := pure_inj (hq.symm.trans hq')
  exact resolveMounts_of_not_atRoot hv hnot

theorem resolveMounts_valid (h : s.WellFormed) {p q : Path} (hp : p.Valid s)
    (hq : s.resolveMounts p = pure q) : q.Valid s := by
  obtain ⟨q', hq', hv, -⟩ := h.exists_resolveMounts hp
  exact pure_inj (hq.symm.trans hq') ▸ hv

/-- A climb stays where it is, or ends where a file system is mounted. -/
theorem resolveMounts_cases (h : s.WellFormed) {p q : Path} (hp : p.Valid s)
    (hq : s.resolveMounts p = pure q) :
    q = p ∨ ∃ m < s.mounts, m ≠ 0 ∧ (s.mountAt m).mountedOn = some q := by
  obtain ⟨m, hm, hpm⟩ := hp.mnt
  induction m using Nat.strong_induction_on generalizing p with
  | _ m ih =>
      by_cases hroot : s.AtRoot p
      · obtain ⟨m', hm', hd⟩ := hroot
        obtain rfl : m = m' := Option.some.inj (hpm.symm.trans hm')
        have h0 := h.ne_zero_of_atRoot hp hpm hd
        obtain ⟨k, hk, d, hon, hv⟩ := h.mountedOn_valid hm h0
        rw [h.resolveMounts_of_atRoot hp hpm hd hon] at hq
        -- one mount further out
        obtain rfl | hfar := ih k hk hv hq (hk.trans hm) rfl
        · exact .inr ⟨m, hm, h0, hon⟩
        · exact .inr hfar
      · exact .inl (pure_inj (hq.symm.trans (resolveMounts_of_not_atRoot hp hroot)))

end WellFormed

/-- Mounts are on directories, so a climb from a directory ends at one. -/
theorem Tidy.isDir_resolveMounts (ht : s.Tidy) (h : s.WellFormed) {p q : Path} (hp : p.Valid s)
    (hdir : s.IsDir p) (hq : s.resolveMounts p = pure q) : s.IsDir q := by
  obtain rfl | ⟨m, hm, h0, hon⟩ := h.resolveMounts_cases hp hq
  · exact hdir
  · obtain ⟨k, -, d, hon', -⟩ := h.mountedOn_valid hm h0
    obtain rfl : (⟨some k, some d⟩ : Path) = q := Option.some.inj (hon'.symm.trans hon)
    exact ⟨d, rfl, ht.on_dir m hm _ d hon'⟩

namespace Placed

variable {names : List String} {q : Path}

theorem valid (h : s.WellFormed) (hq : s.Placed names q) : q.Valid s := by
  induction hq with
  | root => exact h.root_valid
  | child hp hdir hq ih => exact (h.closed.child _ _ ih).of_eq hq
  | climb hp hq ih => exact h.resolveMounts_valid ih hq

theorem dentry_ne_none (h : s.WellFormed) (hq : s.Placed names q) : q.dentry ≠ none := by
  induction hq with
  | root => simp [h.root_eq]
  | @child _ p q name hp hdir hq ih =>
      obtain ⟨d, c, hd, hlookup, -⟩ := h.of_child_eq (hp.valid h) hq
      obtain ⟨q', hq', -, hne, -⟩ := h.exists_child (hp.valid h) hd hlookup
      exact pure_inj (hq.symm.trans hq') ▸ hne
  | climb hp hq ih =>
      obtain ⟨q', hq', -, -, hnone⟩ := h.exists_resolveMounts (hp.valid h)
      obtain rfl := pure_inj (hq.symm.trans hq')
      exact fun hn => ih (hnone hn)

/-- Up from a place is a directory with a place. -/
theorem exists_dotdot (h : s.WellFormed) (ht : s.Tidy) (hq : s.Placed names q) :
    ∃ r, s.dotdot q = pure r ∧ s.IsDir r ∧ ∃ names, s.Placed names r := by
  induction hq with
  | root =>
      refine ⟨s.root, h.dotdot_root, ⟨absoluteRoot, ?_, ht.absolute_dir⟩, [], .root⟩
      rw [h.root_eq]
  | @child names p q name hp hdir hq ih =>
      obtain ⟨r, hr, -⟩ := h.exists_resolveMounts (hp.valid h)
      refine ⟨r, ?_, ht.isDir_resolveMounts h (hp.valid h) hdir hr, names, hp.climb hr⟩
      rw [h.dotdot_child (hp.valid h) hq, hr]
  | @climb names p q hp hq ih =>
      obtain ⟨r, hr, hrest⟩ := ih
      refine ⟨r, ?_, hrest⟩
      rw [← hr]
      simp only [dotdot, hq, h.resolveMounts_idem (hp.valid h) hq]

/-- A walk from the root stays among the places. It looks up names in directories only, and does not
stop at a null pointer. -/
theorem closedIn (h : s.WellFormed) (ht : s.Tidy) :
    s.ClosedIn (· = .fuel) (fun p => (∃ names, s.Placed names p) ∧ s.IsDir p)
      fun p => ∃ names, s.Placed names p where
  fuel := rfl
  root := ⟨⟨[], .root⟩, absoluteRoot, by rw [h.root_eq], ht.absolute_dir⟩
  mnt p hp := by
    obtain ⟨⟨names, hp⟩, -⟩ := hp
    exact WellFormed.mnt_ne_none (hp.valid h)
  sub p hp := hp.1
  dir p hp hdir := ⟨hp, hdir⟩
  deref p hp := by
    obtain ⟨names, hp⟩ := hp
    obtain ⟨d, hd⟩ := Option.ne_none_iff_exists'.mp (hp.dentry_ne_none h)
    rw [hd]
    exact sat_pure trivial
  child p name hp := by
    obtain ⟨⟨names, hp⟩, hdir⟩ := hp
    obtain ⟨d, hd, -⟩ := id hdir
    rcases hlookup : (s.dentryAt d).children.lookup name with _ | c
    · rw [WellFormed.child_eq_throw (hp.valid h) hd hlookup]
      exact sat_throw _
    · obtain ⟨q, hq, -⟩ := h.exists_child (hp.valid h) hd hlookup
      rw [hq]
      exact sat_pure ⟨_, hp.child hdir hq⟩
  dotdot p hp := by
    obtain ⟨⟨names, hp⟩, -⟩ := hp
    obtain ⟨r, hr, hdir, hplaced⟩ := hp.exists_dotdot h ht
    rw [hr]
    exact sat_pure ⟨hplaced, hdir⟩

/-! ## The name of a place -/

/-- The name of a child is the name of its parent and its own name. -/
theorem pathnameLoop_child (h : s.WellFormed) (ht : s.Tidy) {p : Path} (hp : p.Valid s)
    {name : String} (hq : s.child p name = pure q) (fuel : ℕ) (acc : List String) :
    s.pathnameLoop (fuel + 1) acc q = s.pathnameLoop fuel (name :: acc) p := by
  obtain ⟨d, c, hd, hlookup, hback⟩ := h.of_child_eq hp hq
  have hne : (some c : Option DentryId) ≠ some absoluteRoot := fun heq =>
    (h.child_ne d name c hlookup).1 (Option.some.inj heq)
  simp only [pathnameLoop, hback, Outcome.pure_bind, if_neg hne, derefDentry,
    ht.child_name d name c hlookup, h.child_parent d name c hlookup, ← hd]

/-- The name of a place, as `pathname_from` finds it, is the names on the way to it. -/
theorem pathnameLoop_eq (h : s.WellFormed) (ht : s.Tidy) (hq : s.Placed names q) :
    ∃ N, ∀ fuel, N ≤ fuel → ∀ acc, s.pathnameLoop fuel acc q = pure (.absolute (names ++ acc)) := by
  induction hq with
  | root =>
      refine ⟨1, fun fuel hfuel acc => ?_⟩
      obtain ⟨n, rfl⟩ := Nat.exists_eq_add_of_le' hfuel
      have hroot : s.root.dentry = some absoluteRoot := by rw [h.root_eq]
      simp only [pathnameLoop, h.resolveMounts_root, Outcome.pure_bind, hroot, if_true, List.nil_append]
  | @child names p q name hp hdir hq ih =>
      obtain ⟨N, hN⟩ := ih
      refine ⟨N + 1, fun fuel hfuel acc => ?_⟩
      obtain ⟨n, rfl⟩ := Nat.exists_eq_add_of_le' (le_trans (Nat.le_add_left 1 N) hfuel)
      rw [pathnameLoop_child h ht (hp.valid h) hq, hN n (Nat.le_of_succ_le_succ hfuel),
        List.append_assoc, List.singleton_append]
  | @climb names p q hp hq ih =>
      obtain ⟨N, hN⟩ := ih
      refine ⟨N + 1, fun fuel hfuel acc => ?_⟩
      obtain ⟨n, rfl⟩ := Nat.exists_eq_add_of_le' (le_trans (Nat.le_add_left 1 N) hfuel)
      -- the turn begins with the same climb
      rw [← hN (n + 1) (le_trans (Nat.le_succ N) hfuel) acc]
      simp only [pathnameLoop, hq, h.resolveMounts_idem (hp.valid h) hq]

theorem pathnameFrom_returns (h : s.WellFormed) (ht : s.Tidy) (hq : s.Placed names q) :
    Returns (fun fuel => s.pathnameFrom fuel q) (.ok (.absolute names)) := by
  obtain ⟨N, hN⟩ := hq.pathnameLoop_eq h ht
  refine ⟨N, fun fuel hfuel => ?_⟩
  have heq := hN fuel hfuel []
  rw [List.append_nil] at heq
  exact heq

theorem names_unique (h : s.WellFormed) (ht : s.Tidy) {names' : List String}
    (hq : s.Placed names q) (hq' : s.Placed names' q) : names = names' := by
  have heq := (hq.pathnameFrom_returns h ht).unique (hq'.pathnameFrom_returns h ht)
  cases heq
  rfl

theorem normal (h : s.WellFormed)
    (hproper : ∀ d n c, (s.dentryAt d).children.lookup n = some c → Proper n)
    (hq : s.Placed names q) : (PathName.absolute names).Normal := by
  induction hq with
  | root => rintro name ⟨⟩
  | @child names p q name hp hdir hq ih =>
      obtain ⟨d, c, -, hlookup, -⟩ := h.of_child_eq (hp.valid h) hq
      intro n hn
      obtain hn | hn := List.mem_append.mp hn
      · exact ih n hn
      · obtain rfl := List.mem_singleton.mp hn
        exact hproper d n c hlookup
  | climb hp hq ih => exact ih

end Placed

/-! ## The way back -/

namespace LeadsTo

variable {names : List String} {p : Path}

theorem root : s.LeadsTo [] s.root := ⟨_, rfl, rfl⟩

theorem child (h : s.WellFormed) (hp : s.LeadsTo names p) (hdir : s.IsDir p) {q : Path}
    {name : String} (hq : s.child p name = pure q) : s.LeadsTo (names ++ [name]) q := by
  obtain ⟨r, hr, rfl⟩ := hp
  have hmnt := WellFormed.mnt_ne_none h.root_valid
  have hwalk : ∀ {names : List String}, names ≠ [] →
      s.resolveWith (fun _ _ => throw .invalidSymlink) (some s.root) (.absolute names) =
        s.walk (fun _ _ => throw .invalidSymlink) s.root (names.map .name) := by
    intro names hne
    simp only [resolveWith, start, PathName.isAbsolute, if_true, PathName.segments, List.map_eq_nil_iff,
      if_neg hne, if_neg hmnt]
  refine ⟨⟨r.target, q⟩, ?_, rfl⟩
  rw [hwalk (by simp), List.map_append, List.map_singleton]
  by_cases hne : names = []
  · subst hne
    obtain rfl := pure_inj hr
    change s.finish s.root (.name name) = _
    simp only [finish, start, PathName.isAbsolute, if_true] at hq ⊢
    rw [hq, Outcome.pure_bind]
  · rw [hwalk hne] at hr
    rw [walk_snoc _ (by simpa using hne) _ hr (.inr hdir)]
    simp only [finish, hq, Outcome.pure_bind]

/-- What is found without symbolic links is found. -/
theorem resolvesTo (h : s.WellFormed) (hp : s.LeadsTo names p) :
    s.ResolvesTo (some s.root) (.absolute names) p := by
  obtain ⟨r, hr, rfl⟩ := hp
  have hsame : Extends s s :=
    ⟨rfl, rfl, rfl, fun _ _ => rfl, fun _ _ => rfl, fun _ _ => rfl, fun _ _ => rfl, fun _ _ _ _ hc => hc⟩
  have hparent : ∀ p ∈ some s.root, p.Valid s := by
    rintro _ ⟨⟩
    exact h.root_valid
  refine resolvesTo_iff.mpr ⟨0, r, ?_, rfl⟩
  exact hsame.resolveWith h (fun _ _ _ _ => .of_throw _ _) (fun _ _ _ _ => sat_throw _) hparent _ r hr

end LeadsTo

/-- After the mounts are entered, none is left to enter. -/
theorem enterMounts_find {n : ℕ} : ∀ {mnt : Option MountId} {d : DentryId} {q : Path},
    s.enterMounts n mnt d = pure q → ∃ e, q.dentry = some e ∧
      (s.dentryAt e).childMounts.find?
        (fun m => (s.mountAt m).mountedOn.map Path.mnt = some q.mnt) = none := by
  induction n with
  | zero =>
      intro mnt d q hq
      unfold enterMounts at hq
      split at hq
      · cases hq
        exact ⟨d, rfl, ‹_›⟩
      · exact absurd hq stop_ne_pure
  | succ n ih =>
      intro mnt d q hq
      unfold enterMounts at hq
      split at hq
      · cases hq
        exact ⟨d, rfl, ‹_›⟩
      · exact ih hq

namespace Hidden

variable {p q : Path} {name : String}

theorem valid (h : s.WellFormed) (hp : s.Hidden p) : p.Valid s := by
  induction hp with
  | covered hp =>
      obtain ⟨-, m, hm, h0, hon⟩ := hp
      obtain ⟨k, -, d, hon', hv⟩ := h.mountedOn_valid hm h0
      exact Option.some.inj (hon'.symm.trans hon) ▸ hv
  | inside hp hq ih => exact (h.closed.child _ _ ih).of_eq hq

/-- The parent of a child is the only one. -/
theorem parent_unique (h : s.WellFormed) {p' : Path} {name' : String} (hp : p.Valid s)
    (hp' : p'.Valid s) (hq : s.child p name = pure q) (hq' : s.child p' name' = pure q) : p = p' := by
  obtain ⟨d, c, hd, hlookup, hback⟩ := h.of_child_eq hp hq
  obtain ⟨d', c', hd', hlookup', hback'⟩ := h.of_child_eq hp' hq'
  have heq := pure_inj (hback.symm.trans hback')
  obtain rfl : c = c' := Option.some.inj (congrArg Path.dentry heq)
  have hmnt : p.mnt = p'.mnt := (Path.mk.inj heq).1
  have hparent : some d = some d' :=
    (h.child_parent d name c hlookup).symm.trans (h.child_parent d' name' c hlookup')
  cases p
  cases p'
  simp_all

theorem not_root (h : s.WellFormed) : ¬ s.Hidden s.root := by
  intro hroot
  generalize hr : s.root = r at hroot
  cases hroot with
  | covered hp => exact hp.1 hr.symm
  | inside hp hq =>
      obtain ⟨d, c, -, hlookup, hback⟩ := h.of_child_eq (hp.valid h) hq
      rw [← hr, h.resolveMounts_root] at hback
      have hc := congrArg Path.dentry (pure_inj hback)
      rw [h.root_eq] at hc
      exact (h.child_ne _ _ c hlookup).1 (Option.some.inj hc).symm

/-- Nothing hides a child but what hides its parent: the mounts on the child are entered. -/
theorem of_child (h : s.WellFormed) (ht : s.Tidy) (hp : p.Valid s) (hchild : s.child p name = pure q)
    (hq : s.Hidden q) : s.Hidden p := by
  cases hq with
  | covered hcovered =>
      obtain ⟨-, m, hm, -, hon⟩ := hcovered
      obtain ⟨d, c, hd, hlookup, -⟩ := h.of_child_eq hp hchild
      simp only [Vfs.child, hd, derefDentry, Outcome.pure_bind, hlookup] at hchild
      obtain ⟨e, he, hfind⟩ := enterMounts_find hchild
      have hon' : (s.mountAt m).mountedOn = some ⟨q.mnt, some e⟩ := by rw [hon, ← he]
      have hmem := ht.listed m hm q.mnt e hon'
      have hnone := List.find?_eq_none.mp hfind m hmem
      simp [hon] at hnone
  | inside hp' hq' => exact parent_unique h hp (hp'.valid h) hchild hq' ▸ hp'

/-- A walk by names that meets no symbolic link does not come to a hidden path. -/
theorem not_of_walk (h : s.WellFormed) (ht : s.Tidy) (names : List String) :
    ∀ {current : Path} {r : ResolveRes}, current.Valid s → ¬ s.Hidden current →
      s.walk (fun _ _ => throw .invalidSymlink) current (names.map .name) = pure r →
      ¬ s.Hidden r.target := by
  induction names with
  | nil =>
      intro current r _ _ hr
      exact absurd hr throw_ne_pure
  | cons name names ih =>
      intro current r hcurrent hnot hr
      by_cases hnames : names = []
      · subst hnames
        obtain ⟨next, hnext, hr⟩ := bind_eq_pure.mp hr
        cases hr
        exact fun hhidden => hnot (hhidden.of_child h ht hcurrent hnext)
      · rw [List.map_cons, walk_cons current _ (by simpa using hnames)] at hr
        obtain ⟨next, hnext, hr⟩ := bind_eq_pure.mp hr
        obtain ⟨c, hc, hnext⟩ := bind_eq_pure.mp hnext
        have hvalid : c.Valid s := (h.closed.child current name hcurrent).of_eq hc
        have hsame : next = c := by
          obtain ⟨f, hf, hnext⟩ := bind_eq_pure.mp hnext
          obtain ⟨_, -, hf⟩ := bind_eq_pure.mp hf
          split at hf
          · exact absurd hf throw_ne_pure
          · obtain rfl := pure_inj hf
            obtain ⟨_, -, hnext⟩ := bind_eq_pure.mp hnext
            split at hnext
            · exact (pure_inj hnext).symm
            · exact absurd hnext throw_ne_pure
        subst hsame
        exact ih hvalid (fun hhidden => hnot (hhidden.of_child h ht hcurrent hc)) hr

end Hidden

/-- The names of a place lead back to it, without symbolic links, if and only if it is not hidden. -/
theorem Placed.leadsTo_iff (h : s.WellFormed) (ht : s.Tidy) {names : List String} {q : Path}
    (hq : s.Placed names q) : s.LeadsTo names q ↔ ¬ s.Hidden q := by
  constructor
  · rintro ⟨r, hr, rfl⟩
    by_cases hne : names = []
    · subst hne
      obtain rfl := pure_inj hr
      exact Hidden.not_root h
    · have hmnt := WellFormed.mnt_ne_none h.root_valid
      simp only [resolveWith, start, PathName.isAbsolute, if_true, PathName.segments,
        List.map_eq_nil_iff, if_neg hne, if_neg hmnt] at hr
      exact Hidden.not_of_walk h ht names h.root_valid (Hidden.not_root h) hr
  · intro hnot
    induction hq with
    | root => exact .root
    | child hp hdir hq ih => exact (ih fun hhidden => hnot (hhidden.inside hq)).child h hdir hq
    | @climb names p q hp hq ih =>
        obtain rfl | ⟨m, hm, h0, hon⟩ := h.resolveMounts_cases (hp.valid h) hq
        · exact ih hnot
        · -- a place under a mount is hidden, unless it is the root
          by_cases hroot : q = s.root
          · subst hroot
            obtain rfl := (hp.climb hq).names_unique h ht .root
            exact .root
          · exact absurd (.covered ⟨hroot, m, hm, h0, hon⟩) hnot

/-- What a walk from the root finds, or what a link found there is reduced to, is a place. -/
theorem placed_of_lookup (h : s.WellFormed) (ht : s.Tidy) {path : PathName} {follow : Bool} {q : Path}
    (hq : Returns (fun fuel => s.lookup fuel (some s.root) path follow) (.ok q)) :
    ∃ names, s.Placed names q := by
  obtain ⟨N, hN⟩ := hq
  obtain ⟨res, hres, hq⟩ := bind_eq_pure.mp (hN N le_rfl)
  have hclosed := Placed.closedIn h ht
  obtain ⟨hparent, htarget⟩ := (hclosed.resolve N (by rintro _ ⟨⟩; exact hclosed.root) path).of_eq hres
  split at hq
  · exact (hclosed.reduce N hparent htarget symloopMax).of_eq hq
  · exact pure_inj hq ▸ htarget

/-- `pathname_from` returns for every path that is found from the root, and never meets a null mount.
Its name is normal and leads back to the path, unless the path is hidden; to a hidden path it does not
lead without a symbolic link on the way. -/
theorem pathname_round_trip {cdevs : List ℕ}
    (hs : ((system cdevs).restrict fun _ op => op.Normal).Reachable s) {path : PathName}
    {follow : Bool} {q : Path}
    (hq : Returns (fun fuel => s.lookup fuel (some s.root) path follow) (.ok q)) :
    ∃ names, Returns (fun fuel => s.pathnameFrom fuel q) (.ok (.absolute names)) ∧
      (PathName.absolute names).Normal ∧
      (¬ s.Hidden q → s.ResolvesTo (some s.root) (.absolute names) q) ∧
      (s.Hidden q → ¬ s.LeadsTo names q) := by
  have h := reachable_wellFormed hs.of_restrict
  have ht := reachable_tidy hs.of_restrict
  obtain ⟨names, hplaced⟩ := placed_of_lookup h ht hq
  have hiff := hplaced.leadsTo_iff h ht
  exact ⟨names, hplaced.pathnameFrom_returns h ht, hplaced.normal h (reachable_proper hs),
    fun hnot => (hiff.mpr hnot).resolvesTo h, fun hhidden hleads => hiff.mp hleads hhidden⟩

/-- `/dev/foo` is a directory under the mount on `/dev`. A symbolic link `/dev/c/l` to `..` leads out
of the mount, and `/dev/c/l/foo` to the directory, whose name is then not found. -/
theorem pathname_lost : ∃ s, ((system []).restrict fun _ op => op.Normal).Reachable s ∧ ∃ q,
    s.ResolvesTo (some s.root) (.absolute ["dev", "c", "l", "foo"]) q ∧ s.IsDir q ∧
    Returns (fun fuel => s.pathnameFrom fuel q) (.ok (.absolute ["dev", "foo"])) ∧
    ¬ s.ResolvesTo (some s.root) (.absolute ["dev", "foo"]) q := by
  refine ⟨_, normal_of_foldlM 0
    [.create none (.absolute ["dev"]) sIfdir 0, .create none (.absolute ["dev", "foo"]) sIfdir 0,
      .mount .empty (.absolute ["dev"]) "devtmpfs", .create none (.absolute ["dev", "c"]) sIfdir 0,
      .symlink none (.absolute ["dev", "c", "l"]) (.relative 1 [])] ?_ (.init rfl) rfl,
    ⟨some 0, some 4⟩, resolvesTo_iff.mpr ⟨1, _, rfl, rfl⟩, ⟨4, rfl, by decide⟩, ?_, ?_⟩
  · simp [Op.Normal, PathName.Normal, PathName.names, Proper, Op.Enabled]
  · refine ⟨3, fun fuel hfuel => ?_⟩
    obtain ⟨n, rfl⟩ := Nat.exists_eq_add_of_le' hfuel
    rfl
  · rintro ⟨r, hr, -⟩
    have herror := hr.unique ((resolve_fuelMono _ _ (.absolute ["dev", "foo"])).returns_iff.mpr
      ⟨0, (rfl : _ = Except.ok (Except.error VfsError.notFound))⟩)
    cases herror

/-- The root of the file system on `/dev` is not hidden, and its name leads back. -/
theorem pathname_mount_root : ∃ s, ((system []).restrict fun _ op => op.Normal).Reachable s ∧
    ∃ names, Returns (fun fuel => s.pathnameFrom fuel ⟨some 1, some devtmpfsRoot⟩)
        (.ok (.absolute names)) ∧
      s.ResolvesTo (some s.root) (.absolute names) ⟨some 1, some devtmpfsRoot⟩ := by
  obtain ⟨s, hs, hdev, hlookup⟩ : ∃ s, ((system []).restrict fun _ op => op.Normal).Reachable s ∧
      s.child s.root "dev" = pure ⟨some 1, some devtmpfsRoot⟩ ∧
      Returns (fun fuel => s.lookup fuel (some s.root) (.absolute ["dev"]) false)
        (.ok ⟨some 1, some devtmpfsRoot⟩) := by
    refine ⟨_, normal_of_foldlM 0
      [.create none (.absolute ["dev"]) sIfdir 0, .mount .empty (.absolute ["dev"]) "devtmpfs"]
      ?_ (.init rfl) rfl, rfl, 0, fun _ _ => rfl⟩
    simp [Op.Normal, PathName.Normal, PathName.names, Proper, Op.Enabled]
  have h := reachable_wellFormed hs.of_restrict
  have ht := reachable_tidy hs.of_restrict
  obtain ⟨names, hname, -, hback, -⟩ := pathname_round_trip hs hlookup
  refine ⟨s, hs, names, hname, hback fun hhidden => ?_⟩
  exact Hidden.not_root h (hhidden.of_child h ht h.root_valid hdev)

end Vfs

end Ilobilix.Fs
