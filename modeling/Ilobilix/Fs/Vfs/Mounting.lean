import Ilobilix.Fs.Vfs.Steps
import Ilobilix.Fs.Vfs.Avoiding
import Mathlib.Data.List.Find

/-!
# What a new mount changes

A mount on `x` is entered wherever a lookup led to `x` before, and nothing else changes: a path that
is resolved without coming to `x` leads to where it led, and one that comes to `x` with its last
segment only leads to the root of the new mount. A path on which `x` lies before the end, through a
symbolic link that goes back up, is cut off by its own mount.
-/

namespace Ilobilix.Fs

open Outcome

namespace Vfs

variable {s s' : Vfs}

/-! ## Paths that come to a place -/

/-- The lookup of a child that gives up when it comes to `x`. -/
def avoiding (s : Vfs) (x p : Path) (name : String) : Outcome Path := do
  let q ← s.child p name
  if q = x then stop .fuel else pure q

/-- Without coming to `x`, `resolve` returns `r`. -/
def ReturnsPast (s : Vfs) (x : Path) (parent : Option Path) (path : PathName)
    (r : Except VfsError ResolveRes) : Prop :=
  ∃ fuel, s.resolveBy (s.avoiding x) (s.avoiding x) fuel parent path = .ok r

/-- `resolve` comes to `x` with the last segment, and not before. -/
def EndsAt (s : Vfs) (parent : Option Path) (path : PathName) (x : Path) : Prop :=
  ∃ fuel r, s.resolveBy (s.avoiding x) s.child fuel parent path = pure r ∧ r.target = x

/-! ## The state with one mount more -/

/-- `s'` has one mount more than `s`, on the dentry `on` of `x`, and no mount on its root. -/
structure Mounted (s s' : Vfs) (x : Path) (on : DentryId) : Prop where
  dentry : x.dentry = some on
  root : s'.root = s.root
  mounts : s'.mounts = s.mounts + 1
  mountAt : ∀ k < s.mounts, s'.mountAt k = s.mountAt k
  mountedOn : (s'.mountAt s.mounts).mountedOn = some x
  dentryAt : ∀ d < s.dentries, s'.dentryAt d =
    { s.dentryAt d with
      childMounts := if d = on then (s.dentryAt d).childMounts ++ [s.mounts]
        else (s.dentryAt d).childMounts }
  inner : ∀ k ∈ (s'.dentryAt (s'.mountAt s.mounts).root).childMounts,
    (s'.mountAt k).mountedOn.map Path.mnt ≠ some (some s.mounts)

/-- The mount that is entered from a dentry: the first one on it that belongs to the mount `m`. -/
def mountOn (s : Vfs) (m : Option MountId) (c : DentryId) : Option MountId :=
  (s.dentryAt c).childMounts.find? fun k => (s.mountAt k).mountedOn.map Path.mnt = some m

theorem enterMounts_of_none {n : ℕ} {m : Option MountId} {c : DentryId} (h : s.mountOn m c = none) :
    s.enterMounts n m c = pure ⟨m, some c⟩ := by
  unfold mountOn at h
  unfold enterMounts
  rw [h]

theorem enterMounts_zero_of_some {m : Option MountId} {c : DentryId} {k : MountId}
    (h : s.mountOn m c = some k) : s.enterMounts 0 m c = stop .mountCycle := by
  unfold mountOn at h
  unfold enterMounts
  rw [h]

theorem enterMounts_succ_of_some {n : ℕ} {m : Option MountId} {c : DentryId} {k : MountId}
    (h : s.mountOn m c = some k) :
    s.enterMounts (n + 1) m c = s.enterMounts n (some k) (s.mountAt k).root := by
  unfold mountOn at h
  rw [enterMounts, h]

/-- The root of the new mount. -/
def newRoot (s s' : Vfs) : Path := ⟨some s.mounts, some (s'.mountAt s.mounts).root⟩

namespace WellFormed

/-- An old mount is on a mount older than itself. -/
theorem mountedOn_ne_mounts (h : s.WellFormed) {k : MountId} (hk : k < s.mounts) :
    (s.mountAt k).mountedOn.map Path.mnt ≠ some (some s.mounts) := by
  by_cases h0 : k = 0
  · rw [h0, h.first_mount]
    simp
  · obtain ⟨j, hj, d, hd, -⟩ := h.mountedOn_valid hk h0
    rw [hd]
    simpa using (hj.trans hk).ne

theorem mounted_addMount (h : s.WellFormed) {x : Path} (hx : x.Valid s) {on : DentryId}
    (hon : x.dentry = some on) (root : DentryId) : Mounted s (s.addMount root x on) x on := by
  have hdentryAt : ∀ d, (s.addMount root x on).dentryAt d = _ := dentryAt_addMount s root x on
  have hself : (s.addMount root x on).mountAt s.mounts = ⟨root, some x⟩ := mountAt_addMount_self
  refine ⟨hon, rfl, rfl, fun k hk => mountAt_addMount_of_lt hk, by rw [hself], fun d _ => hdentryAt d,
    fun k hk => ?_⟩
  have hold : ∀ k < s.mounts,
      ((s.addMount root x on).mountAt k).mountedOn.map Path.mnt ≠ some (some s.mounts) := by
    intro k hk
    rw [mountAt_addMount_of_lt hk]
    exact h.mountedOn_ne_mounts hk
  rw [hself, hdentryAt] at hk
  dsimp only at hk
  split at hk
  · obtain hk | hk := List.mem_append.mp hk
    · exact hold k (h.child_mount _ k hk).1
    · obtain rfl := List.mem_singleton.mp hk
      obtain ⟨m, hm, hxm⟩ := hx.mnt
      rw [hself]
      simpa [hxm] using hm.ne
  · exact hold k (h.child_mount _ k hk).1

theorem mounted_addRoot (h : s.WellFormed) {x : Path} (hx : x.Valid s) {on : DentryId}
    (hon : x.dentry = some on) : Mounted s (s.addRoot.addMount s.dentries x on) x on := by
  have hx' : x.Valid s.addRoot :=
    ⟨hx.mnt, fun d hd => ⟨(hx.dentry d hd).1.trans (Nat.lt_succ_self _), (hx.dentry d hd).2⟩⟩
  have hm := h.addRoot.mounted_addMount hx' hon s.dentries
  refine ⟨hm.1, hm.2, hm.3, hm.4, hm.5, fun d hd => ?_, hm.7⟩
  have hold : s.addRoot.dentryAt d = s.dentryAt d := by rw [dentryAt_addRoot, if_neg hd.ne]
  rw [hm.dentryAt d (hd.trans (Nat.lt_succ_self _)), hold]
  rfl

end WellFormed

namespace Mounted

variable {x : Path} {on : DentryId} (hs : s.WellFormed)
include hs

/-! ## Going up -/

theorem climb (h : Mounted s s' x on) (n : ℕ) : ∀ p, p.Valid s → s'.climb n p = s.climb n p := by
  induction n with
  | zero =>
      intro p hp
      obtain ⟨m, hm, hpm⟩ := hp.mnt
      simp only [Vfs.climb, hpm, derefMount, Outcome.pure_bind, h.mountAt m hm]
  | succ n ih =>
      intro p hp
      obtain ⟨m, hm, hpm⟩ := hp.mnt
      simp only [Vfs.climb, hpm, derefMount, Outcome.pure_bind, h.mountAt m hm]
      by_cases hroot : p.dentry = some (s.mountAt m).root
      · obtain ⟨k, -, d, hon, hv⟩ := hs.mountedOn_valid hm (hs.ne_zero_of_atRoot hp hpm hroot)
        simp only [if_pos hroot, hon, ih _ hv]
      · simp only [if_neg hroot]

theorem resolveMounts (h : Mounted s s' x on) {p : Path} (hp : p.Valid s) :
    s'.resolveMounts p = s.resolveMounts p := by
  obtain ⟨m, hm, hpm⟩ := hp.mnt
  obtain ⟨q, hq, -, -, -, hmq⟩ := hs.exists_climb m p s.mounts hp hpm hm.le
  obtain ⟨q', hq', -, -, -, hmq'⟩ := hs.exists_climb m p (s.mounts + 1) hp hpm (hm.trans (Nat.lt_succ_self _)).le
  rw [Vfs.resolveMounts, h.mounts, h.climb hs _ p hp, hq', ← hmq', hmq, Vfs.resolveMounts, hq]

theorem sameWays (h : Mounted s s' x on) : SameWays s s' where
  root := h.root
  dotdot p hp := by
    obtain ⟨q, hq, hv, -⟩ := hs.exists_resolveMounts hp
    rcases hd : q.dentry with _ | d
    · simp only [dotdot, h.resolveMounts hs hp, hq, Outcome.pure_bind, hd, derefDentry,
        Outcome.stop_bind]
    · obtain ⟨-, hup⟩ := hs.exists_dotdot hv hd hq
      have hparent : (s'.dentryAt d).parent = (s.dentryAt d).parent := by
        rw [h.dentryAt d (hv.dentry d hd).1]
      simp only [dotdot, h.resolveMounts hs hp, hq, Outcome.pure_bind, hd, derefDentry, hparent,
        h.resolveMounts hs hup]
  type d hd := by
    rw [h.dentryAt d hd]
    rfl
  symlinkedTo d hd := by rw [h.dentryAt d hd]

/-! ## Going to a child -/

theorem mountOn_eq (h : Mounted s s' x on) {m : MountId} {c : DentryId}
    (hv : (⟨some m, some c⟩ : Path).Valid s) :
    s'.mountOn (some m) c =
      (s.mountOn (some m) c).or (if (⟨some m, some c⟩ : Path) = x then some s.mounts else none) := by
  have hold : ∀ k ∈ (s.dentryAt c).childMounts,
      decide ((s'.mountAt k).mountedOn.map Path.mnt = some (some m)) =
        decide ((s.mountAt k).mountedOn.map Path.mnt = some (some m)) := by
    intro k hk
    rw [h.mountAt k (hs.child_mount c k hk).1]
  have hself : (⟨some m, some c⟩ : Path) = x ↔ x.mnt = some m ∧ c = on := by
    have hx : x = ⟨x.mnt, some on⟩ := by rw [← h.dentry]
    rw [hx, Path.mk.injEq, Option.some.injEq, eq_comm]
  unfold mountOn
  rw [h.dentryAt c (hv.dentry c rfl).1]
  by_cases hc : c = on
  · rw [if_pos hc, List.find?_append, List.find?_congr hold, List.find?_singleton, h.mountedOn]
    simp only [Option.map_some, Option.some.injEq, decide_eq_true_eq, hself, iff_true_intro hc, and_true]
  · simp only [List.find?_congr hold, hself, hc, and_false, if_false, Option.or_none]

omit hs in
/-- From the new mount no other is entered. -/
theorem mountOn_newRoot (h : Mounted s s' x on) :
    s'.mountOn (some s.mounts) (s'.mountAt s.mounts).root = none := by
  refine List.find?_eq_none.mpr fun k hk => ?_
  simpa using h.inner k hk

/-- The loop over the mounts on a dentry goes on from `x` into the new mount. -/
theorem enterMounts (h : Mounted s s' x on) (n : ℕ) : ∀ (m : MountId) (c : DentryId) (q : Path),
    (⟨some m, some c⟩ : Path).Valid s → s.enterMounts n (some m) c = pure q →
    s'.enterMounts (n + 1) (some m) c = pure (if q = x then newRoot s s' else q) := by
  have hend : ∀ (n : ℕ) (m : MountId) (c : DentryId) (q : Path),
      (⟨some m, some c⟩ : Path).Valid s → s.mountOn (some m) c = none →
      s.enterMounts n (some m) c = pure q →
      s'.enterMounts (n + 1) (some m) c = pure (if q = x then newRoot s s' else q) := by
    intro n m c q hv hnone hq
    rw [enterMounts_of_none hnone] at hq
    cases hq
    have hnext := h.mountOn_eq hs hv
    rw [hnone, Option.none_or] at hnext
    split at hnext
    · rw [enterMounts_succ_of_some hnext, enterMounts_of_none h.mountOn_newRoot, if_pos ‹_›]
      rfl
    · rw [enterMounts_of_none hnext, if_neg ‹_›]
  induction n with
  | zero =>
      intro m c q hv hq
      rcases hnone : s.mountOn (some m) c with _ | k
      · exact hend 0 m c q hv hnone hq
      · rw [enterMounts_zero_of_some hnone] at hq
        exact absurd hq stop_ne_pure
  | succ n ih =>
      intro m c q hv hq
      rcases hsome : s.mountOn (some m) c with _ | k
      · exact hend (n + 1) m c q hv hsome hq
      · obtain ⟨-, hk, -, hv'⟩ := hs.next_mount hsome
        rw [enterMounts_succ_of_some hsome] at hq
        have hnext := h.mountOn_eq hs hv
        rw [hsome, Option.some_or] at hnext
        rw [enterMounts_succ_of_some hnext, h.mountAt k hk]
        exact ih k _ q hv' hq

/-- A child that is at `x` is now at the root of the new mount; all others stay. -/
theorem child (h : Mounted s s' x on) {p : Path} (hp : p.Valid s) (name : String) :
    s'.child p name = s.child p name >>= fun q => pure (if q = x then newRoot s s' else q) := by
  rcases hd : p.dentry with _ | d
  · simp only [Vfs.child, hd, derefDentry, Outcome.stop_bind]
  · have hchildren : (s'.dentryAt d).children = (s.dentryAt d).children := by
      rw [h.dentryAt d (hp.dentry d hd).1]
    obtain ⟨m, hm, hpm⟩ := hp.mnt
    rcases hlookup : (s.dentryAt d).children.lookup name with _ | c
    · simp only [Vfs.child, hd, derefDentry, Outcome.pure_bind, hchildren, hlookup, hpm, derefMount,
        Outcome.throw_bind]
    · have hv := hs.child_valid hp hlookup
      rw [hpm] at hv
      obtain ⟨q, hq, -⟩ := hs.exists_enterMounts s.mounts m c hv (Nat.le_add_left _ _)
      simp only [Vfs.child, hd, derefDentry, Outcome.pure_bind, hchildren, hlookup, hpm, hq, h.mounts,
        h.enterMounts hs s.mounts m c q hv hq]

omit hs in
theorem ne_newRoot {q : Path} (hq : q.Valid s) : q ≠ newRoot s s' := by
  rintro rfl
  obtain ⟨m, hm, hqm⟩ := hq.mnt
  exact hm.ne' (Option.some.inj hqm)

/-- What the old state finds without coming to `x`, the new one finds without coming to its root. -/
theorem finds_avoiding (h : Mounted s s' x on) :
    s.Finds (fun _ => True) (s.avoiding x) (s'.avoiding (newRoot s s')) := by
  intro p name hp
  rw [avoiding, avoiding, h.child hs hp name, bind_assoc]
  refine (hs.finds_child _ p name hp).bind (G := fun _ _ => True) firstPart_true fun q hq => ?_
  by_cases hqx : q = x
  · exact .inl ⟨if_pos hqx, trivial⟩
  · rw [Outcome.pure_bind, if_neg hqx, if_neg hqx, if_neg (ne_newRoot hq)]
    exact .of_pure hq

end Mounted

/-! ## What paths lead to -/

/-- A lookup that avoids a place is the lookup of the state, unless it gives up. -/
theorem WellFormed.finds_of_avoiding (h : s.WellFormed) (x : Path) :
    s.Finds (fun _ => True) (s.avoiding x) s.child := by
  intro p name hp
  rw [avoiding, ← bind_pure (s.child p name), bind_assoc]
  refine (h.finds_child _ p name hp).bind (G := fun _ _ => True) firstPart_true fun q hq => ?_
  rw [Outcome.pure_bind]
  by_cases hqx : q = x
  · exact .inl ⟨if_pos hqx, trivial⟩
  · rw [if_neg hqx]
    exact .of_pure hq

theorem EndsAt.resolvesTo (h : s.WellFormed) {parent : Option Path} (hparent : ∀ p ∈ parent, p.Valid s)
    {path : PathName} {x : Path} (hx : s.EndsAt parent path x) : s.ResolvesTo parent path x := by
  obtain ⟨fuel, r, hr, hrx⟩ := hx
  have hsame := (SameWays.refl s).resolve h caught_true (h.finds_of_avoiding x)
    (h.finds_child _) fuel hparent path
  rw [resolveBy_child] at hsame
  exact resolvesTo_iff.mpr ⟨fuel, r, hsame.ok_eq hr, hrx⟩

theorem ReturnsPast.returns (h : s.WellFormed) {parent : Option Path}
    (hparent : ∀ p ∈ parent, p.Valid s) {path : PathName} {x : Path} {r : Except VfsError ResolveRes}
    (hr : s.ReturnsPast x parent path r) : Returns (fun fuel => s.resolve fuel parent path) r := by
  obtain ⟨fuel, hr⟩ := hr
  have hsame := (SameWays.refl s).resolve h caught_true (h.finds_of_avoiding x)
    (h.finds_of_avoiding x) fuel hparent path
  rw [resolveBy_child] at hsame
  exact (resolve_fuelMono s parent path).returns_iff.mpr ⟨fuel, hsame.ok_eq hr⟩

namespace Mounted

variable {x : Path} {on : DentryId} (hs : s.WellFormed)
include hs

/-- A path that comes to `x` at its end now comes to the root of the new mount at its end. -/
theorem endsAt (h : Mounted s s' x on) {parent : Option Path} (hparent : ∀ p ∈ parent, p.Valid s)
    {path : PathName} {init : List Segment} {name : String}
    (hsegments : path.segments = init ++ [.name name]) (hx : s.EndsAt parent path x) :
    s'.EndsAt parent path (newRoot s s') := by
  obtain ⟨fuel, r, hr, rfl⟩ := hx
  have hways := h.sameWays hs
  have hstart := hs.closed.start hparent path
  have hmnt := WellFormed.mnt_ne_none hstart
  rw [resolveBy_snoc hsegments hmnt] at hr
  obtain ⟨p, hp, hr⟩ := bind_eq_pure.mp hr
  obtain ⟨q, hq, hr⟩ := bind_eq_pure.mp hr
  cases hr
  have hfinds := h.finds_avoiding hs
  have hway := hways.way hs firstPart_true hfinds
    (hways.nestedReduce hs caught_true hfinds fuel) init _ hstart
  obtain ⟨hgave, -⟩ | ⟨hp', hv⟩ := hway
  · exact absurd (hgave.symm.trans hp) stop_ne_pure
  · refine ⟨fuel, ⟨p, newRoot s s'⟩, ?_, rfl⟩
    rw [resolveBy_snoc hsegments (hways.start parent path ▸ hmnt), hways.start, hp', hp,
      Outcome.pure_bind, h.child hs (hv p hp) name, hq, Outcome.pure_bind, if_pos rfl]
    rfl

/-- What a path that does not come to `x` resolves to stays. -/
theorem returnsPast (h : Mounted s s' x on) {parent : Option Path} (hparent : ∀ p ∈ parent, p.Valid s)
    {path : PathName} {r : Except VfsError ResolveRes} (hr : s.ReturnsPast x parent path r) :
    s'.ReturnsPast (newRoot s s') parent path r := by
  obtain ⟨fuel, hr⟩ := hr
  have hfinds := h.finds_avoiding hs
  exact ⟨fuel, ((h.sameWays hs).resolve hs caught_true hfinds hfinds fuel hparent path).ok_eq hr⟩

omit hs in
theorem valid_mono (h : Mounted s s' x on) (hle : s.dentries ≤ s'.dentries) {p : Path}
    (hp : p.Valid s) : p.Valid s' := by
  obtain ⟨⟨m, hm, hpm⟩, hd⟩ := hp
  exact ⟨⟨m, h.mounts ▸ hm.trans (Nat.lt_succ_self _), hpm⟩,
    fun d hpd => ⟨(hd d hpd).1.trans_le hle, (hd d hpd).2⟩⟩

end Mounted

/-- In every reachable state, a mount onto an absolute path other than `/` is entered by that path, if
the path comes to the mount point with its last segment only. The path still does so in the new
state, so that this holds of any number of mounts. A path that is resolved without coming to the mount
point resolves as before, and from every dentry mounts are entered until none is left. -/
theorem mount_resolves {cdevs : List ℕ} (hs : (system cdevs).Reachable s) {fuel : ℕ}
    {source : PathName} {names : List String} (hnames : names ≠ []) {fstype : String}
    (hmount : s.mount fuel source (.absolute names) fstype = pure s') :
    ∃ x, s.ResolvesTo none (.absolute names) x ∧ s'.mounts = s.mounts + 1 ∧
      (s'.mountAt s.mounts).mountedOn = some x ∧
      (s.EndsAt none (.absolute names) x →
        s'.ResolvesTo none (.absolute names) (s.newRoot s') ∧
          s'.EndsAt none (.absolute names) (s.newRoot s')) ∧
      (∀ parent path r, (∀ p ∈ parent, p ∈ s.held) → s.ReturnsPast x parent path r →
        Returns (fun fuel => s.resolve fuel parent path) r ∧
          Returns (fun fuel => s'.resolve fuel parent path) r) ∧
      ∀ m c, (⟨some m, some c⟩ : Path).Valid s' →
        ∃ q, s'.enterMounts s'.mounts (some m) c = pure q := by
  have h := reachable_wellFormed hs
  have h' : s'.WellFormed :=
    reachable_wellFormed (hs.step (l := .mount source (.absolute names) fstype) ⟨trivial, fuel, hmount⟩)
  obtain ⟨res, on, hres, hon, -, hcases⟩ := WellFormed.mounted_of_mount hmount
  have hv := ((h.resolve_valid (by rintro _ ⟨⟩; exact h.root_valid) _).of_eq hres).2
  have hmounted : Mounted s s' res.target on ∧ s.dentries ≤ s'.dentries := by
    obtain rfl | rfl := hcases
    · exact ⟨h.mounted_addRoot hv hon, Nat.le_succ _⟩
    · exact ⟨h.mounted_addMount hv hon devtmpfsRoot, le_rfl⟩
  obtain ⟨hm, hle⟩ := hmounted
  have hnone : ∀ {t : Vfs}, ∀ p ∈ (none : Option Path), p.Valid t := by rintro _ _ ⟨⟩
  have hsegments : (PathName.absolute names).segments =
      names.dropLast.map .name ++ [.name (names.getLastD "")] := PathName.map_name_eq hnames ""
  refine ⟨res.target, resolvesTo_iff.mpr ⟨fuel, res, hres, rfl⟩, hm.mounts, hm.mountedOn,
    fun hends => ?_, fun parent path r hparent hr => ?_, fun m c hv => ?_⟩
  · have hends' := hm.endsAt h hnone hsegments hends
    exact ⟨hends'.resolvesTo h' hnone, hends'⟩
  · have hparent := h.held_parent hparent
    refine ⟨hr.returns h hparent, (hm.returnsPast h hparent hr).returns h' fun p hp => ?_⟩
    exact hm.valid_mono hle (hparent p hp)
  · obtain ⟨q, hq, -⟩ := h'.exists_enterMounts s'.mounts m c hv (Nat.le_add_left _ _)
    exact ⟨q, hq⟩

/-- The directory `/a` has a symbolic link `l` to `/`. The mount on `/a/l/a` covers the link on the
way to it. -/
theorem mount_cuts_off : ∃ s, (system []).Reachable s ∧
    s.ResolvesTo none (.absolute ["a", "l", "a"]) ⟨some 0, some 3⟩ ∧
    s.IsDir ⟨some 0, some 3⟩ ∧
    ∃ s', s.mount 1 .empty (.absolute ["a", "l", "a"]) "tmpfs" = pure s' ∧
      Returns (fun fuel => s'.resolve fuel none (.absolute ["a", "l", "a"])) (.error .notFound) := by
  have hs : (system []).Reachable _ := reachable_of_foldlM 0
    [.create none (.absolute ["a"]) sIfdir 0, .symlink none (.absolute ["a", "l"]) (.absolute [])]
    (by simp [Op.Enabled]) (.init rfl) rfl
  exact ⟨_, hs, resolvesTo_iff.mpr ⟨1, _, rfl, rfl⟩, ⟨3, rfl, by decide⟩, _, rfl,
    (resolve_fuelMono _ _ _).returns_iff.mpr ⟨0, rfl⟩⟩

/-- Two mounts on the directory `/a`, one after the other. -/
theorem mount_resolves_twice : ∃ s s', (system []).Reachable s ∧
    s.mount 0 .empty (.absolute ["a"]) "devtmpfs" = pure s' ∧
    s'.ResolvesTo none (.absolute ["a"]) ⟨some 2, some devtmpfsRoot⟩ := by
  have hs : (system []).Reachable _ := reachable_of_foldlM 0
    [.create none (.absolute ["a"]) sIfdir 0, .mount .empty (.absolute ["a"]) "tmpfs"]
    (by simp [Op.Enabled]) (.init rfl) rfl
  obtain ⟨x, hx, -, -, hends, -⟩ := @mount_resolves _ _ _ hs 0 .empty ["a"] (by simp) "devtmpfs" rfl
  refine ⟨_, _, hs, rfl, (hends ⟨0, _, rfl, ?_⟩).1⟩
  exact (resolvesTo_iff.mpr ⟨0, _, rfl, rfl⟩ : ResolvesTo _ _ _ _).unique hx

end Vfs

end Ilobilix.Fs
