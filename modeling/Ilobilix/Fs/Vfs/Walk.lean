import Ilobilix.Fs.Vfs.Model

/-!
# Rules for walks

`resolve` and `reduce` are written with the function they call as a parameter. Two facts about them
are shown here once, for any callee.

* They take no notice of the callee except through the results of the calls: where it is replaced by
  one that agrees with it unless it runs out of fuel, the caller agrees too (`walk_agrees`,
  `reduceLoop_agrees`). So more fuel changes no result.
* They do not leave a set of paths that is closed under going to a child and going up
  (`ClosedIn.resolve`, `ClosedIn.reduce`), and stop for no other reason than those two steps do.
-/

namespace Ilobilix.Fs

open Outcome

namespace Outcome

variable {α β : Type}

/-- `y` is `x`, unless `x` ran out of fuel. -/
def Agrees (x y : Outcome α) : Prop := x ≠ stop .fuel → y = x

namespace Agrees

theorem refl (x : Outcome α) : Agrees x x := fun _ => rfl

theorem of_fuel (y : Outcome α) : Agrees (stop .fuel) y := fun h => absurd rfl h

theorem bind {x y : Outcome α} {f g : α → Outcome β} (hxy : Agrees x y)
    (hfg : ∀ a, Agrees (f a) (g a)) : Agrees (x >>= f) (y >>= g) := by
  intro h
  have hx : x ≠ stop .fuel := by
    rintro rfl
    exact h rfl
  rw [hxy hx]
  obtain ⟨a, rfl⟩ | ⟨e, rfl⟩ | ⟨e, rfl⟩ := cases_outcome x
  · exact hfg a h
  · rfl
  · rfl

theorem bind_left {x y : Outcome α} (f : α → Outcome β) (hxy : Agrees x y) :
    Agrees (x >>= f) (y >>= f) :=
  hxy.bind fun a => refl (f a)

theorem bind_right (x : Outcome α) {f g : α → Outcome β} (hfg : ∀ a, Agrees (f a) (g a)) :
    Agrees (x >>= f) (x >>= g) :=
  (refl x).bind hfg

theorem ite {c : Prop} [Decidable c] {x y x' y' : Outcome α} (h : Agrees x y)
    (h' : Agrees x' y') : Agrees (if c then x else x') (if c then y else y') := by
  split
  · exact h
  · exact h'

theorem attempt {x y : Outcome α} (h : Agrees x y) : Agrees (attempt x) (attempt y) := by
  intro hx
  have hne : x ≠ stop .fuel := fun he => hx (attempt_eq_stop.mpr he)
  rw [h hne]

theorem pure_eq {x y : Outcome α} (h : Agrees x y) {a : α} (hx : x = pure a) : y = pure a := by
  rw [h (hx ▸ pure_ne_stop), hx]

end Agrees

variable {E : Stop → Prop} {P : α → Prop} {Q : β → Prop}

/-- The call returns an error or a value with `P`, or it stops for a reason in `E`. -/
def Sat (E : Stop → Prop) (P : α → Prop) : Outcome α → Prop
  | .error e => E e
  | .ok (.error _) => True
  | .ok (.ok a) => P a

theorem sat_pure {a : α} (h : P a) : Sat E P (pure a) := h

theorem sat_throw (e : VfsError) : Sat E P (throw e) := trivial

theorem sat_stop {e : Stop} (h : E e) : Sat E P (stop e) := h

/-- Nothing is said about the call. -/
theorem sat_trivial (x : Outcome α) : Sat (fun _ => True) (fun _ => True) x := by
  obtain ⟨a, rfl⟩ | ⟨e, rfl⟩ | ⟨e, rfl⟩ := cases_outcome x <;> trivial

theorem Sat.of_eq {x : Outcome α} (h : Sat E P x) {a : α} (hx : x = pure a) : P a := by
  rw [hx] at h
  exact h

theorem Sat.of_stop {x : Outcome α} (h : Sat E P x) {e : Stop} (hx : x = stop e) : E e := by
  rw [hx] at h
  exact h

theorem Sat.bind {x : Outcome α} {f : α → Outcome β} (hx : Sat E P x)
    (hf : ∀ a, P a → Sat E Q (f a)) : Sat E Q (x >>= f) := by
  obtain ⟨a, rfl⟩ | ⟨e, rfl⟩ | ⟨e, rfl⟩ := cases_outcome x
  · exact hf a hx
  · exact trivial
  · exact hx

theorem Sat.mono {E' : Stop → Prop} {P' : α → Prop} {x : Outcome α} (h : Sat E P x)
    (hE : ∀ e, E e → E' e) (hP : ∀ a, P a → P' a) : Sat E' P' x := by
  obtain ⟨a, rfl⟩ | ⟨e, rfl⟩ | ⟨e, rfl⟩ := cases_outcome x
  · exact hP a h
  · exact trivial
  · exact hE e h

theorem Sat.ite {c : Prop} [Decidable c] {x y : Outcome α} (hx : c → Sat E P x)
    (hy : ¬ c → Sat E P y) : Sat E P (if c then x else y) := by
  split
  · exact hx ‹_›
  · exact hy ‹_›

theorem Sat.attempt {x : Outcome α} (h : Sat E P x) :
    Sat E (fun r => ∀ a, r = .ok a → P a) (attempt x) := by
  obtain ⟨a, rfl⟩ | ⟨e, rfl⟩ | ⟨e, rfl⟩ := cases_outcome x
  · intro b hb
    cases hb
    exact h
  · intro b hb
    cases hb
  · exact h

end Outcome

namespace Vfs

variable {s : Vfs}

/-! ## Replacing the callee -/

section

variable {reduce reduce' : Path → Path → Outcome Path}

theorem advance_agrees (h : ∀ p q, Agrees (reduce p q) (reduce' p q)) (current : Path)
    (segment : Segment) :
    Agrees (s.advance reduce current segment) (s.advance reduce' current segment) := by
  cases segment with
  | dotdot => exact .refl _
  | name n =>
      refine .bind_right _ fun next => .bind_left _ ?_
      exact .bind_right _ fun d => .ite (h current next) (.refl _)

theorem walk_cons (current : Path) (segment : Segment) {rest : List Segment} (h : rest ≠ []) :
    s.walk reduce current (segment :: rest) =
      s.advance reduce current segment >>= fun next => s.walk reduce next rest := by
  cases rest with
  | nil => exact absurd rfl h
  | cons _ _ => rfl

theorem walk_singleton (current : Path) (segment : Segment) :
    s.walk reduce current [segment] = s.finish current segment := rfl

theorem walk_agrees (h : ∀ p q, Agrees (reduce p q) (reduce' p q)) (segments : List Segment) :
    ∀ current, Agrees (s.walk reduce current segments) (s.walk reduce' current segments) := by
  induction segments with
  | nil => exact fun current => .refl _
  | cons segment rest ih =>
      intro current
      by_cases hrest : rest = []
      · subst hrest
        exact .refl _
      · rw [walk_cons current segment hrest, walk_cons current segment hrest]
        exact (advance_agrees h current segment).bind ih

theorem resolveWith_agrees (h : ∀ p q, Agrees (reduce p q) (reduce' p q)) (parent : Option Path)
    (path : PathName) : Agrees (s.resolveWith reduce parent path) (s.resolveWith reduce' parent path) :=
  .ite (.refl _) (.ite (.refl _) (walk_agrees h path.segments _))

end

section

variable {resolve resolve' : Path → PathName → Outcome ResolveRes}

theorem reduceLoop_agrees (h : ∀ p t, Agrees (resolve p t) (resolve' p t)) (depth : ℕ) :
    ∀ parent src,
      Agrees (s.reduceLoop resolve depth parent src) (s.reduceLoop resolve' depth parent src) := by
  induction depth with
  | zero => exact fun parent src => .refl _
  | succ depth ih =>
      intro parent src
      refine .bind_right _ fun text => ?_
      cases text with
      | none => exact .refl _
      | some text =>
          refine (h parent text).attempt.bind fun ret => ?_
          cases ret with
          | error _ => exact .refl _
          | ok ret => exact .ite (.refl _) (ih ret.parent ret.target)

end

/-! ## More fuel -/

theorem nestedReduce_agrees (fuel : ℕ) :
    ∀ parent src, Agrees (s.nestedReduce fuel parent src) (s.nestedReduce (fuel + 1) parent src) := by
  induction fuel with
  | zero => exact fun parent src => .of_fuel _
  | succ fuel ih =>
      exact reduceLoop_agrees (fun p t => resolveWith_agrees ih (some p) t) symloopMax

theorem resolve_agrees (fuel : ℕ) (parent : Option Path) (path : PathName) :
    Agrees (s.resolve fuel parent path) (s.resolve (fuel + 1) parent path) :=
  resolveWith_agrees (nestedReduce_agrees fuel) parent path

theorem reduce_agrees (fuel : ℕ) (parent src : Path) (depth : ℕ) :
    Agrees (s.reduce fuel parent src depth) (s.reduce (fuel + 1) parent src depth) :=
  .ite (.refl _) (reduceLoop_agrees (fun p t => resolve_agrees fuel (some p) t) depth parent src)

theorem realParent_agrees (fuel : ℕ) (parent : Option Path) (path : PathName) :
    Agrees (s.realParent fuel parent path) (s.realParent (fuel + 1) parent path) := by
  refine (resolve_agrees fuel parent path).attempt.bind fun res => ?_
  cases res with
  | ok _ => exact .refl _
  | error _ => exact (resolve_agrees fuel parent path.dirname).bind_left _

theorem create_agrees (fuel : ℕ) (parent : Option Path) (path : PathName) (mode dev : ℕ) :
    Agrees (s.create fuel parent path mode dev) (s.create (fuel + 1) parent path mode dev) :=
  .bind_right _ fun _ => (realParent_agrees fuel parent path).bind_left _

theorem symlink_agrees (fuel : ℕ) (parent : Option Path) (src target : PathName) :
    Agrees (s.symlink fuel parent src target) (s.symlink (fuel + 1) parent src target) :=
  (realParent_agrees fuel parent src).bind_left _

/-- `resolve` returns the target `q`. -/
def ResolvesTo (s : Vfs) (parent : Option Path) (path : PathName) (q : Path) : Prop :=
  ∃ r, Returns (fun fuel => s.resolve fuel parent path) (.ok r) ∧ r.target = q

theorem resolve_fuelMono (s : Vfs) (parent : Option Path) (path : PathName) :
    FuelMono Stop.fuel fun fuel => s.resolve fuel parent path :=
  fun fuel => resolve_agrees fuel parent path

theorem resolvesTo_iff {parent : Option Path} {path : PathName} {q : Path} :
    s.ResolvesTo parent path q ↔ ∃ fuel r, s.resolve fuel parent path = pure r ∧ r.target = q := by
  constructor
  · rintro ⟨r, hr, hq⟩
    obtain ⟨fuel, hfuel⟩ := (resolve_fuelMono s parent path).returns_iff.mp hr
    exact ⟨fuel, r, hfuel, hq⟩
  · rintro ⟨fuel, r, hr, hq⟩
    exact ⟨r, (resolve_fuelMono s parent path).returns_iff.mpr ⟨fuel, hr⟩, hq⟩

theorem ResolvesTo.unique {parent : Option Path} {path : PathName} {q q' : Path}
    (h : s.ResolvesTo parent path q) (h' : s.ResolvesTo parent path q') : q = q' := by
  obtain ⟨r, hr, rfl⟩ := h
  obtain ⟨r', hr', rfl⟩ := h'
  cases hr.unique hr'
  rfl

/-! ## States with the same mounts -/

theorem climb_congr {s' : Vfs} (hmountAt : s'.mountAt = s.mountAt) (n : ℕ) (p : Path) :
    s'.climb n p = s.climb n p := by
  induction n generalizing p with
  | zero => cases hm : p.mnt <;> simp [climb, derefMount, hm, hmountAt]
  | succ n ih => cases hm : p.mnt <;> simp [climb, derefMount, hm, hmountAt, ih]

theorem resolveMounts_congr {s' : Vfs} (hmountAt : s'.mountAt = s.mountAt)
    (hmounts : s'.mounts = s.mounts) (p : Path) : s'.resolveMounts p = s.resolveMounts p := by
  rw [resolveMounts, hmounts, climb_congr hmountAt, resolveMounts]

theorem enterMounts_congr {s' : Vfs} (hmountAt : s'.mountAt = s.mountAt)
    (hchildMounts : ∀ d, (s'.dentryAt d).childMounts = (s.dentryAt d).childMounts) (n : ℕ)
    (mnt : Option MountId) (d : DentryId) : s'.enterMounts n mnt d = s.enterMounts n mnt d := by
  induction n generalizing mnt d with
  | zero =>
      unfold enterMounts
      rw [hchildMounts, hmountAt]
  | succ n ih =>
      unfold enterMounts
      rw [hchildMounts, hmountAt]
      simp only [ih]

/-! ## Holding a path -/

section Hold

variable (s : Vfs) (p : Path)

theorem child_hold (q : Path) (name : String) : (s.hold p).child q name = s.child q name := by
  simp only [child, @enterMounts_congr s (s.hold p) rfl fun _ => rfl]
  rfl

theorem dotdot_hold (q : Path) : (s.hold p).dotdot q = s.dotdot q := by
  simp only [dotdot, @resolveMounts_congr s (s.hold p) rfl rfl]
  rfl

theorem walk_hold (reduce : Path → Path → Outcome Path) (segments : List Segment) (current : Path) :
    (s.hold p).walk reduce current segments = s.walk reduce current segments := by
  induction segments generalizing current with
  | nil => rfl
  | cons segment rest ih =>
      by_cases hrest : rest = []
      · subst hrest
        cases segment with
        | dotdot => simp only [walk, finish, dotdot_hold]
        | name name => simp only [walk, finish, child_hold]
      · rw [walk_cons current segment hrest, walk_cons current segment hrest]
        cases segment with
        | dotdot => simp only [advance, dotdot_hold, ih]
        | name name =>
            simp only [advance, child_hold, ih]
            rfl

theorem resolveWith_hold (reduce : Path → Path → Outcome Path) (parent : Option Path)
    (path : PathName) : (s.hold p).resolveWith reduce parent path = s.resolveWith reduce parent path := by
  simp only [resolveWith, walk_hold]
  rfl

theorem reduceLoop_hold (resolve : Path → PathName → Outcome ResolveRes) (depth : ℕ)
    (parent src : Path) :
    (s.hold p).reduceLoop resolve depth parent src = s.reduceLoop resolve depth parent src := by
  induction depth generalizing parent src with
  | zero => rfl
  | succ depth ih =>
      simp only [reduceLoop, ih]
      rfl

theorem nestedReduce_hold (fuel : ℕ) (parent src : Path) :
    (s.hold p).nestedReduce fuel parent src = s.nestedReduce fuel parent src := by
  induction fuel generalizing parent src with
  | zero => rfl
  | succ fuel ih =>
      have hcallee : (s.hold p).nestedReduce fuel = s.nestedReduce fuel :=
        funext fun parent => funext fun src => ih parent src
      simp only [nestedReduce, reduceLoop_hold, resolveWith_hold, hcallee]

/-- Lookups do not depend on the paths that are held. -/
theorem lookup_hold (fuel : ℕ) (parent : Option Path) (path : PathName) (followLinks : Bool) :
    (s.hold p).lookup fuel parent path followLinks = s.lookup fuel parent path followLinks := by
  have hcallee : (s.hold p).nestedReduce fuel = s.nestedReduce fuel :=
    funext fun parent => funext fun src => nestedReduce_hold s p fuel parent src
  simp only [lookup, resolve, reduce, resolveWith_hold, reduceLoop_hold, hcallee]

end Hold

/-! ## Staying in a set of paths -/

/-- The path is a directory. -/
def IsDir (s : Vfs) (p : Path) : Prop := ∃ d, p.dentry = some d ∧ (s.dentryAt d).type = sIfdir

/-- Walks that start in `D` stay in `D` and end in `V`, or stop for a reason in `E`. A name is looked
up in `D` only, and a walk goes on from a directory only. -/
structure ClosedIn (s : Vfs) (E : Stop → Prop) (D V : Path → Prop) : Prop where
  fuel : E .fuel
  root : D s.root
  mnt : ∀ p, D p → p.mnt ≠ none
  sub : ∀ p, D p → V p
  dir : ∀ p, V p → s.IsDir p → D p
  deref : ∀ p, V p → Sat E (fun _ => True) (s.derefDentry p.dentry)
  child : ∀ p name, D p → Sat E V (s.child p name)
  dotdot : ∀ p, D p → Sat E D (s.dotdot p)

/-- Walks that start in `V` stay in `V`, or stop for a reason in `E`. -/
abbrev Closed (s : Vfs) (E : Stop → Prop) (V : Path → Prop) : Prop := s.ClosedIn E V V

namespace ClosedIn

variable {E : Stop → Prop} {D V : Path → Prop}

theorem start (h : s.ClosedIn E D V) {parent : Option Path} (hparent : ∀ p ∈ parent, D p)
    (path : PathName) : D (s.start parent path) := by
  unfold Vfs.start
  cases parent with
  | none => simpa using h.root
  | some p =>
      split
      · exact h.root
      · exact hparent p rfl

theorem requireDir (h : s.ClosedIn E D V) {p : Path} (hp : V p) : Sat E D (s.requireDir p) := by
  rcases hd : p.dentry with _ | d
  · have hderef := h.deref p hp
    rw [hd] at hderef
    simp only [Vfs.requireDir, hd, derefDentry, Outcome.stop_bind]
    exact sat_stop hderef
  · simp only [Vfs.requireDir, hd, derefDentry, Outcome.pure_bind]
    exact .ite (fun hdir => sat_pure (h.dir p hp ⟨d, hd, hdir⟩)) fun _ => sat_throw _

section

variable {reduce : Path → Path → Outcome Path}

theorem advance (h : s.ClosedIn E D V) (hreduce : ∀ p q, D p → V q → Sat E V (reduce p q))
    {current : Path} (hcurrent : D current) (segment : Segment) :
    Sat E D (s.advance reduce current segment) := by
  cases segment with
  | dotdot => exact h.dotdot current hcurrent
  | name n =>
      refine (h.child current n hcurrent).bind fun next hnext => ?_
      have hfollow : Sat E V (s.follow reduce current next) :=
        (h.deref next hnext).bind fun _ _ =>
          .ite (fun _ => hreduce current next hcurrent hnext) fun _ => sat_pure hnext
      exact hfollow.bind fun _ hp => h.requireDir hp

theorem finish (h : s.ClosedIn E D V) {current : Path} (hcurrent : D current) (segment : Segment) :
    Sat E (fun r => D r.parent ∧ V r.target) (s.finish current segment) := by
  cases segment with
  | dotdot =>
      refine (h.dotdot current hcurrent).bind fun c hc => ?_
      exact (h.dotdot c hc).bind fun p hp => sat_pure ⟨hp, h.sub c hc⟩
  | name n =>
      exact (h.child current n hcurrent).bind fun next hnext => sat_pure ⟨hcurrent, hnext⟩

theorem walk (h : s.ClosedIn E D V) (hreduce : ∀ p q, D p → V q → Sat E V (reduce p q))
    (segments : List Segment) :
    ∀ current, D current → Sat E (fun r => D r.parent ∧ V r.target)
      (s.walk reduce current segments) := by
  induction segments with
  | nil => exact fun _ _ => sat_throw _
  | cons segment rest ih =>
      intro current hcurrent
      by_cases hrest : rest = []
      · subst hrest
        exact h.finish hcurrent segment
      · rw [walk_cons current segment hrest]
        exact (h.advance hreduce hcurrent segment).bind ih

theorem resolveWith (h : s.ClosedIn E D V) (hreduce : ∀ p q, D p → V q → Sat E V (reduce p q))
    {parent : Option Path} (hparent : ∀ p ∈ parent, D p) (path : PathName) :
    Sat E (fun r => D r.parent ∧ V r.target) (s.resolveWith reduce parent path) := by
  have hstart := h.start hparent path
  refine .ite (fun _ => sat_pure ⟨hstart, h.sub _ hstart⟩) fun _ => ?_
  refine .ite (fun hnone => absurd hnone (h.mnt _ hstart)) fun _ => ?_
  exact h.walk hreduce path.segments _ hstart

end

theorem reduceLoop (h : s.ClosedIn E D V) {resolve : Path → PathName → Outcome ResolveRes}
    (hresolve : ∀ p t, D p → Sat E (fun r => D r.parent ∧ V r.target) (resolve p t)) (depth : ℕ) :
    ∀ parent src, D parent → V src → Sat E V (s.reduceLoop resolve depth parent src) := by
  induction depth with
  | zero =>
      intro parent src _ hsrc
      refine ((h.deref src hsrc).bind fun _ _ => sat_pure trivial).bind (P := fun _ => True) ?_
      rintro (_ | _) _
      · exact sat_pure hsrc
      · exact sat_throw _
  | succ depth ih =>
      intro parent src hparent hsrc
      refine ((h.deref src hsrc).bind fun _ _ => sat_pure trivial).bind (P := fun _ => True) ?_
      rintro (_ | text) _
      · exact sat_pure hsrc
      · refine (hresolve parent text hparent).attempt.bind ?_
        rintro (_ | ret) hret
        · exact sat_throw _
        · obtain ⟨hp, ht⟩ := hret ret rfl
          exact .ite (fun _ => sat_throw _) fun _ => ih ret.parent ret.target hp ht

theorem nestedReduce (h : s.ClosedIn E D V) (fuel : ℕ) :
    ∀ parent src, D parent → V src → Sat E V (s.nestedReduce fuel parent src) := by
  induction fuel with
  | zero => exact fun _ _ _ _ => sat_stop h.fuel
  | succ fuel ih =>
      refine h.reduceLoop (fun p t hp => ?_) symloopMax
      exact h.resolveWith ih (by rintro _ ⟨⟩; exact hp) t

theorem resolve (h : s.ClosedIn E D V) (fuel : ℕ) {parent : Option Path}
    (hparent : ∀ p ∈ parent, D p) (path : PathName) :
    Sat E (fun r => D r.parent ∧ V r.target) (s.resolve fuel parent path) :=
  h.resolveWith (h.nestedReduce fuel) hparent path

theorem reduce (h : s.ClosedIn E D V) (fuel : ℕ) {parent src : Path} (hparent : D parent)
    (hsrc : V src) (depth : ℕ) : Sat E V (s.reduce fuel parent src depth) := by
  refine .ite (fun _ => sat_pure hsrc) fun _ => ?_
  refine h.reduceLoop (fun p t hp => ?_) depth parent src hparent hsrc
  exact h.resolve fuel (by rintro _ ⟨⟩; exact hp) t

end ClosedIn

end Vfs

end Ilobilix.Fs
