import Ilobilix.Foundation.Nesting
import Ilobilix.Fs.Vfs.DotDot
import Mathlib.Data.Finite.Prod
import Mathlib.Order.Interval.Finset.Nat

/-!
# Termination of `resolve` and `reduce`

`resolve` calls `reduce` for a link before the last segment, and `reduce` calls `resolve` on the
link's text, each time with a fresh budget. So the budget bounds the length of a chain of links, but
not how deep the calls are nested: the link `a` with the text `a/b` is reduced by resolving `a/b`,
which reduces `a`.

`Calls` is the relation between a call of `reduce` and the calls of `reduce` made inside it. There
are only finitely many different calls, so a call returns if and only if no call is made again inside
itself (`resolve_returns_iff`).
-/

namespace Ilobilix.Fs

open Outcome Relation

namespace Vfs

variable {s : Vfs}

/-- The path is a symbolic link, with or without a text. -/
def IsLnk (s : Vfs) (p : Path) : Prop := ∃ d, p.dentry = some d ∧ (s.dentryAt d).type = sIflnk

/-! ## The calls that a walk makes -/

/-- The walk along these segments calls `reduce` on the pair. -/
inductive WalkCalls (reduce : Path → Path → Outcome Path) (s : Vfs) :
    Path → List Segment → Path × Path → Prop
  | here {current next : Path} {name : String} {rest : List Segment} (hrest : rest ≠ [])
      (hchild : s.child current name = pure next) (hlnk : s.IsLnk next) :
      WalkCalls reduce s current (.name name :: rest) (current, next)
  | later {current next : Path} {segment : Segment} {rest : List Segment} {n : Path × Path}
      (hrest : rest ≠ []) (hnext : s.advance reduce current segment = pure next)
      (h : WalkCalls reduce s next rest n) : WalkCalls reduce s current (segment :: rest) n

/-- `resolve` calls `reduce` on the pair. -/
def ResolveCalls (reduce : Path → Path → Outcome Path) (s : Vfs) (parent : Option Path)
    (path : PathName) (n : Path × Path) : Prop :=
  (s.start parent path).mnt ≠ none ∧ WalkCalls reduce s (s.start parent path) path.segments n

/-- The loop of `reduce` makes the call, in one of its calls of `resolve`. -/
inductive LoopCalls (resolve : Path → PathName → Outcome ResolveRes)
    (calls : Path → PathName → Path × Path → Prop) (s : Vfs) : ℕ → Path → Path → Path × Path → Prop
  | here {depth : ℕ} {parent src : Path} {text : PathName} {n : Path × Path}
      (htext : s.symlinkTarget src = pure (some text)) (h : calls parent text n) :
      LoopCalls resolve calls s (depth + 1) parent src n
  | later {depth : ℕ} {parent src : Path} {text : PathName} {ret : ResolveRes} {n : Path × Path}
      (htext : s.symlinkTarget src = pure (some text)) (hret : resolve parent text = pure ret)
      (hne : ret.target.dentry ≠ src.dentry)
      (h : LoopCalls resolve calls s depth ret.parent ret.target n) :
      LoopCalls resolve calls s (depth + 1) parent src n

/-- With calls nested at most so deep, `reduce` makes the call. -/
def ReduceCalls (s : Vfs) (fuel depth : ℕ) (parent src : Path) : Path × Path → Prop :=
  LoopCalls (fun p t => s.resolve fuel (some p) t)
    (fun p t => ResolveCalls (s.nestedReduce fuel) s (some p) t) s depth parent src

/-- One call of `reduce` by `resolve` makes another one. -/
def Calls (s : Vfs) (n m : Path × Path) : Prop :=
  ∃ fuel, s.ReduceCalls fuel symloopMax n.1 n.2 m

/-! ## Running out of fuel is running out of fuel in a call -/

theorem derefDentry_ne_fuel (d : Option DentryId) : s.derefDentry d ≠ stop .fuel := by
  cases d <;> exact fun h => by cases h

theorem climb_ne_fuel (n : ℕ) : ∀ p, s.climb n p ≠ stop .fuel := by
  induction n with
  | zero =>
      intro p h
      cases hm : p.mnt with
      | none =>
          simp only [climb, hm, derefMount, Outcome.stop_bind] at h
          cases h
      | some m =>
          simp only [climb, hm, derefMount, Outcome.pure_bind] at h
          split at h <;> cases h
  | succ n ih =>
      intro p h
      cases hm : p.mnt with
      | none =>
          simp only [climb, hm, derefMount, Outcome.stop_bind] at h
          cases h
      | some m =>
          simp only [climb, hm, derefMount, Outcome.pure_bind] at h
          split at h
          · split at h
            · cases h
            · exact ih _ h
          · cases h

theorem dotdot_ne_fuel (p : Path) : s.dotdot p ≠ stop .fuel := by
  intro h
  obtain h | ⟨q, -, h⟩ := bind_eq_stop.mp h
  · exact climb_ne_fuel _ p h
  · obtain h | ⟨d, -, h⟩ := bind_eq_stop.mp h
    · exact derefDentry_ne_fuel _ h
    · exact climb_ne_fuel _ _ h

theorem enterMounts_ne_fuel (n : ℕ) : ∀ mnt d, s.enterMounts n mnt d ≠ stop .fuel := by
  induction n with
  | zero =>
      intro mnt d h
      unfold enterMounts at h
      split at h <;> cases h
  | succ n ih =>
      intro mnt d h
      unfold enterMounts at h
      split at h
      · cases h
      · exact ih _ _ h

theorem child_ne_fuel (p : Path) (name : String) : s.child p name ≠ stop .fuel := by
  intro h
  obtain h | ⟨d, -, h⟩ := bind_eq_stop.mp h
  · exact derefDentry_ne_fuel _ h
  · split at h
    · exact enterMounts_ne_fuel _ _ _ h
    · obtain h | ⟨m, -, h⟩ := bind_eq_stop.mp h
      · cases hm : p.mnt <;>
        · rw [hm] at h
          cases h
      · cases h

theorem finish_ne_fuel (p : Path) (segment : Segment) : s.finish p segment ≠ stop .fuel := by
  intro h
  cases segment with
  | dotdot =>
      obtain h | ⟨q, -, h⟩ := bind_eq_stop.mp h
      · exact dotdot_ne_fuel p h
      · obtain h | ⟨r, -, h⟩ := bind_eq_stop.mp h
        · exact dotdot_ne_fuel q h
        · cases h
  | name n =>
      obtain h | ⟨q, -, h⟩ := bind_eq_stop.mp h
      · exact child_ne_fuel p n h
      · cases h

theorem requireDir_ne_fuel (p : Path) : s.requireDir p ≠ stop .fuel := by
  intro h
  obtain h | ⟨d, -, h⟩ := bind_eq_stop.mp h
  · exact derefDentry_ne_fuel _ h
  · split at h <;> cases h

section

variable {reduce : Path → Path → Outcome Path}

theorem follow_of_isLnk {current next : Path} (hlnk : s.IsLnk next) :
    s.follow reduce current next = reduce current next := by
  obtain ⟨d, hd, htype⟩ := hlnk
  simp only [follow, hd, derefDentry, Outcome.pure_bind, if_pos htype]

theorem advance_eq_fuel_iff {current : Path} {segment : Segment} :
    s.advance reduce current segment = stop .fuel ↔ ∃ name next, segment = .name name ∧
      s.child current name = pure next ∧ s.IsLnk next ∧ reduce current next = stop .fuel := by
  constructor
  · intro h
    cases segment with
    | dotdot => exact absurd h (dotdot_ne_fuel current)
    | name name =>
        obtain h | ⟨next, hnext, h⟩ := bind_eq_stop.mp h
        · exact absurd h (child_ne_fuel current name)
        · obtain h | ⟨p, -, h⟩ := bind_eq_stop.mp h
          · obtain h | ⟨d, hd, h⟩ := bind_eq_stop.mp h
            · exact absurd h (derefDentry_ne_fuel _)
            · split at h
              · refine ⟨name, next, rfl, hnext, ?_, h⟩
                rcases hdentry : next.dentry with _ | d'
                · rw [hdentry] at hd
                  exact absurd hd stop_ne_pure
                · rw [hdentry] at hd
                  cases hd
                  exact ⟨d', hdentry, ‹_›⟩
              · cases h
          · exact absurd h (requireDir_ne_fuel p)
  · rintro ⟨name, next, rfl, hnext, hlnk, h⟩
    simp only [advance, hnext, Outcome.pure_bind, follow_of_isLnk hlnk, h, Outcome.stop_bind]

theorem walk_eq_fuel_iff (segments : List Segment) : ∀ {current : Path},
    s.walk reduce current segments = stop .fuel ↔
      ∃ n, WalkCalls reduce s current segments n ∧ reduce n.1 n.2 = stop .fuel := by
  induction segments with
  | nil =>
      intro current
      refine ⟨fun h => (by cases h), ?_⟩
      rintro ⟨n, hn, -⟩
      cases hn
  | cons segment rest ih =>
      intro current
      by_cases hrest : rest = []
      · subst hrest
        refine ⟨fun h => absurd h (finish_ne_fuel current segment), ?_⟩
        rintro ⟨n, hn, -⟩
        cases hn with
        | here hrest => exact absurd rfl hrest
        | later hrest => exact absurd rfl hrest
      · rw [walk_cons current segment hrest, bind_eq_stop]
        constructor
        · rintro (h | ⟨next, hnext, h⟩)
          · obtain ⟨name, next, rfl, hchild, hlnk, h⟩ := advance_eq_fuel_iff.mp h
            exact ⟨(current, next), .here hrest hchild hlnk, h⟩
          · obtain ⟨n, hn, h⟩ := ih.mp h
            exact ⟨n, .later hrest hnext hn, h⟩
        · rintro ⟨n, hn, h⟩
          cases hn with
          | here _ hchild hlnk =>
              exact .inl (advance_eq_fuel_iff.mpr ⟨_, _, rfl, hchild, hlnk, h⟩)
          | later _ hnext hn => exact .inr ⟨_, hnext, ih.mpr ⟨n, hn, h⟩⟩

theorem resolveWith_eq_fuel_iff {parent : Option Path} {path : PathName} :
    s.resolveWith reduce parent path = stop .fuel ↔
      ∃ n, ResolveCalls reduce s parent path n ∧ reduce n.1 n.2 = stop .fuel := by
  unfold resolveWith ResolveCalls
  by_cases hempty : path.segments = []
  · simp only [hempty, if_true]
    refine ⟨fun h => (by cases h), ?_⟩
    rintro ⟨n, ⟨-, hn⟩, -⟩
    cases hn
  · by_cases hmnt : (s.start parent path).mnt = none
    · simp only [hempty, if_false, hmnt, if_true]
      refine ⟨fun h => (by cases h), ?_⟩
      rintro ⟨n, ⟨hne, -⟩, -⟩
      exact absurd rfl hne
    · simp only [hempty, if_false, hmnt, walk_eq_fuel_iff, ne_eq, not_false_eq_true, true_and]

end

theorem symlinkTarget_ne_fuel (src : Path) : s.symlinkTarget src ≠ stop .fuel := by
  intro h
  obtain h | ⟨d, -, h⟩ := bind_eq_stop.mp h
  · exact derefDentry_ne_fuel _ h
  · cases h

theorem reduceLoop_eq_fuel_iff {resolve : Path → PathName → Outcome ResolveRes}
    {calls : Path → PathName → Path × Path → Prop} (stuck : Path × Path → Prop)
    (hresolve : ∀ p t, resolve p t = stop .fuel ↔ ∃ n, calls p t n ∧ stuck n) (depth : ℕ) :
    ∀ {parent src : Path}, s.reduceLoop resolve depth parent src = stop .fuel ↔
      ∃ n, LoopCalls resolve calls s depth parent src n ∧ stuck n := by
  induction depth with
  | zero =>
      intro parent src
      constructor
      · intro h
        obtain h | ⟨text, -, h⟩ := bind_eq_stop.mp h
        · exact absurd h (symlinkTarget_ne_fuel src)
        · cases text <;> cases h
      · rintro ⟨n, hn, -⟩
        cases hn
  | succ depth ih =>
      intro parent src
      constructor
      · intro h
        obtain h | ⟨text, htext, h⟩ := bind_eq_stop.mp h
        · exact absurd h (symlinkTarget_ne_fuel src)
        · cases text with
          | none => cases h
          | some text =>
              obtain h | ⟨ret, hret, h⟩ := bind_eq_stop.mp h
              · obtain ⟨n, hn, h⟩ := (hresolve parent text).mp (attempt_eq_stop.mp h)
                exact ⟨n, .here htext hn, h⟩
              · cases ret with
                | error e => cases h
                | ok ret =>
                    simp only at h
                    split at h
                    · cases h
                    · obtain ⟨n, hn, h⟩ := ih.mp h
                      exact ⟨n, .later htext (attempt_eq_ok.mp hret) ‹_› hn, h⟩
      · rintro ⟨n, hn, h⟩
        cases hn with
        | here htext hn =>
            rw [reduceLoop, htext, Outcome.pure_bind]
            simp only
            rw [(hresolve parent _).mpr ⟨n, hn, h⟩, attempt_stop, Outcome.stop_bind]
        | later htext hret hne hn =>
            rw [reduceLoop, htext, Outcome.pure_bind]
            simp only
            rw [hret, attempt_pure, Outcome.pure_bind]
            simp only [if_neg hne]
            exact ih.mpr ⟨n, hn, h⟩

/-! ## More fuel makes the same calls -/

section

variable {reduce reduce' : Path → Path → Outcome Path}
  (h : ∀ p q, Agrees (reduce p q) (reduce' p q))
include h

theorem WalkCalls.mono {current : Path} {segments : List Segment} {n : Path × Path}
    (hn : WalkCalls reduce s current segments n) : WalkCalls reduce' s current segments n := by
  induction hn with
  | here hrest hchild hlnk => exact .here hrest hchild hlnk
  | later hrest hnext _ ih => exact .later hrest ((advance_agrees h _ _).pure_eq hnext) ih

/-- A walk that does not run out of fuel has made all its calls. -/
theorem WalkCalls.of_agrees {current : Path} {segments : List Segment} {n : Path × Path}
    (hn : WalkCalls reduce' s current segments n)
    (hwalk : s.walk reduce current segments ≠ stop .fuel) :
    WalkCalls reduce s current segments n := by
  induction hn with
  | here hrest hchild hlnk => exact .here hrest hchild hlnk
  | @later current next segment rest n hrest hnext _ ih =>
      rw [walk_cons current segment hrest] at hwalk
      have hadvance : s.advance reduce current segment = pure next := by
        refine (advance_agrees h current segment ?_).symm.trans hnext
        intro hfuel
        exact hwalk (bind_eq_stop.mpr (.inl hfuel))
      refine .later hrest hadvance (ih ?_)
      intro hfuel
      exact hwalk (bind_eq_stop.mpr (.inr ⟨next, hadvance, hfuel⟩))

theorem ResolveCalls.mono {parent : Option Path} {path : PathName} {n : Path × Path}
    (hn : ResolveCalls reduce s parent path n) : ResolveCalls reduce' s parent path n :=
  ⟨hn.1, hn.2.mono h⟩

theorem ResolveCalls.of_agrees {parent : Option Path} {path : PathName} {n : Path × Path}
    (hn : ResolveCalls reduce' s parent path n)
    (hresolve : s.resolveWith reduce parent path ≠ stop .fuel) :
    ResolveCalls reduce s parent path n := by
  refine ⟨hn.1, hn.2.of_agrees h ?_⟩
  by_cases hempty : path.segments = []
  · rw [hempty]
    exact throw_ne_stop
  · rwa [resolveWith, if_neg hempty, if_neg hn.1] at hresolve

end

section

variable {resolve resolve' : Path → PathName → Outcome ResolveRes}
  {calls calls' : Path → PathName → Path × Path → Prop}
  (h : ∀ p t, Agrees (resolve p t) (resolve' p t))
include h

theorem LoopCalls.mono (hcalls : ∀ p t n, calls p t n → calls' p t n) {depth : ℕ} {parent src : Path}
    {n : Path × Path} (hn : LoopCalls resolve calls s depth parent src n) :
    LoopCalls resolve' calls' s depth parent src n := by
  induction hn with
  | here htext hn => exact .here htext (hcalls _ _ _ hn)
  | later htext hret hne _ ih => exact .later htext ((h _ _).pure_eq hret) hne ih

theorem LoopCalls.of_agrees
    (hcalls : ∀ p t n, resolve p t ≠ stop .fuel → calls' p t n → calls p t n) {depth : ℕ}
    {parent src : Path} {n : Path × Path} (hn : LoopCalls resolve' calls' s depth parent src n)
    (hloop : s.reduceLoop resolve depth parent src ≠ stop .fuel) :
    LoopCalls resolve calls s depth parent src n := by
  have hfirst : ∀ {depth : ℕ} {parent src : Path} {text : PathName},
      s.symlinkTarget src = pure (some text) →
      s.reduceLoop resolve (depth + 1) parent src ≠ stop .fuel →
      resolve parent text ≠ stop .fuel := by
    intro depth parent src text htext hloop hfuel
    refine hloop ?_
    rw [reduceLoop, htext, Outcome.pure_bind]
    simp only
    rw [hfuel, attempt_stop, Outcome.stop_bind]
  induction hn with
  | here htext hn => exact .here htext (hcalls _ _ _ (hfirst htext hloop) hn)
  | @later depth parent src text ret n htext hret hne _ ih =>
      have hret' : resolve parent text = pure ret := (h _ _ (hfirst htext hloop)).symm.trans hret
      refine .later htext hret' hne (ih ?_)
      rw [reduceLoop, htext, Outcome.pure_bind] at hloop
      simp only at hloop
      rw [hret', attempt_pure, Outcome.pure_bind] at hloop
      simpa only [if_neg hne] using hloop

end

theorem nestedReduce_agrees_le {fuel fuel' : ℕ} (hle : fuel ≤ fuel') (p q : Path) :
    Agrees (s.nestedReduce fuel p q) (s.nestedReduce fuel' p q) := by
  induction hle with
  | refl => exact .refl _
  | @step fuel' _ ih =>
      intro hne
      have hfuel' := ih hne
      rw [nestedReduce_agrees fuel' p q (hfuel' ▸ hne), hfuel']

/-- The calls of `resolve` at any fuel are made at a fuel that is enough for it. -/
theorem resolveCalls_of_ne_fuel {fuel fuel' : ℕ} {parent : Option Path} {path : PathName}
    {n : Path × Path} (hn : ResolveCalls (s.nestedReduce fuel') s parent path n)
    (hresolve : s.resolve fuel parent path ≠ stop .fuel) :
    ResolveCalls (s.nestedReduce fuel) s parent path n := by
  obtain hle | hle := le_total fuel fuel'
  · exact hn.of_agrees (nestedReduce_agrees_le hle) hresolve
  · exact hn.mono (nestedReduce_agrees_le hle)

theorem reduceCalls_of_ne_fuel {fuel fuel' depth : ℕ} {parent src : Path} {n : Path × Path}
    (hn : s.ReduceCalls fuel' depth parent src n)
    (hloop : s.reduceLoop (fun p t => s.resolve fuel (some p) t) depth parent src ≠ stop .fuel) :
    s.ReduceCalls fuel depth parent src n := by
  obtain hle | hle := le_total fuel fuel'
  · refine LoopCalls.of_agrees (fun p t => ?_) (fun p t n hne hcall => ?_) hn hloop
    · exact resolveWith_agrees (nestedReduce_agrees_le hle) (some p) t
    · exact resolveCalls_of_ne_fuel hcall hne
  · refine LoopCalls.mono (fun p t => ?_) (fun p t n hcall => ?_) hn
    · exact resolveWith_agrees (nestedReduce_agrees_le hle) (some p) t
    · exact hcall.mono (nestedReduce_agrees_le hle)

theorem reduceCalls_fuel_iff {fuel depth : ℕ} {parent src : Path} :
    s.reduceLoop (fun p t => s.resolve fuel (some p) t) depth parent src = stop .fuel ↔
      ∃ n, s.ReduceCalls fuel depth parent src n ∧ s.nestedReduce fuel n.1 n.2 = stop .fuel :=
  reduceLoop_eq_fuel_iff (fun n => s.nestedReduce fuel n.1 n.2 = stop .fuel)
    (fun _ _ => resolveWith_eq_fuel_iff) depth

/-- The nested calls of `reduce`. -/
theorem nesting (s : Vfs) :
    Nesting (fun fuel n => s.nestedReduce fuel n.1 n.2 ≠ stop .fuel) s.Calls where
  zero _ h := h rfl
  mono fuel n h := by rwa [nestedReduce_agrees fuel n.1 n.2 h]
  call fuel n m hn hcall := by
    obtain ⟨fuel', hcall⟩ := hcall
    intro hm
    exact hn (reduceCalls_fuel_iff.mpr ⟨m, reduceCalls_of_ne_fuel hcall hn, hm⟩)
  stuck fuel n hn := by
    obtain ⟨m, hm, hstuck⟩ := reduceCalls_fuel_iff.mp (not_not.mp hn)
    exact ⟨m, ⟨fuel, hm⟩, not_not.mpr hstuck⟩

/-! ## Finitely many calls -/

section

variable {E : Stop → Prop} {V : Path → Prop} (h : s.Closed E V)
include h

theorem WalkCalls.closed {reduce : Path → Path → Outcome Path}
    (hreduce : ∀ p q, V p → V q → Sat E V (reduce p q)) {current : Path} {segments : List Segment}
    {n : Path × Path} (hn : WalkCalls reduce s current segments n) (hcurrent : V current) :
    V n.1 ∧ V n.2 := by
  induction hn with
  | here _ hchild _ => exact ⟨hcurrent, (h.child _ _ hcurrent).of_eq hchild⟩
  | later _ hnext _ ih => exact ih ((h.advance hreduce hcurrent _).of_eq hnext)

theorem resolveCalls_closed {fuel : ℕ} {parent : Option Path} (hparent : ∀ p ∈ parent, V p)
    {path : PathName} {n : Path × Path} (hn : ResolveCalls (s.nestedReduce fuel) s parent path n) :
    V n.1 ∧ V n.2 :=
  hn.2.closed h (h.nestedReduce fuel) (h.start hparent path)

theorem reduceCalls_closed {fuel depth : ℕ} {parent src : Path} {n : Path × Path}
    (hn : s.ReduceCalls fuel depth parent src n) (hparent : V parent) : V n.1 ∧ V n.2 := by
  unfold ReduceCalls at hn
  induction hn with
  | here _ hn => exact resolveCalls_closed h (by rintro _ ⟨⟩; exact hparent) hn
  | later _ hret _ _ ih =>
      exact ih ((h.resolve fuel (by rintro _ ⟨⟩; exact hparent) _).of_eq hret).1

theorem reflTransGen_closed {n m : Path × Path} (hnm : ReflTransGen s.Calls n m)
    (hn : V n.1 ∧ V n.2) : V m.1 ∧ V m.2 := by
  induction hnm with
  | refl => exact hn
  | tail _ hcall ih =>
      obtain ⟨fuel, hcall⟩ := hcall
      exact reduceCalls_closed h hcall ih.1

end

theorem finite_valid (s : Vfs) : {p : Path | p.Valid s}.Finite := by
  have hfinite : (Set.image2 Path.mk (Set.image some (Set.Iio s.mounts))
      (insert none (Set.image some (Set.Iio s.dentries)))).Finite :=
    Set.Finite.image2 _ ((Set.finite_Iio _).image _) (((Set.finite_Iio _).image _).insert _)
  refine hfinite.subset ?_
  rintro ⟨mnt, dentry⟩ ⟨⟨m, hm, hmnt⟩, hdentry⟩
  refine ⟨mnt, ⟨m, hm, hmnt.symm⟩, dentry, ?_, rfl⟩
  cases dentry with
  | none => exact Set.mem_insert _ _
  | some d => exact Set.mem_insert_of_mem _ ⟨d, (hdentry d rfl).1, rfl⟩

theorem finite_calls (h : s.WellFormed) {C : Path × Path → Prop}
    (hC : ∀ n, C n → n.1.Valid s ∧ n.2.Valid s) :
    {m | ∃ n, C n ∧ ReflTransGen s.Calls n m}.Finite := by
  refine ((finite_valid s).prod (finite_valid s)).subset ?_
  rintro m ⟨n, hn, hnm⟩
  exact reflTransGen_closed h.closed hnm (hC n hn)

/-! ## Which calls return -/

/-- Some call is made again inside itself, after the calls in `C`. -/
def Reenters (s : Vfs) (C : Path × Path → Prop) : Prop :=
  ∃ n m, C n ∧ ReflTransGen s.Calls n m ∧ TransGen s.Calls m m

/-- While `resolve` runs, some link is reduced again inside its own reduction. -/
def ResolveReenters (s : Vfs) (parent : Option Path) (path : PathName) : Prop :=
  s.Reenters fun n => ∃ fuel, ResolveCalls (s.nestedReduce fuel) s parent path n

/-- The same for `reduce`. -/
def ReduceReenters (s : Vfs) (parent src : Path) (depth : ℕ) : Prop :=
  s.Reenters fun n => ∃ fuel, s.ReduceCalls fuel depth parent src n

theorem not_reenters_iff {C : Path × Path → Prop} :
    ¬ s.Reenters C ↔ ∀ n m, C n → ReflTransGen s.Calls n m → ¬ TransGen s.Calls m m := by
  constructor
  · exact fun h n m hn hnm hcycle => h ⟨n, m, hn, hnm, hcycle⟩
  · rintro h ⟨n, m, hn, hnm, hcycle⟩
    exact h n m hn hnm hcycle

namespace WellFormed

/-- `resolve` needs only so much fuel if and only if it does not come back to a call. -/
theorem resolve_ends_iff (h : s.WellFormed) {parent : Option Path}
    (hparent : ∀ p ∈ parent, p.Valid s) (path : PathName) :
    (∃ fuel, s.resolve fuel parent path ≠ stop .fuel) ↔ ¬ s.ResolveReenters parent path := by
  rw [ResolveReenters, not_reenters_iff]
  refine (nesting s).client_finishes_iff ?_ ?_ (finite_calls h ?_)
  · rintro fuel n hfuel ⟨fuel', hn⟩ hstuck
    exact hfuel (resolveWith_eq_fuel_iff.mpr ⟨n, resolveCalls_of_ne_fuel hn hfuel, hstuck⟩)
  · intro fuel hfuel
    obtain ⟨n, hn, hstuck⟩ := resolveWith_eq_fuel_iff.mp (not_not.mp hfuel)
    exact ⟨n, ⟨fuel, hn⟩, not_not.mpr hstuck⟩
  · rintro n ⟨fuel, hn⟩
    exact resolveCalls_closed h.closed hparent hn

theorem reduce_ends_iff (h : s.WellFormed) {parent src : Path} (hparent : parent.Valid s)
    (depth : ℕ) : (∃ fuel, s.reduce fuel parent src depth ≠ stop .fuel) ↔
      ¬ s.ReduceReenters parent src depth := by
  have hloop : ∀ fuel, s.reduce fuel parent src depth ≠ stop .fuel ↔
      s.reduceLoop (fun p t => s.resolve fuel (some p) t) depth parent src ≠ stop .fuel := by
    intro fuel
    by_cases h0 : depth = 0
    · subst h0
      refine ⟨fun _ hfuel => ?_, fun _ => pure_ne_stop⟩
      obtain ⟨n, hn, -⟩ := reduceCalls_fuel_iff.mp hfuel
      cases hn
    · rw [reduce, if_neg h0]
  simp only [hloop]
  rw [ReduceReenters, not_reenters_iff]
  refine (nesting s).client_finishes_iff ?_ ?_ (finite_calls h ?_)
  · rintro fuel n hfuel ⟨fuel', hn⟩ hstuck
    exact hfuel (reduceCalls_fuel_iff.mpr ⟨n, reduceCalls_of_ne_fuel hn hfuel, hstuck⟩)
  · intro fuel hfuel
    obtain ⟨n, hn, hstuck⟩ := reduceCalls_fuel_iff.mp (not_not.mp hfuel)
    exact ⟨n, ⟨fuel, hn⟩, not_not.mpr hstuck⟩
  · rintro n ⟨fuel, hn⟩
    exact reduceCalls_closed h.closed hn hparent

end WellFormed

/-! ## Paths in the tree -/

/-- Going up from the path ends at the root. A path that was held while the directories above it were
removed need not be so. -/
inductive Rooted (s : Vfs) : Path → Prop
  | root : Rooted s s.root
  | up {p q : Path} (h : s.dotdot p = pure q) (hq : Rooted s q) : Rooted s p

namespace WellFormed

theorem dotdot_eq_of_climb (h : s.WellFormed) {p q : Path} (hp : p.Valid s)
    (hq : s.resolveMounts p = pure q) : s.dotdot q = s.dotdot p := by
  obtain ⟨q', hq', hv, hnot, -⟩ := h.exists_resolveMounts hp
  obtain rfl := pure_inj (hq.symm.trans hq')
  simp only [dotdot, hq, resolveMounts_of_not_atRoot hv hnot]

theorem rooted_of_climb (h : s.WellFormed) {p q : Path} (hp : p.Valid s)
    (hq : s.resolveMounts p = pure q) (hrooted : s.Rooted p) : s.Rooted q := by
  cases hrooted with
  | root => exact .up ((h.dotdot_eq_of_climb hp hq).trans h.dotdot_root) .root
  | up hup hr => exact .up ((h.dotdot_eq_of_climb hp hq).trans hup) hr

theorem rooted_of_dotdot (h : s.WellFormed) {p q : Path} (hrooted : s.Rooted p)
    (hup : s.dotdot p = pure q) : s.Rooted q := by
  cases hrooted with
  | root =>
      obtain rfl := pure_inj (h.dotdot_root.symm.trans hup)
      exact .root
  | up hup' hr =>
      obtain rfl := pure_inj (hup'.symm.trans hup)
      exact hr

theorem dentry_of_rooted (h : s.WellFormed) {p : Path} (hp : p.Valid s) (hrooted : s.Rooted p) :
    p.dentry ≠ none := by
  intro hnone
  cases hrooted with
  | root =>
      rw [h.root_eq] at hnone
      cases hnone
  | up hup _ =>
      have hnot : ¬ s.AtRoot p := by
        rintro ⟨m, -, hd⟩
        cases hnone.symm.trans hd
      simp only [dotdot, resolveMounts_of_not_atRoot hp hnot, Outcome.pure_bind, hnone, derefDentry,
        Outcome.stop_bind] at hup
      exact stop_ne_pure hup

/-- Walks from paths in the tree stay in the tree, and stop only for want of fuel. -/
theorem closed_rooted (h : s.WellFormed) :
    s.Closed (· = .fuel) fun p => p.Valid s ∧ s.Rooted p where
  fuel := rfl
  root := ⟨h.root_valid, .root⟩
  mnt p hp := mnt_ne_none hp.1
  sub := fun _ hp => hp
  dir := fun _ hp _ => hp
  deref := by
    rintro p ⟨hp, hrooted⟩
    obtain ⟨d, hd⟩ := Option.ne_none_iff_exists'.mp (h.dentry_of_rooted hp hrooted)
    rw [hd]
    exact sat_pure trivial
  child := by
    rintro p name ⟨hp, hrooted⟩
    obtain ⟨d, hd⟩ := Option.ne_none_iff_exists'.mp (h.dentry_of_rooted hp hrooted)
    rcases hlookup : (s.dentryAt d).children.lookup name with _ | c
    · rw [child_eq_throw hp hd hlookup]
      exact sat_throw _
    · obtain ⟨q, hq, hv, -⟩ := h.exists_child hp hd hlookup
      obtain ⟨r, hr, -⟩ := h.exists_resolveMounts hp
      rw [hq]
      exact sat_pure ⟨hv, .up ((h.dotdot_child hp hq).trans hr) (h.rooted_of_climb hp hr hrooted)⟩
  dotdot := by
    rintro p ⟨hp, hrooted⟩
    obtain ⟨q, hq⟩ := h.exists_dotdot_eq hp (h.dentry_of_rooted hp hrooted)
    have hv := (h.closed.dotdot p hp).of_eq hq
    rw [hq]
    exact sat_pure ⟨hv, h.rooted_of_dotdot hrooted hq⟩

/-- A call that stops only for want of fuel returns as soon as it has enough. -/
theorem returns_iff_ne_fuel {α : Type} {P : α → Prop} {f : ℕ → Outcome α}
    (hmono : FuelMono Stop.fuel f) (hsat : ∀ fuel, Sat (· = .fuel) P (f fuel)) :
    (∃ r, Returns f r) ↔ ∃ fuel, f fuel ≠ stop .fuel := by
  constructor
  · rintro ⟨r, hr⟩
    obtain ⟨fuel, hfuel⟩ := hmono.returns_iff.mp hr
    exact ⟨fuel, by rw [hfuel]; exact fun h => by cases h⟩
  · rintro ⟨fuel, hfuel⟩
    cases hf : f fuel with
    | error e =>
        obtain rfl : e = .fuel := (hsat fuel).of_stop hf
        exact absurd hf hfuel
    | ok r => exact ⟨r, hmono.returns_iff.mpr ⟨fuel, hf⟩⟩

end WellFormed

theorem reduce_fuelMono (s : Vfs) (parent src : Path) (depth : ℕ) :
    FuelMono Stop.fuel fun fuel => s.reduce fuel parent src depth :=
  fun fuel => reduce_agrees fuel parent src depth

/-- What `reduce` returns is not a symbolic link. -/
theorem reduceLoop_not_symlink {resolve : Path → PathName → Outcome ResolveRes} (depth : ℕ) :
    ∀ {parent src q : Path}, s.reduceLoop resolve depth parent src = pure q →
      s.symlinkTarget q = pure none := by
  induction depth with
  | zero =>
      intro parent src q h
      obtain ⟨text, htext, h⟩ := bind_eq_pure.mp h
      cases text with
      | none =>
          cases h
          exact htext
      | some _ => exact absurd h throw_ne_pure
  | succ depth ih =>
      intro parent src q h
      obtain ⟨text, htext, h⟩ := bind_eq_pure.mp h
      cases text with
      | none =>
          cases h
          exact htext
      | some text =>
          obtain ⟨ret, -, h⟩ := bind_eq_pure.mp h
          cases ret with
          | error _ => exact absurd h throw_ne_pure
          | ok ret =>
              simp only at h
              split at h
              · exact absurd h throw_ne_pure
              · exact ih h

/-- In every reachable state, from every held path: the calls of `resolve` are nested to a bounded
depth if and only if no link is reduced again inside its own reduction, and then `resolve`, from a
path in the tree, and `reduce`, on what it returns, return a target or an error. What `reduce`
returns as a target is no symbolic link. -/
theorem resolve_returns_iff {cdevs : List ℕ} (hs : (system cdevs).Reachable s) :
    (∀ parent path, (∀ p ∈ parent, p ∈ s.held) →
      ((∃ N, ∀ fuel, N ≤ fuel → s.resolve fuel parent path ≠ stop .fuel) ↔
        ¬ s.ResolveReenters parent path)) ∧
    (∀ parent path, (∀ p ∈ parent, p ∈ s.held ∧ s.Rooted p) →
      ((∃ r, Returns (fun fuel => s.resolve fuel parent path) r) ↔
        ¬ s.ResolveReenters parent path) ∧
      ∀ r depth, Returns (fun fuel => s.resolve fuel parent path) (.ok r) →
        ((∃ q, Returns (fun fuel => s.reduce fuel r.parent r.target depth) q) ↔
          ¬ s.ReduceReenters r.parent r.target depth)) ∧
    ∀ parent src depth q, 0 < depth →
      Returns (fun fuel => s.reduce fuel parent src depth) (.ok q) →
      s.symlinkTarget q = pure none := by
  have h := reachable_wellFormed hs
  refine ⟨fun parent path hparent => ?_, fun parent path hparent => ?_, ?_⟩
  · rw [← h.resolve_ends_iff (h.held_parent hparent) path]
    refine ⟨fun ⟨N, hN⟩ => ⟨N, hN N le_rfl⟩, fun ⟨N, hN⟩ => ⟨N, fun fuel hfuel => ?_⟩⟩
    rwa [(resolve_fuelMono s parent path).le hfuel hN]
  · have hplace : ∀ p ∈ parent, p.Valid s ∧ s.Rooted p := fun p hp =>
      ⟨h.held_valid p (hparent p hp).1, (hparent p hp).2⟩
    have hsat := fun fuel => h.closed_rooted.resolve fuel hplace path
    refine ⟨?_, fun r depth hr => ?_⟩
    · rw [← h.resolve_ends_iff (fun p hp => (hplace p hp).1) path]
      exact WellFormed.returns_iff_ne_fuel (resolve_fuelMono s parent path) hsat
    · obtain ⟨fuel, hfuel⟩ := (resolve_fuelMono s parent path).returns_iff.mp hr
      obtain ⟨hp, ht⟩ := (hsat fuel).of_eq hfuel
      rw [← h.reduce_ends_iff hp.1 depth]
      exact WellFormed.returns_iff_ne_fuel (reduce_fuelMono s r.parent r.target depth)
        fun fuel => h.closed_rooted.reduce fuel hp ht depth
  · intro parent src depth q hdepth hq
    obtain ⟨fuel, hfuel⟩ := (reduce_fuelMono s parent src depth).returns_iff.mp hq
    simp only [reduce, if_neg hdepth.ne'] at hfuel
    exact reduceLoop_not_symlink depth hfuel

/-- The link `/a` with the text `a/b`: resolving `/a/x` does not return, whatever the depth. -/
theorem resolve_unbounded : ∃ s, (system []).Reachable s ∧
    ∀ fuel, s.resolve fuel none (.absolute ["a", "x"]) = stop .fuel := by
  have hs : (system []).Reachable _ := reachable_of_foldlM 0
    [.symlink none (.absolute ["a"]) (.relative 0 ["a", "b"])] (by simp [Op.Enabled]) (.init rfl) rfl
  refine ⟨_, hs, ?_⟩
  intro fuel
  refine resolveWith_eq_fuel_iff.mpr ⟨(⟨some 0, some 0⟩, ⟨some 0, some 3⟩), ?_, ?_⟩
  · exact ⟨by decide, .here (by simp) rfl ⟨3, rfl, by decide⟩⟩
  · refine not_not.mp ((nesting _).not_finished_of_cycle (.single ⟨0, ?_⟩) fuel)
    exact .here rfl ⟨by decide, .here (by simp) rfl ⟨3, rfl, by decide⟩⟩

/-- A link to a directory, followed on the way to an entry of it: nothing is reduced twice. -/
theorem resolve_returns_link : ∃ s, (system []).Reachable s ∧
    (∃ r, Returns (fun fuel => s.resolve fuel none (.absolute ["l", "x"])) r) ∧
      ¬ s.ResolveReenters none (.absolute ["l", "x"]) := by
  have hs : (system []).Reachable _ := reachable_of_foldlM 0
    [.create none (.absolute ["d"]) sIfdir 0, .create none (.absolute ["d", "x"]) sIfdir 0,
      .symlink none (.absolute ["l"]) (.relative 0 ["d"])] (by simp [Op.Enabled]) (.init rfl) rfl
  refine ⟨_, hs, ⟨_, (resolve_fuelMono _ _ _).returns_iff.mpr ⟨1, rfl⟩⟩, ?_⟩
  refine ((resolve_returns_iff hs).2.1 none (.absolute ["l", "x"]) (by rintro _ ⟨⟩)).1.mp ?_
  exact ⟨_, (resolve_fuelMono _ _ _).returns_iff.mpr ⟨1, rfl⟩⟩

end Vfs

end Ilobilix.Fs
