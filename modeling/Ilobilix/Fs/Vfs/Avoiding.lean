import Ilobilix.Fs.Vfs.Create

/-!
# Resolving without passing a place

Whether a path is resolved through a certain entry or mount point cannot be seen from what it resolves
to, because a symbolic link on the way is reduced by further calls of `resolve`. `resolveBy` is
`resolve` with the lookup of a child as a parameter, one for the way, including all reductions on it,
and one for the last segment of the path itself. A lookup that gives up at the place, as if the fuel
had run out, makes a run that gives up as soon as it comes there.

`SameWays.resolve` compares such a run with one in a second state, in which the place has changed: the
two agree, unless the first gives up.
-/

namespace Ilobilix.Fs

open Outcome

namespace Outcome

variable {α β : Type}

/-- `x` gives up, and `G` is known of `y`, or the two are the same and return values in `P` only. -/
def UpTo (G : Outcome α → Prop) (P : α → Prop) (x y : Outcome α) : Prop :=
  (x = stop .fuel ∧ G y) ∨ (y = x ∧ ∀ a, x = pure a → P a)

/-- `G` is known of a call as soon as it is known of its first part. -/
def FirstPart (G : ∀ α : Type, Outcome α → Prop) : Prop :=
  ∀ {α β : Type} (y : Outcome α) (f : α → Outcome β), G α y → G β (y >>= f)

/-- The call runs out of fuel or ends with an error with `F`. -/
def Fails (F : VfsError → Prop) (α : Type) (y : Outcome α) : Prop :=
  y = stop .fuel ∨ ∃ e, y = throw e ∧ F e

theorem firstPart_true : FirstPart fun _ _ => True := fun _ _ _ => trivial

theorem firstPart_fails (F : VfsError → Prop) : FirstPart (Fails F) := by
  rintro α β y f (rfl | ⟨e, rfl, he⟩)
  · exact .inl rfl
  · exact .inr ⟨e, rfl, he⟩

namespace UpTo

variable {H : Outcome α → Prop} {G : ∀ α : Type, Outcome α → Prop} {P : α → Prop} {Q : β → Prop}

theorem of_pure {a : α} (ha : P a) : UpTo H P (pure a) (pure a) :=
  .inr ⟨rfl, fun _ h => pure_inj h ▸ ha⟩

theorem of_throw (e : VfsError) : UpTo H P (throw e) (throw e) :=
  .inr ⟨rfl, fun _ h => absurd h throw_ne_pure⟩

theorem of_stop (e : Stop) : UpTo H P (stop e) (stop e) :=
  .inr ⟨rfl, fun _ h => absurd h stop_ne_pure⟩

theorem of_sat {E : Stop → Prop} {x : Outcome α} (h : Sat E P x) : UpTo H P x x :=
  .inr ⟨rfl, fun _ ha => h.of_eq ha⟩

theorem bind (hG : FirstPart G) {x y : Outcome α} {f g : α → Outcome β} (hxy : UpTo (G α) P x y)
    (hfg : ∀ a, P a → UpTo (G β) Q (f a) (g a)) : UpTo (G β) Q (x >>= f) (y >>= g) := by
  obtain ⟨rfl, hy⟩ | ⟨rfl, hP⟩ := hxy
  · exact .inl ⟨rfl, hG y g hy⟩
  · obtain ⟨a, rfl⟩ | ⟨e, rfl⟩ | ⟨e, rfl⟩ := cases_outcome y
    · exact hfg a (hP a rfl)
    · exact of_throw e
    · exact of_stop e

theorem ite {c : Prop} [Decidable c] {x y x' y' : Outcome α} (h : c → UpTo H P x y)
    (h' : ¬ c → UpTo H P x' y') : UpTo H P (if c then x else x') (if c then y else y') := by
  split
  · exact h ‹_›
  · exact h' ‹_›

theorem mono {H' : Outcome α → Prop} {x y : Outcome α} (h : UpTo H P x y) (hH : ∀ y, H y → H' y) :
    UpTo H' P x y :=
  h.imp (fun ⟨hx, hy⟩ => ⟨hx, hH y hy⟩) id

/-- What is known of the values of the first call. -/
theorem left {H' : Outcome α → Prop} {x y : Outcome α} (h : UpTo H P x y) : UpTo H' P x x := by
  refine .inr ⟨rfl, fun a ha => ?_⟩
  obtain ⟨rfl, -⟩ | ⟨-, hP⟩ := h
  · exact absurd ha.symm pure_ne_stop
  · exact hP a ha

/-- What the first call returns, be it an error, the second returns. -/
theorem ok_eq {x y : Outcome α} (h : UpTo H P x y) {r : Except VfsError α} (hx : x = .ok r) :
    y = .ok r := by
  obtain ⟨rfl, -⟩ | ⟨rfl, -⟩ := h
  · cases hx
  · exact hx

end UpTo

end Outcome

namespace Vfs

variable {s s' : Vfs}

/-! ## The lookup as a parameter -/

section

variable (look last : Path → String → Outcome Path) (reduce : Path → Path → Outcome Path)

def advanceBy (s : Vfs) (current : Path) : Segment → Outcome Path
  | .dotdot => s.dotdot current
  | .name name => do
    let next ← look current name
    let next ← s.follow reduce current next
    s.requireDir next

def finishBy (s : Vfs) (current : Path) : Segment → Outcome ResolveRes
  | .dotdot => s.finish current .dotdot
  | .name name => do
    let next ← last current name
    pure ⟨current, next⟩

def walkBy (s : Vfs) : Path → List Segment → Outcome ResolveRes
  | _, [] => throw .notFound
  | current, [segment] => s.finishBy last current segment
  | current, segment :: rest => do
    let next ← s.advanceBy look reduce current segment
    walkBy s next rest

def resolveWithBy (s : Vfs) (parent : Option Path) (path : PathName) : Outcome ResolveRes :=
  let start := s.start parent path
  if path.segments = [] then pure ⟨start, start⟩
  else if start.mnt = none then stop .bug
  else s.walkBy look last reduce start path.segments

end

/-- The turns of the loop of `resolve` before the last one. -/
def wayBy (look : Path → String → Outcome Path) (reduce : Path → Path → Outcome Path) (s : Vfs) :
    Path → List Segment → Outcome Path
  | current, [] => pure current
  | current, segment :: rest => do
    let next ← s.advanceBy look reduce current segment
    wayBy look reduce s next rest

/-- The reductions on the way, in which all lookups are made with the given function. -/
def nestedReduceBy (look : Path → String → Outcome Path) (s : Vfs) :
    ℕ → Path → Path → Outcome Path
  | 0 => fun _ _ => stop .fuel
  | fuel + 1 =>
    s.reduceLoop
      (fun parent text => s.resolveWithBy look look (s.nestedReduceBy look fuel) (some parent) text)
      symloopMax

/-- `resolve` with one lookup for the way and one for the last segment. -/
def resolveBy (look last : Path → String → Outcome Path) (s : Vfs) (fuel : ℕ) (parent : Option Path)
    (path : PathName) : Outcome ResolveRes :=
  s.resolveWithBy look last (s.nestedReduceBy look fuel) parent path

section

variable {look last : Path → String → Outcome Path} {reduce : Path → Path → Outcome Path}

theorem walkBy_cons (current : Path) (segment : Segment) {rest : List Segment} (h : rest ≠ []) :
    s.walkBy look last reduce current (segment :: rest) =
      s.advanceBy look reduce current segment >>= fun next => s.walkBy look last reduce next rest := by
  cases rest with
  | nil => exact absurd rfl h
  | cons _ _ => rfl

/-- The last name is looked up where the way leads to. -/
theorem walkBy_snoc (init : List Segment) (x : String) : ∀ current,
    s.walkBy look last reduce current (init ++ [.name x]) =
      s.wayBy look reduce current init >>= fun p => last p x >>= fun q => pure ⟨p, q⟩ := by
  induction init with
  | nil => exact fun _ => rfl
  | cons segment rest ih =>
      intro current
      rw [List.cons_append, walkBy_cons current segment (by simp), wayBy, bind_assoc]
      exact congrArg _ (funext ih)

theorem resolveBy_snoc {fuel : ℕ} {parent : Option Path} {path : PathName} {init : List Segment}
    {x : String} (hsegments : path.segments = init ++ [.name x])
    (hstart : (s.start parent path).mnt ≠ none) :
    s.resolveBy look last fuel parent path =
      s.wayBy look (s.nestedReduceBy look fuel) (s.start parent path) init >>= fun p =>
        last p x >>= fun q => pure ⟨p, q⟩ := by
  have hne : path.segments ≠ [] := by simp [hsegments]
  rw [resolveBy, resolveWithBy, if_neg hne, if_neg hstart, hsegments, walkBy_snoc]

/-- With the lookup of the state itself this is `resolve`. -/
theorem walkBy_child (segments : List Segment) : ∀ current,
    s.walkBy s.child s.child reduce current segments = s.walk reduce current segments := by
  induction segments with
  | nil => exact fun _ => rfl
  | cons segment rest ih =>
      intro current
      by_cases hrest : rest = []
      · subst hrest
        cases segment <;> rfl
      · rw [walkBy_cons current segment hrest, walk_cons current segment hrest]
        have hadvance : s.advanceBy s.child reduce current segment =
            s.advance reduce current segment := by
          cases segment <;> rfl
        rw [hadvance]
        exact congrArg _ (funext ih)

theorem resolveWithBy_child (parent : Option Path) (path : PathName) :
    s.resolveWithBy s.child s.child reduce parent path = s.resolveWith reduce parent path := by
  simp only [resolveWithBy, walkBy_child]
  rfl

theorem nestedReduceBy_child (fuel : ℕ) : s.nestedReduceBy s.child fuel = s.nestedReduce fuel := by
  induction fuel with
  | zero => rfl
  | succ fuel ih => simp only [nestedReduceBy, nestedReduce, resolveWithBy_child, ih]

theorem resolveBy_child (fuel : ℕ) (parent : Option Path) (path : PathName) :
    s.resolveBy s.child s.child fuel parent path = s.resolve fuel parent path := by
  rw [resolveBy, nestedReduceBy_child, resolveWithBy_child]
  rfl

end

/-! ## The second state -/

/-- `s'` differs from `s`, as far as `resolve` can see, only in where a name leads. -/
structure SameWays (s s' : Vfs) : Prop where
  root : s'.root = s.root
  dotdot : ∀ p, p.Valid s → s'.dotdot p = s.dotdot p
  type : ∀ d < s.dentries, (s'.dentryAt d).type = (s.dentryAt d).type
  symlinkedTo : ∀ d < s.dentries, (s'.dentryAt d).symlinkedTo = (s.dentryAt d).symlinkedTo

/-- From valid paths the two lookups lead to the same, or the first gives up and then `G` is known of
the second. -/
def Finds (s : Vfs) (G : Outcome Path → Prop) (look look' : Path → String → Outcome Path) : Prop :=
  ∀ p name, p.Valid s → UpTo G (Path.Valid s) (look p name) (look' p name)

theorem SameWays.refl (s : Vfs) : SameWays s s := ⟨rfl, fun _ _ => rfl, fun _ _ => rfl, fun _ _ => rfl⟩

/-- The lookup of a well-formed state, beside itself. -/
theorem WellFormed.finds_child (h : s.WellFormed) (G : Outcome Path → Prop) :
    s.Finds G s.child s.child := fun p name hp => .of_sat (h.closed.child p name hp)

/-- `G` is known of a call of `resolve` that gave up in the first state, and `G'` of a reduction in
which such a call was made. -/
structure Caught (G G' : ∀ α : Type, Outcome α → Prop) : Prop where
  bind : FirstPart G
  weaken : ∀ y, G' Path y → G Path y
  handle : ∀ (y : Outcome ResolveRes) (k : Except VfsError ResolveRes → Outcome Path),
    (∀ e, k (.error e) = throw .invalidSymlink) → G ResolveRes y → G' Path (attempt y >>= k)

theorem caught_true : Caught (fun _ _ => True) (fun _ _ => True) :=
  ⟨firstPart_true, fun _ _ => trivial, fun _ _ _ _ => trivial⟩

/-- If the call fails in the second state, the symbolic link is found invalid. -/
theorem caught_fails : Caught (Fails fun _ => True) (Fails (· = .invalidSymlink)) where
  bind := firstPart_fails _
  weaken y hy := hy.imp id fun ⟨e, he, _⟩ => ⟨e, he, trivial⟩
  handle := by
    rintro y k hk (rfl | ⟨e, rfl, -⟩)
    · exact .inl rfl
    · exact .inr ⟨_, hk e, rfl⟩

namespace SameWays

variable {G G' : ∀ α : Type, Outcome α → Prop}

theorem requireDir (h : SameWays s s') {p : Path} (hp : p.Valid s) :
    UpTo (G Path) (Path.Valid s) (s.requireDir p) (s'.requireDir p) := by
  rcases hd : p.dentry with _ | d
  · simp only [Vfs.requireDir, hd, derefDentry, Outcome.stop_bind]
    exact .of_stop _
  · simp only [Vfs.requireDir, hd, derefDentry, Outcome.pure_bind, h.type d (hp.dentry d hd).1]
    exact .ite (fun _ => .of_pure hp) fun _ => .of_throw _

theorem symlinkTarget (h : SameWays s s') {p : Path} (hp : p.Valid s) :
    s'.symlinkTarget p = s.symlinkTarget p := by
  rcases hd : p.dentry with _ | d
  · simp only [Vfs.symlinkTarget, hd, derefDentry, Outcome.stop_bind]
  · simp only [Vfs.symlinkTarget, hd, derefDentry, Outcome.pure_bind,
      h.type d (hp.dentry d hd).1, h.symlinkedTo d (hp.dentry d hd).1]

theorem start (h : SameWays s s') (parent : Option Path) (path : PathName) :
    s'.start parent path = s.start parent path := by
  rw [Vfs.start, Vfs.start, h.root]

variable (hs : s.WellFormed) (hG : FirstPart G)
include hs

theorem dotdot_upTo (h : SameWays s s') {p : Path} (hp : p.Valid s) :
    UpTo (G Path) (Path.Valid s) (s.dotdot p) (s'.dotdot p) := by
  rw [h.dotdot p hp]
  exact .of_sat (hs.closed.dotdot p hp)

include hG

section

variable {look look' last last' : Path → String → Outcome Path}
  {reduce reduce' : Path → Path → Outcome Path}
  (hlook : s.Finds (G Path) look look') (hlast : s.Finds (G Path) last last')
  (hreduce : ∀ p q, p.Valid s → q.Valid s →
    UpTo (G Path) (Path.Valid s) (reduce p q) (reduce' p q))

include hreduce

omit hs hG in
theorem follow (h : SameWays s s') {current next : Path} (hcurrent : current.Valid s)
    (hnext : next.Valid s) :
    UpTo (G Path) (Path.Valid s) (s.follow reduce current next) (s'.follow reduce' current next) := by
  rcases hd : next.dentry with _ | d
  · simp only [Vfs.follow, hd, derefDentry, Outcome.stop_bind]
    exact .of_stop _
  · simp only [Vfs.follow, hd, derefDentry, Outcome.pure_bind, h.type d (hnext.dentry d hd).1]
    exact .ite (fun _ => hreduce current next hcurrent hnext) fun _ => .of_pure hnext

include hlook

theorem advance (h : SameWays s s') {current : Path} (hcurrent : current.Valid s)
    (segment : Segment) :
    UpTo (G Path) (Path.Valid s) (s.advanceBy look reduce current segment)
      (s'.advanceBy look' reduce' current segment) := by
  cases segment with
  | dotdot => exact h.dotdot_upTo hs hcurrent
  | name n =>
      refine (hlook current n hcurrent).bind hG fun next hnext => ?_
      exact (h.follow hreduce hcurrent hnext).bind hG fun p hp => h.requireDir hp

theorem way (h : SameWays s s') (segments : List Segment) : ∀ current, current.Valid s →
    UpTo (G Path) (Path.Valid s) (s.wayBy look reduce current segments)
      (s'.wayBy look' reduce' current segments) := by
  induction segments with
  | nil => exact fun _ hcurrent => .of_pure hcurrent
  | cons segment rest ih =>
      intro current hcurrent
      exact (h.advance hs hG hlook hreduce hcurrent segment).bind hG ih

include hlast

theorem walk (h : SameWays s s') (segments : List Segment) : ∀ current, current.Valid s →
    UpTo (G ResolveRes) (fun r => r.parent.Valid s ∧ r.target.Valid s)
      (s.walkBy look last reduce current segments)
      (s'.walkBy look' last' reduce' current segments) := by
  induction segments with
  | nil => exact fun _ _ => .of_throw _
  | cons segment rest ih =>
      intro current hcurrent
      by_cases hrest : rest = []
      · subst hrest
        cases segment with
        | dotdot =>
            refine (h.dotdot_upTo hs hcurrent).bind hG fun c hc => ?_
            exact (h.dotdot_upTo hs hc).bind hG fun p hp => .of_pure ⟨hp, hc⟩
        | name n =>
            exact (hlast current n hcurrent).bind hG fun next hnext => .of_pure ⟨hcurrent, hnext⟩
      · rw [walkBy_cons current segment hrest, walkBy_cons current segment hrest]
        exact (h.advance hs hG hlook hreduce hcurrent segment).bind hG ih

theorem resolveWith (h : SameWays s s') {parent : Option Path} (hparent : ∀ p ∈ parent, p.Valid s)
    (path : PathName) :
    UpTo (G ResolveRes) (fun r => r.parent.Valid s ∧ r.target.Valid s)
      (s.resolveWithBy look last reduce parent path)
      (s'.resolveWithBy look' last' reduce' parent path) := by
  have hstart := hs.closed.start hparent path
  simp only [resolveWithBy, h.start]
  refine .ite (fun _ => .of_pure ⟨hstart, hstart⟩) fun _ => .ite (fun _ => .of_stop _) fun _ => ?_
  exact h.walk hs hG hlook hlast hreduce path.segments _ hstart

end

omit hs hG in
theorem reduceLoop (h : SameWays s s') (hcaught : Caught G G')
    {resolve resolve' : Path → PathName → Outcome ResolveRes}
    (hresolve : ∀ p t, p.Valid s → UpTo (G ResolveRes)
      (fun r => r.parent.Valid s ∧ r.target.Valid s) (resolve p t) (resolve' p t)) (depth : ℕ) :
    ∀ parent src, parent.Valid s → src.Valid s →
      UpTo (G' Path) (Path.Valid s) (s.reduceLoop resolve depth parent src)
        (s'.reduceLoop resolve' depth parent src) := by
  have htext : ∀ src : Path, (∃ e, s.symlinkTarget src = stop e) ∨
      ∃ text, s.symlinkTarget src = pure text := by
    rintro ⟨mnt, _ | d⟩
    · exact .inl ⟨_, rfl⟩
    · exact .inr ⟨_, rfl⟩
  induction depth with
  | zero =>
      intro parent src _ hsrc
      rw [Vfs.reduceLoop, Vfs.reduceLoop, h.symlinkTarget hsrc]
      obtain ⟨e, he⟩ | ⟨_ | text, htext⟩ := htext src
      · rw [he]
        exact .of_stop e
      · rw [htext]
        exact .of_pure hsrc
      · rw [htext]
        exact .of_throw _
  | succ depth ih =>
      intro parent src hparent hsrc
      rw [Vfs.reduceLoop, Vfs.reduceLoop, h.symlinkTarget hsrc]
      obtain ⟨e, he⟩ | ⟨_ | text, htext⟩ := htext src
      · rw [he]
        exact .of_stop e
      · rw [htext]
        exact .of_pure hsrc
      · rw [htext, Outcome.pure_bind, Outcome.pure_bind]
        obtain ⟨hgave, hG⟩ | ⟨hsame, hvalid⟩ := hresolve parent text hparent
        · left
          refine ⟨?_, hcaught.handle _ _ (fun _ => rfl) hG⟩
          simp only [hgave, attempt_stop, Outcome.stop_bind]
        · simp only [hsame]
          obtain ⟨ret, hret⟩ | ⟨e, he⟩ | ⟨e, he⟩ := cases_outcome (resolve parent text)
          · obtain ⟨hp, ht⟩ := hvalid ret hret
            simp only [hret, attempt_pure, Outcome.pure_bind]
            exact .ite (fun _ => .of_throw _) fun _ => ih ret.parent ret.target hp ht
          · simp only [he, attempt_throw, Outcome.pure_bind]
            exact .of_throw _
          · simp only [he, attempt_stop, Outcome.stop_bind]
            exact .of_stop _

omit hG in
theorem nestedReduce (h : SameWays s s') (hcaught : Caught G G')
    {look look' : Path → String → Outcome Path} (hlook : s.Finds (G Path) look look') (fuel : ℕ) :
    ∀ parent src, parent.Valid s → src.Valid s →
      UpTo (G' Path) (Path.Valid s) (s.nestedReduceBy look fuel parent src)
        (s'.nestedReduceBy look' fuel parent src) := by
  induction fuel with
  | zero => exact fun _ _ _ _ => .of_stop _
  | succ fuel ih =>
      refine h.reduceLoop hcaught (fun p t hp => ?_) symloopMax
      refine h.resolveWith hs hcaught.bind hlook hlook (fun q r hq hr => ?_) (by rintro _ ⟨⟩; exact hp) t
      exact (ih q r hq hr).mono hcaught.weaken

omit hG in
/-- A run of `resolve` that may give up, and a run in the second state. -/
theorem resolve (h : SameWays s s') (hcaught : Caught G G')
    {look look' last last' : Path → String → Outcome Path} (hlook : s.Finds (G Path) look look')
    (hlast : s.Finds (G Path) last last') (fuel : ℕ)
    {parent : Option Path} (hparent : ∀ p ∈ parent, p.Valid s) (path : PathName) :
    UpTo (G ResolveRes) (fun r => r.parent.Valid s ∧ r.target.Valid s)
      (s.resolveBy look last fuel parent path) (s'.resolveBy look' last' fuel parent path) := by
  refine h.resolveWith hs hcaught.bind hlook hlast (fun p q hp hq => ?_) hparent path
  exact (h.nestedReduce hs hcaught hlook fuel p q hp hq).mono hcaught.weaken

end SameWays

end Vfs

end Ilobilix.Fs
