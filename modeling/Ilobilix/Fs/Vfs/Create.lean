import Ilobilix.Fs.Vfs.DotDot

/-!
# What `create` and `symlink` make

A new entry should be found under the path it was made with, and change nothing for other paths. The
walk is monotone: a state that only has more entries (`Extends`) resolves every path that resolved
before to the same target. What is missing in `create` and `symlink` is a check of the parent. They
find it by resolving the directory part of the path, whose last segment is then neither reduced nor
required to be a directory, as it is when the whole path is resolved.
-/

namespace Ilobilix.Fs

open Outcome

/-! ## Path names -/

namespace PathName

theorem segments_ofParts (ups : ℕ) (names : List String) :
    (ofParts ups names).segments = List.replicate ups .dotdot ++ names.map .name := by
  cases ups <;> cases names <;> rfl

theorem isAbsolute_ofParts (ups : ℕ) (names : List String) :
    (ofParts ups names).isAbsolute = false := by
  cases ups <;> cases names <;> rfl

theorem map_name_eq {names : List String} (h : names ≠ []) (a : String) :
    names.map Segment.name = names.dropLast.map .name ++ [.name (names.getLastD a)] := by
  have hsplit := List.dropLast_concat_getLast h
  have hlast : names.getLastD a = names.getLast h := by
    rw [List.getLastD_eq_getLast?, List.getLast?_eq_some_getLast h, Option.getD_some]
  rw [hlast, ← List.map_singleton, ← List.map_append, hsplit]

/-- A path goes up only, or has a last name that follows its directory part. -/
theorem segments_cases (path : PathName) :
    (∃ n, path.segments = List.replicate n .dotdot) ∨
      (path.segments = path.dirname.segments ++ [.name path.basename] ∧
        path.dirname.isAbsolute = path.isAbsolute) := by
  cases path with
  | empty => exact .inl ⟨0, rfl⟩
  | absolute names =>
      by_cases hnames : names = []
      · subst hnames
        exact .inl ⟨0, rfl⟩
      · exact .inr ⟨map_name_eq hnames "", rfl⟩
  | relative ups names =>
      cases names with
      | nil => exact .inl ⟨ups, List.append_nil _⟩
      | cons x xs =>
          have hdir : (relative ups (x :: xs)).dirname = ofParts ups (x :: xs).dropLast := rfl
          have hbase : (relative ups (x :: xs)).basename = (x :: xs).getLastD ".." := by
            cases ups <;> rfl
          refine .inr ⟨?_, by rw [hdir, isAbsolute_ofParts]; rfl⟩
          rw [hdir, hbase, segments_ofParts, List.append_assoc,
            ← map_name_eq (List.cons_ne_nil x xs) ".."]
          rfl

end PathName

namespace Outcome

variable {α β : Type}

/-- `y` returns every value that `x` returns. -/
def Implies (x y : Outcome α) : Prop := ∀ a, x = pure a → y = pure a

namespace Implies

theorem refl (x : Outcome α) : Implies x x := fun _ h => h

theorem of_throw (e : VfsError) (y : Outcome α) : Implies (throw e) y :=
  fun _ h => absurd h throw_ne_pure

theorem of_stop (e : Stop) (y : Outcome α) : Implies (stop e) y :=
  fun _ h => absurd h stop_ne_pure

theorem bind {x y : Outcome α} {f g : α → Outcome β} (hxy : Implies x y)
    (hfg : ∀ a, x = pure a → Implies (f a) (g a)) : Implies (x >>= f) (y >>= g) := by
  intro b hb
  obtain ⟨a, ha, hfb⟩ := bind_eq_pure.mp hb
  exact bind_eq_pure.mpr ⟨a, hxy a ha, hfg a ha b hfb⟩

theorem ite {c : Prop} [Decidable c] {x y x' y' : Outcome α} (h : Implies x y)
    (h' : Implies x' y') : Implies (if c then x else x') (if c then y else y') := by
  split
  · exact h
  · exact h'

end Implies

end Outcome

namespace Vfs

variable {s s' : Vfs}

/-! ## More entries -/

/-- `s'` has the dentries and mounts of `s`, and maybe more entries. -/
structure Extends (s s' : Vfs) : Prop where
  root : s'.root = s.root
  mountAt : s'.mountAt = s.mountAt
  mounts : s'.mounts = s.mounts
  stMode : ∀ d < s.dentries, (s'.dentryAt d).stMode = (s.dentryAt d).stMode
  symlinkedTo : ∀ d < s.dentries, (s'.dentryAt d).symlinkedTo = (s.dentryAt d).symlinkedTo
  parent : ∀ d < s.dentries, (s'.dentryAt d).parent = (s.dentryAt d).parent
  childMounts : ∀ d < s.dentries, (s'.dentryAt d).childMounts = (s.dentryAt d).childMounts
  children : ∀ d < s.dentries, ∀ name c, (s.dentryAt d).children.lookup name = some c →
    (s'.dentryAt d).children.lookup name = some c

namespace Extends

theorem resolveMounts (h : Extends s s') (p : Path) : s'.resolveMounts p = s.resolveMounts p :=
  resolveMounts_congr h.mountAt h.mounts p

/-- What the two states say of the type and the text of a dentry. -/
theorem type_eq (h : Extends s s') {d : DentryId} (hd : d < s.dentries) :
    (s'.dentryAt d).type = (s.dentryAt d).type := by
  rw [Dentry.type, h.stMode d hd, Dentry.type]

theorem requireDir (h : Extends s s') {p : Path} (hp : p.Valid s) :
    s'.requireDir p = s.requireDir p := by
  rcases hd : p.dentry with _ | d
  · simp only [Vfs.requireDir, hd, derefDentry, Outcome.stop_bind]
  · simp only [Vfs.requireDir, hd, derefDentry, Outcome.pure_bind,
      h.type_eq (hp.dentry d hd).1]

theorem symlinkTarget (h : Extends s s') {p : Path} (hp : p.Valid s) :
    s'.symlinkTarget p = s.symlinkTarget p := by
  rcases hd : p.dentry with _ | d
  · simp only [Vfs.symlinkTarget, hd, derefDentry, Outcome.stop_bind]
  · simp only [Vfs.symlinkTarget, hd, derefDentry, Outcome.pure_bind,
      h.type_eq (hp.dentry d hd).1, h.symlinkedTo d (hp.dentry d hd).1]

variable (hs : s.WellFormed)
include hs

theorem enterMounts (h : Extends s s') (n : ℕ) : ∀ (m : MountId) (c : DentryId),
    (⟨some m, some c⟩ : Path).Valid s → s'.enterMounts n (some m) c = s.enterMounts n (some m) c := by
  induction n with
  | zero =>
      intro m c hv
      unfold Vfs.enterMounts
      rw [h.childMounts c (hv.dentry c rfl).1, h.mountAt]
  | succ n ih =>
      intro m c hv
      unfold Vfs.enterMounts
      rw [h.childMounts c (hv.dentry c rfl).1, h.mountAt]
      split
      · rfl
      · rename_i m' hfind
        obtain ⟨-, -, -, hv'⟩ := hs.next_mount hfind
        exact ih m' (s.mountAt m').root hv'

theorem child (h : Extends s s') {p : Path} (hp : p.Valid s) (name : String) :
    Implies (s.child p name) (s'.child p name) := by
  intro q hq
  obtain ⟨m, -, hm⟩ := hp.mnt
  obtain ⟨d, c, hd, hlookup, -⟩ := hs.of_child_eq hp hq
  have hv := hs.child_valid hp hlookup
  rw [hm] at hv
  simp only [Vfs.child, hd, derefDentry, Outcome.pure_bind, hlookup, hm] at hq
  simp only [Vfs.child, hd, derefDentry, Outcome.pure_bind, hm,
    h.children d (hp.dentry d hd).1 name c hlookup, h.mounts, h.enterMounts hs s.mounts m c hv, hq]

theorem dotdot (h : Extends s s') {p : Path} (hp : p.Valid s) :
    Implies (s.dotdot p) (s'.dotdot p) := by
  intro r hr
  obtain ⟨q, hq, hv, -⟩ := hs.exists_resolveMounts hp
  rcases hd : q.dentry with _ | d
  · simp only [Vfs.dotdot, hq, Outcome.pure_bind, hd, derefDentry, Outcome.stop_bind] at hr
    exact absurd hr stop_ne_pure
  · simp only [Vfs.dotdot, hq, Outcome.pure_bind, hd, derefDentry] at hr
    simp only [Vfs.dotdot, h.resolveMounts, hq, Outcome.pure_bind, hd, derefDentry,
      h.parent d (hv.dentry d hd).1, hr]

section

variable {reduce reduce' : Path → Path → Outcome Path}
  (hreduce : ∀ p q, p.Valid s → q.Valid s → Implies (reduce p q) (reduce' p q))
  (hvalid : ∀ p q, p.Valid s → q.Valid s →
    Sat (fun e => e = .fuel ∨ e = .nullDentry) (Path.Valid s) (reduce p q))
include hreduce

omit hs in
theorem follow (h : Extends s s') {current next : Path} (hcurrent : current.Valid s)
    (hnext : next.Valid s) :
    Implies (s.follow reduce current next) (s'.follow reduce' current next) := by
  rcases hd : next.dentry with _ | d
  · simp only [Vfs.follow, hd, derefDentry, Outcome.stop_bind]
    exact .of_stop _ _
  · simp only [Vfs.follow, hd, derefDentry, Outcome.pure_bind, h.type_eq (hnext.dentry d hd).1]
    exact .ite (hreduce current next hcurrent hnext) (.refl _)

include hvalid

theorem advance (h : Extends s s') {current : Path} (hcurrent : current.Valid s)
    (segment : Segment) :
    Implies (s.advance reduce current segment) (s'.advance reduce' current segment) := by
  cases segment with
  | dotdot => exact h.dotdot hs hcurrent
  | name n =>
      refine (h.child hs hcurrent n).bind fun next hnext => ?_
      have hv : next.Valid s := (hs.closed.child current n hcurrent).of_eq hnext
      refine (h.follow hreduce hcurrent hv).bind fun p hp => ?_
      have hpv : p.Valid s := by
        refine Sat.of_eq (E := fun e => e = .fuel ∨ e = .nullDentry) ?_ hp
        exact (hs.closed.deref next hv).bind fun _ _ =>
          .ite (fun _ => hvalid current next hcurrent hv) fun _ => sat_pure hv
      rw [h.requireDir hpv]
      exact .refl _

theorem walk (h : Extends s s') (segments : List Segment) : ∀ current, current.Valid s →
    Implies (s.walk reduce current segments) (s'.walk reduce' current segments) := by
  induction segments with
  | nil => exact fun _ _ => .of_throw _ _
  | cons segment rest ih =>
      intro current hcurrent
      by_cases hrest : rest = []
      · subst hrest
        cases segment with
        | dotdot =>
            refine (h.dotdot hs hcurrent).bind fun c hc => ?_
            exact (h.dotdot hs ((hs.closed.dotdot current hcurrent).of_eq hc)).bind
              fun _ _ => .refl _
        | name n => exact (h.child hs hcurrent n).bind fun _ _ => .refl _
      · rw [walk_cons current segment hrest, walk_cons current segment hrest]
        refine (h.advance hs hreduce hvalid hcurrent segment).bind fun next hnext => ?_
        exact ih next ((hs.closed.advance hvalid hcurrent segment).of_eq hnext)

theorem resolveWith (h : Extends s s') {parent : Option Path} (hparent : ∀ p ∈ parent, p.Valid s)
    (path : PathName) :
    Implies (s.resolveWith reduce parent path) (s'.resolveWith reduce' parent path) := by
  have hstart := hs.closed.start hparent path
  have hsame : s'.start parent path = s.start parent path := by rw [start, start, h.root]
  simp only [Vfs.resolveWith, hsame]
  exact .ite (.refl _) (.ite (.refl _) (h.walk hs hreduce hvalid path.segments _ hstart))

end

omit hs in
theorem reduceLoop (h : Extends s s') {resolve resolve' : Path → PathName → Outcome ResolveRes}
    (hresolve : ∀ p t, p.Valid s → Implies (resolve p t) (resolve' p t))
    (hvalid : ∀ p t, p.Valid s → Sat (fun e => e = .fuel ∨ e = .nullDentry)
      (fun r => r.parent.Valid s ∧ r.target.Valid s) (resolve p t)) (depth : ℕ) :
    ∀ parent src, parent.Valid s → src.Valid s →
      Implies (s.reduceLoop resolve depth parent src) (s'.reduceLoop resolve' depth parent src) := by
  induction depth with
  | zero =>
      intro parent src _ hsrc
      rw [Vfs.reduceLoop, Vfs.reduceLoop, h.symlinkTarget hsrc]
      exact .refl _
  | succ depth ih =>
      intro parent src hparent hsrc
      rw [Vfs.reduceLoop, Vfs.reduceLoop, h.symlinkTarget hsrc]
      refine (Implies.refl _).bind ?_
      rintro (_ | text) -
      · exact .refl _
      · intro q hq
        obtain ⟨ret, hret, hq⟩ := bind_eq_pure.mp hq
        cases ret with
        | error e => exact absurd hq throw_ne_pure
        | ok ret =>
            have hr := attempt_eq_ok.mp hret
            obtain ⟨hp, ht⟩ := (hvalid parent text hparent).of_eq hr
            have hr' := hresolve parent text hparent ret hr
            refine bind_eq_pure.mpr ⟨.ok ret, attempt_eq_ok.mpr hr', ?_⟩
            exact Implies.ite (.refl _) (ih ret.parent ret.target hp ht) q hq

theorem nestedReduce (h : Extends s s') (fuel : ℕ) : ∀ parent src, parent.Valid s → src.Valid s →
    Implies (s.nestedReduce fuel parent src) (s'.nestedReduce fuel parent src) := by
  induction fuel with
  | zero => exact fun _ _ _ _ => .of_stop _ _
  | succ fuel ih =>
      refine h.reduceLoop (fun p t hp => ?_) (fun p t hp => ?_) symloopMax
      · exact h.resolveWith hs ih (hs.closed.nestedReduce fuel) (by rintro _ ⟨⟩; exact hp) t
      · exact hs.closed.resolve fuel (by rintro _ ⟨⟩; exact hp) t

/-- More entries change nothing for the paths that resolve. -/
theorem resolve (h : Extends s s') (fuel : ℕ) {parent : Option Path}
    (hparent : ∀ p ∈ parent, p.Valid s) (path : PathName) :
    Implies (s.resolve fuel parent path) (s'.resolve fuel parent path) :=
  h.resolveWith hs (h.nestedReduce hs fuel) (hs.closed.nestedReduce fuel) hparent path

theorem resolvesTo (h : Extends s s') {parent : Option Path} (hparent : ∀ p ∈ parent, p.Valid s)
    {path : PathName} {q : Path} (hq : s.ResolvesTo parent path q) : s'.ResolvesTo parent path q := by
  obtain ⟨fuel, r, hr, rfl⟩ := resolvesTo_iff.mp hq
  exact resolvesTo_iff.mpr ⟨fuel, r, h.resolve hs fuel hparent path r hr, rfl⟩

end Extends

/-- An entry under a name that is not taken extends the state. -/
theorem extends_attach {d : DentryId} (hd : d < s.dentries) {name : String}
    (hfree : (s.dentryAt d).children.lookup name = none) {nlinkAt : InodeId → ℕ} {inodes : ℕ}
    (inode : InodeId) (stMode : ℕ) (symlinkedTo : PathName) :
    Extends s (({ s with nlinkAt := nlinkAt, inodes := inodes } : Vfs).attach d name inode stMode
      symlinkedTo) := by
  have hdentry := WellFormed.dentryAt_attach
    { s with nlinkAt := nlinkAt, inodes := inodes } d name inode stMode symlinkedTo hd
  have hold : ∀ e < s.dentries, (({ s with nlinkAt := nlinkAt, inodes := inodes } : Vfs).attach d name
      inode stMode symlinkedTo).dentryAt e =
      if e = d then { s.dentryAt d with children := (s.dentryAt d).children.insert name s.dentries }
      else s.dentryAt e := by
    intro e he
    rw [hdentry, if_neg he.ne]
  refine ⟨rfl, rfl, rfl, ?_, ?_, ?_, ?_, ?_⟩
  iterate 4
    · intro e he
      rw [hold e he]
      split
      · subst e
        rfl
      · rfl
  · intro e he n c hc
    rw [hold e he]
    split
    · subst e
      have hn : n ≠ name := by
        rintro rfl
        cases hfree.symm.trans hc
      rw [AList.lookup_insert_ne hn, hc]
    · exact hc

/-! ## The directory part and the whole path -/

theorem isDir_of_requireDir {p q : Path} (h : s.requireDir p = pure q) : s.IsDir q := by
  rcases hd : p.dentry with _ | d
  · simp only [requireDir, hd, derefDentry, Outcome.stop_bind] at h
    exact absurd h stop_ne_pure
  · simp only [requireDir, hd, derefDentry, Outcome.pure_bind] at h
    split at h
    · cases h
      exact ⟨d, hd, ‹_›⟩
    · exact absurd h throw_ne_pure

section

variable {reduce : Path → Path → Outcome Path}

/-- The last segment as one that is not the last: that makes no difference for a directory, and for
`..` none at all. -/
theorem advance_of_finish {current : Path} {segment : Segment} {r : ResolveRes}
    (h : s.finish current segment = pure r) (hdir : segment = .dotdot ∨ s.IsDir r.target) :
    s.advance reduce current segment = pure r.target := by
  cases segment with
  | dotdot =>
      obtain ⟨c, hc, h⟩ := bind_eq_pure.mp h
      obtain ⟨p, -, h⟩ := bind_eq_pure.mp h
      cases h
      exact hc
  | name n =>
      obtain ⟨next, hnext, h⟩ := bind_eq_pure.mp h
      cases h
      obtain ⟨d, hd, hd'⟩ := hdir.resolve_left (by simp)
      have hlnk : (s.dentryAt d).type ≠ sIflnk := hd' ▸ by decide
      have hd : next.dentry = some d := hd
      simp only [advance, hnext, Outcome.pure_bind, follow, hd, derefDentry, if_neg hlnk, requireDir,
        if_pos hd']

/-- A path with one more segment goes on from what its directory part resolves to. -/
theorem walk_snoc (segments : List Segment) (hne : segments ≠ []) (segment : Segment) :
    ∀ {current : Path} {r : ResolveRes}, s.walk reduce current segments = pure r →
      (segments.getLast? = some .dotdot ∨ s.IsDir r.target) →
      s.walk reduce current (segments ++ [segment]) = s.finish r.target segment := by
  induction segments with
  | nil => exact absurd rfl hne
  | cons first rest ih =>
      intro current r hr hdir
      rw [List.cons_append, walk_cons current first (by simp)]
      by_cases hrest : rest = []
      · subst hrest
        rw [advance_of_finish hr (by simpa using hdir)]
        rfl
      · rw [walk_cons current first hrest] at hr
        obtain ⟨next, hnext, hr⟩ := bind_eq_pure.mp hr
        rw [hnext, Outcome.pure_bind]
        refine ih hrest hr ?_
        rwa [List.getLast?_cons_of_ne_nil hrest] at hdir

/-- The last name of a path is looked up in a directory, if a name comes before it. -/
theorem walk_last {E : Stop → Prop} {V : Path → Prop} (h : s.Closed E V)
    (hreduce : ∀ p q, V p → V q → Sat E V (reduce p q)) (init : List Segment) (y x : String) :
    ∀ {current : Path} {r : ResolveRes}, V current →
      s.walk reduce current (init ++ [.name y] ++ [.name x]) = pure r →
      ∃ p, V p ∧ s.IsDir p ∧ s.child p x = pure r.target := by
  induction init with
  | nil =>
      intro current r hcurrent hr
      obtain ⟨p, hp, hr⟩ := bind_eq_pure.mp hr
      have hV := (h.advance hreduce hcurrent (.name y)).of_eq hp
      obtain ⟨next, hnext, hr⟩ := bind_eq_pure.mp hr
      cases hr
      refine ⟨p, hV, ?_, hnext⟩
      obtain ⟨child, -, hp⟩ := bind_eq_pure.mp hp
      obtain ⟨reduced, -, hp⟩ := bind_eq_pure.mp hp
      exact isDir_of_requireDir hp
  | cons first rest ih =>
      intro current r hcurrent hr
      rw [List.cons_append, List.cons_append, walk_cons current first (by simp)] at hr
      obtain ⟨next, hnext, hr⟩ := bind_eq_pure.mp hr
      exact ih ((h.advance hreduce hcurrent first).of_eq hnext) hr

end

theorem WellFormed.resolve_eq (h : s.WellFormed) {parent : Option Path}
    (hparent : ∀ p ∈ parent, p.Valid s) (fuel : ℕ) {path : PathName} (hne : path.segments ≠ []) :
    s.resolve fuel parent path =
      s.walk (s.nestedReduce fuel) (s.start parent path) path.segments := by
  have hmnt := WellFormed.mnt_ne_none (h.closed.start hparent path)
  rw [resolve, resolveWith, if_neg hne]
  exact if_neg hmnt

/-- Going up never returns an error. -/
theorem WellFormed.walk_dotdots_ne_throw (h : s.WellFormed) (fuel n : ℕ) :
    ∀ {p : Path} {e : VfsError}, p.Valid s →
      s.walk (s.nestedReduce fuel) p (List.replicate (n + 1) .dotdot) ≠ throw e := by
  have hup : ∀ {p : Path}, p.Valid s → (∃ q, s.dotdot p = pure q ∧ q.Valid s) ∨
      s.dotdot p = stop .nullDentry := by
    intro p hp
    obtain ⟨q, hq, hv, -⟩ := h.exists_resolveMounts hp
    rcases hd : q.dentry with _ | d
    · right
      simp only [dotdot, hq, Outcome.pure_bind, hd, derefDentry, Outcome.stop_bind]
    · left
      obtain ⟨hup, hvup⟩ := h.exists_dotdot hv hd hq
      obtain ⟨r, hr, hvr, -⟩ := h.exists_resolveMounts hvup
      exact ⟨r, hup.trans hr, hvr⟩
  induction n with
  | zero =>
      intro p e hp
      change s.finish p .dotdot ≠ _
      obtain ⟨q, hq, hv⟩ | hq := hup hp
      · obtain ⟨r, hr, -⟩ | hr := hup hv <;>
        · simp only [finish, hq, hr, Outcome.pure_bind, Outcome.stop_bind]
          exact fun h => by cases h
      · simp only [finish, hq, Outcome.stop_bind]
        exact fun h => by cases h
  | succ n ih =>
      intro p e hp
      rw [List.replicate_succ, walk_cons p .dotdot (by simp)]
      change s.dotdot p >>= _ ≠ _
      obtain ⟨q, hq, hv⟩ | hq := hup hp
      · rw [hq, Outcome.pure_bind]
        exact ih hv
      · rw [hq, Outcome.stop_bind]
        exact fun h => by cases h

/-- A path whose directory part resolves to a directory goes on from there. -/
theorem WellFormed.resolve_snoc (h : s.WellFormed) {fuel : ℕ} {parent : Option Path}
    (hparent : ∀ p ∈ parent, p.Valid s) {path : PathName} {base : String} {dir : ResolveRes}
    (hsegments : path.segments = path.dirname.segments ++ [.name base])
    (hstart : s.start parent path.dirname = s.start parent path)
    (hfound : s.resolve fuel parent path.dirname = pure dir)
    (hdir : (∃ name, path.dirname.segments.getLast? = some (.name name)) → s.IsDir dir.target) :
    s.resolve fuel parent path = s.finish dir.target (.name base) := by
  rw [h.resolve_eq hparent fuel (by simp [hsegments]), hsegments]
  by_cases hempty : path.dirname.segments = []
  · rw [resolve, resolveWith, if_pos hempty] at hfound
    cases hfound
    rw [hempty, ← hstart]
    rfl
  · rw [h.resolve_eq hparent fuel hempty, hstart] at hfound
    refine walk_snoc _ hempty _ hfound ?_
    obtain ⟨last, hlast⟩ := Option.ne_none_iff_exists'.mp
      (fun hnone => hempty (List.getLast?_eq_none_iff.mp hnone))
    cases last with
    | dotdot => exact .inl hlast
    | name name => exact .inr (hdir ⟨name, hlast⟩)

/-! ## Making an entry -/

/-- The two ways to make an entry. -/
inductive Make
  | create (mode dev : ℕ)
  | symlink (target : PathName)

def Make.run (s : Vfs) (fuel : ℕ) (parent : Option Path) (path : PathName) :
    Make → Outcome (Path × Vfs)
  | .create mode dev => s.create fuel parent path mode dev
  | .symlink target => s.symlink fuel parent path target

theorem Make.run_fuelMono (s : Vfs) (parent : Option Path) (path : PathName) (make : Make) :
    FuelMono Stop.fuel fun fuel => make.run s fuel parent path := by
  intro fuel
  cases make with
  | create mode dev => exact create_agrees fuel parent path mode dev
  | symlink target => exact symlink_agrees fuel parent path target

/-- What the file system does to the inodes for a new entry: one more link, to a new inode or to the
inode of a dentry. -/
inductive Linked (s : Vfs) : InodeId → (InodeId → ℕ) → ℕ → Prop
  | new : Linked s s.inodes (Function.update s.nlinkAt s.inodes 1) (s.inodes + 1)
  | old (target : Path) (t : DentryId) (hvalid : target.Valid s) (ht : target.dentry = some t) :
      Linked s (s.dentryAt t).inode
        (Function.update s.nlinkAt (s.dentryAt t).inode (s.nlinkAt (s.dentryAt t).inode + 1)) s.inodes

/-- An entry that is made: its path did not resolve, its directory part did, and there it is. -/
structure Made (s : Vfs) (fuel : ℕ) (parent : Option Path) (path : PathName) (q : Path)
    (s' : Vfs) where
  error : VfsError
  dir : ResolveRes
  d : DentryId
  inode : InodeId
  nlinkAt : InodeId → ℕ
  inodes : ℕ
  stMode : ℕ
  symlinkedTo : PathName
  not_found : s.resolve fuel parent path = throw error
  found : s.resolve fuel parent path.dirname = pure dir
  dentry : dir.target.dentry = some d
  target : q = ⟨dir.target.mnt, some s.dentries⟩
  linked : s.Linked inode nlinkAt inodes
  state : s' = ({ s with nlinkAt := nlinkAt, inodes := inodes } : Vfs).attach d path.basename inode
    stMode symlinkedTo

theorem made_of_enter {fuel : ℕ} {parent : Option Path} {path : PathName} {inode : InodeId}
    {nlinkAt : InodeId → ℕ} {inodes stMode : ℕ} {symlinkedTo : PathName} {q : Path} {s' : Vfs}
    (hlinked : s.Linked inode nlinkAt inodes)
    (h : (s.realParent fuel parent path >>= fun p =>
      ({ s with nlinkAt := nlinkAt, inodes := inodes } : Vfs).enter p path.basename inode stMode
        symlinkedTo) = pure (q, s')) :
    ∃ m : s.Made fuel parent path q s',
      m.inode = inode ∧ m.stMode = stMode ∧ m.symlinkedTo = symlinkedTo := by
  obtain ⟨p, hp, h⟩ := bind_eq_pure.mp h
  obtain ⟨res, hres, hp⟩ := bind_eq_pure.mp hp
  cases res with
  | ok _ => exact absurd hp throw_ne_pure
  | error e =>
      obtain ⟨dir, hdir, hp⟩ := bind_eq_pure.mp hp
      cases hp
      obtain ⟨_, -, h⟩ := bind_eq_pure.mp h
      rcases hd : dir.target.dentry with _ | d
      · rw [hd] at h
        exact absurd h stop_ne_pure
      · rw [hd] at h
        cases h
        exact ⟨⟨e, dir, d, inode, nlinkAt, inodes, stMode, symlinkedTo, attempt_eq_error.mp hres, hdir,
          hd, rfl, hlinked, rfl⟩, rfl, rfl, rfl⟩

theorem Make.made {make : Make} {fuel : ℕ} {parent : Option Path} {path : PathName} {q : Path}
    {s' : Vfs} (h : make.run s fuel parent path = pure (q, s')) :
    Nonempty (s.Made fuel parent path q s') := by
  cases make with
  | create mode dev =>
      obtain ⟨_, -, h⟩ := bind_eq_pure.mp h
      obtain ⟨m, -⟩ := made_of_enter .new h
      exact ⟨m⟩
  | symlink target =>
      obtain ⟨m, -⟩ := made_of_enter .new h
      exact ⟨m⟩

/-- If the path ends with a name, it names a directory. -/
def NamesDirectory (s : Vfs) (parent : Option Path) (path : PathName) : Prop :=
  (∃ name, path.segments.getLast? = some (.name name)) → ∃ p, s.ResolvesTo parent path p ∧ s.IsDir p

/-- The entry that was made is found, and every path that resolved still does. -/
def Faithful (s : Vfs) (parent : Option Path) (path : PathName) (q : Path) (s' : Vfs) : Prop :=
  s'.ResolvesTo parent path q ∧ ∀ parent' path' p, (∀ x ∈ parent', x ∈ s.held) →
    s.ResolvesTo parent' path' p → s'.ResolvesTo parent' path' p

namespace Made

variable {fuel : ℕ} {parent : Option Path} {path : PathName} {q : Path} {s' : Vfs}

/-- The path ends with a name that follows the directory part. -/
theorem segments_eq (m : s.Made fuel parent path q s') (h : s.WellFormed)
    (hparent : ∀ p ∈ parent, p.Valid s) :
    path.segments = path.dirname.segments ++ [.name path.basename] ∧
      s.start parent path.dirname = s.start parent path := by
  obtain ⟨n, hn⟩ | ⟨hsegments, habs⟩ := path.segments_cases
  · have hthrow := m.not_found
    cases n with
    | zero =>
        rw [List.replicate_zero] at hn
        rw [resolve, resolveWith, if_pos hn] at hthrow
        cases hthrow
    | succ n =>
        rw [h.resolve_eq hparent fuel (by simp [hn]), hn] at hthrow
        exact absurd hthrow (h.walk_dotdots_ne_throw fuel n (h.closed.start hparent path))
  · exact ⟨hsegments, by rw [start, start, habs]⟩

theorem target_valid (m : s.Made fuel parent path q s') (h : s.WellFormed)
    (hparent : ∀ p ∈ parent, p.Valid s) : m.dir.target.Valid s :=
  ((h.closed.resolve fuel hparent path.dirname).of_eq m.found).2

theorem wellFormed (m : s.Made fuel parent path q s') (h : s.WellFormed)
    (hparent : ∀ p ∈ parent, p.Valid s) : s'.WellFormed := by
  obtain ⟨hlt, hne⟩ := (m.target_valid h hparent).dentry m.d m.dentry
  rw [m.state]
  exact (h.setInodes m.nlinkAt m.inodes).attach hlt hne _ _ _ _

variable (h : s.WellFormed) (hparent : ∀ p ∈ parent, p.Valid s)
include h hparent

theorem d_lt (m : s.Made fuel parent path q s') : m.d < s.dentries :=
  ((m.target_valid h hparent).dentry m.d m.dentry).1

omit h hparent in
theorem isDir_of_namesDirectory (m : s.Made fuel parent path q s')
    (hdir : s.NamesDirectory parent path.dirname) :
    (∃ name, path.dirname.segments.getLast? = some (.name name)) → s.IsDir m.dir.target := by
  intro hname
  obtain ⟨p, hp, hpd⟩ := hdir hname
  rwa [hp.unique (resolvesTo_iff.mpr ⟨fuel, m.dir, m.found, rfl⟩)] at hpd

/-- Under a directory the name was not taken: the path would have resolved. -/
theorem name_free (m : s.Made fuel parent path q s')
    (hdir : s.NamesDirectory parent path.dirname) :
    (s.dentryAt m.d).children.lookup path.basename = none := by
  obtain ⟨hsegments, hstart⟩ := m.segments_eq h hparent
  have hfinish := h.resolve_snoc hparent hsegments hstart m.found
    (m.isDir_of_namesDirectory hdir)
  rcases hlookup : (s.dentryAt m.d).children.lookup path.basename with _ | c
  · rfl
  · obtain ⟨p, hp, -⟩ := h.exists_child (m.target_valid h hparent) m.dentry hlookup
    rw [m.not_found, finish, hp, Outcome.pure_bind] at hfinish
    cases hfinish

theorem extends_ (m : s.Made fuel parent path q s')
    (hdir : s.NamesDirectory parent path.dirname) : Extends s s' := by
  rw [m.state]
  exact extends_attach (m.d_lt h hparent) (m.name_free h hparent hdir) _ _ _

omit h hparent in
theorem valid_mono (m : s.Made fuel parent path q s') {p : Path} (hp : p.Valid s) : p.Valid s' := by
  obtain ⟨hmnt, hdentry⟩ := hp
  rw [m.state]
  exact ⟨hmnt, fun d hd => ⟨(hdentry d hd).1.trans (Nat.lt_succ_self _), (hdentry d hd).2⟩⟩

theorem dentryAt_eq (m : s.Made fuel parent path q s') (e : DentryId) :
    s'.dentryAt e =
      if e = m.d then
        { s.dentryAt m.d with
          children := (s.dentryAt m.d).children.insert path.basename s.dentries }
      else if e = s.dentries then ⟨path.basename, m.inode, m.stMode, m.symlinkedTo, some m.d, ∅, []⟩ else s.dentryAt e :=
  (congrArg (dentryAt · e) m.state).trans
    (WellFormed.dentryAt_attach { s with nlinkAt := m.nlinkAt, inodes := m.inodes } m.d path.basename
      m.inode m.stMode m.symlinkedTo (m.d_lt h hparent) e)

/-- The new entry is found where it was made. -/
theorem child_eq (m : s.Made fuel parent path q s') :
    s'.child m.dir.target path.basename = pure q := by
  have hnew : ((s'.dentryAt s.dentries).childMounts) = [] := by
    rw [m.dentryAt_eq h hparent, if_neg (m.d_lt h hparent).ne', if_pos rfl]
  have hlookup : (s'.dentryAt m.d).children.lookup path.basename = some s.dentries := by
    rw [m.dentryAt_eq h hparent, if_pos rfl, AList.lookup_insert]
  have henter : ∀ n mnt, s'.enterMounts n mnt s.dentries = pure ⟨mnt, some s.dentries⟩ := by
    intro n mnt
    unfold enterMounts
    rw [hnew]
    rfl
  simp only [child, m.dentry, derefDentry, Outcome.pure_bind, hlookup, henter, m.target]

/-- If the parent is a directory, what is made is what is reported. -/
theorem faithful (m : s.Made fuel parent path q s') (hdir : s.NamesDirectory parent path.dirname) :
    s.Faithful parent path q s' := by
  have hext := m.extends_ h hparent hdir
  have h' := m.wellFormed h hparent
  obtain ⟨hsegments, hstart⟩ := m.segments_eq h hparent
  refine ⟨resolvesTo_iff.mpr ⟨fuel, ⟨m.dir.target, q⟩, ?_, rfl⟩, fun parent' path' p hheld hp => ?_⟩
  · have hstart' : s'.start parent path.dirname = s'.start parent path := by
      rw [start, start, hext.root]
      exact hstart
    have hisDir : (∃ name, path.dirname.segments.getLast? = some (.name name)) →
        s'.IsDir m.dir.target := by
      intro hname
      obtain ⟨d, hd, htype⟩ := m.isDir_of_namesDirectory hdir hname
      exact ⟨d, hd, (hext.type_eq ((m.target_valid h hparent).dentry d hd).1).trans htype⟩
    rw [h'.resolve_snoc (fun p hp => m.valid_mono (hparent p hp)) hsegments hstart'
      (hext.resolve h fuel hparent path.dirname m.dir m.found) hisDir]
    simp only [finish, m.child_eq h hparent, Outcome.pure_bind]
  · exact hext.resolvesTo h (h.held_parent hheld) hp

/-- The new dentry is no mount's root. -/
theorem not_atRoot (m : s.Made fuel parent path q s') : ¬ s'.AtRoot q := by
  rintro ⟨k, hk, hroot⟩
  rw [m.target] at hroot hk
  obtain ⟨k', hk', hmnt⟩ := (m.target_valid h hparent).mnt
  obtain rfl : k = k' := Option.some.inj (hk.symm.trans hmnt)
  have hmount : s'.mountAt k = s.mountAt k := by
    rw [m.state]
    rfl
  rw [hmount] at hroot
  exact (h.root_lt hk').ne' (Option.some.inj hroot)

/-- The entries are the new one, and the old ones under other names. -/
theorem lookup_cases (m : s.Made fuel parent path q s') {e c : DentryId} {name : String}
    (hlookup : (s'.dentryAt e).children.lookup name = some c) :
    e = m.d ∧ name = path.basename ∧ c = s.dentries ∨
      (e ≠ m.d ∨ name ≠ path.basename) ∧ (s.dentryAt e).children.lookup name = some c :=
  WellFormed.lookup_attach { s with nlinkAt := m.nlinkAt, inodes := m.inodes } path.basename m.inode
    m.stMode m.symlinkedTo (m.d_lt h hparent)
    ((congrArg (fun t => (t.dentryAt e).children.lookup name) m.state).symm.trans hlookup)

/-- The new dentry is among the children of its parent only. -/
theorem eq_d_of_lookup (m : s.Made fuel parent path q s') {e : DentryId} {name : String}
    (hlookup : (s'.dentryAt e).children.lookup name = some s.dentries) : e = m.d := by
  obtain ⟨he, -⟩ | ⟨-, hold⟩ := m.lookup_cases h hparent hlookup
  · exact he
  · exact absurd rfl (h.child_lt e name _ hold).ne

/-- What is found under its path has a directory as its parent: the last name is looked up in a
directory, and the new entry is in no other children than its parent's. -/
theorem namesDirectory (m : s.Made fuel parent path q s') (hq : s'.ResolvesTo parent path q) :
    s.NamesDirectory parent path.dirname := by
  rintro ⟨name, hname⟩
  refine ⟨m.dir.target, resolvesTo_iff.mpr ⟨fuel, m.dir, m.found, rfl⟩, m.d, m.dentry, ?_⟩
  have h' := m.wellFormed h hparent
  have hparent' : ∀ p ∈ parent, p.Valid s' := fun p hp => m.valid_mono (hparent p hp)
  obtain ⟨hsegments, -⟩ := m.segments_eq h hparent
  obtain ⟨init, hinit⟩ := List.getLast?_eq_some_iff.mp hname
  obtain ⟨fuel', r, hr, htarget⟩ := resolvesTo_iff.mp hq
  rw [h'.resolve_eq hparent' fuel' (by simp [hsegments]), hsegments, hinit] at hr
  obtain ⟨p, hp, ⟨d, hd, htype⟩, hchild⟩ := walk_last h'.closed (h'.closed.nestedReduce fuel') init
    name path.basename (h'.closed.start hparent' path) hr
  obtain ⟨d', c, hd', hlookup, hback⟩ := h'.of_child_eq hp hchild
  obtain rfl : d = d' := Option.some.inj (hd.symm.trans hd')
  have hqv : q.Valid s' := by
    rw [← htarget]
    exact (h'.closed.child p path.basename hp).of_eq hchild
  have hself := WellFormed.resolveMounts_of_not_atRoot hqv (m.not_atRoot h hparent)
  rw [htarget, hself] at hback
  have hc : q.dentry = some c := congrArg Path.dentry (pure_inj hback)
  rw [m.target] at hc
  cases hc
  obtain rfl := m.eq_d_of_lookup h hparent hlookup
  rw [m.dentryAt_eq h hparent, if_pos rfl] at htype
  exact htype

end Made

/-- For `create` and `symlink` alike: when they succeed, the path resolves to what they returned and
every path that resolved still resolves to the same target, if and only if the parent of the new
entry, unless it was reached without a name, is a directory. -/
theorem make_faithful_iff {cdevs : List ℕ} (hs : (system cdevs).Reachable s) {parent : Option Path}
    (hparent : ∀ p ∈ parent, p ∈ s.held) {path : PathName} (make : Make) {q : Path} {s' : Vfs}
    (hmake : Returns (fun fuel => make.run s fuel parent path) (.ok (q, s'))) :
    s.Faithful parent path q s' ↔ s.NamesDirectory parent path.dirname := by
  have h := reachable_wellFormed hs
  have hvalid := h.held_parent hparent
  obtain ⟨fuel, hrun⟩ := (Make.run_fuelMono s parent path make).returns_iff.mp hmake
  obtain ⟨m⟩ := Make.made hrun
  exact ⟨fun hf => m.namesDirectory h hvalid hf.1, m.faithful h hvalid⟩

/-- A directory is made under a regular file, and not found there. -/
theorem create_under_file : ∃ s, (system []).Reachable s ∧ ∃ q s',
    Returns (fun fuel => s.create fuel none (.absolute ["f", "x"]) sIfdir 0) (.ok (q, s')) ∧
      ¬ s'.ResolvesTo none (.absolute ["f", "x"]) q := by
  have hs : (system []).Reachable _ := reachable_of_foldlM 0
    [.create none (.absolute ["f"]) 0o100644 0] (by simp [Op.Enabled]) (.init rfl) rfl
  refine ⟨_, hs, _, _, (Make.run_fuelMono _ _ _ (.create sIfdir 0)).returns_iff.mpr ⟨0, rfl⟩, ?_⟩
  rintro ⟨r, hr, -⟩
  have herror := hr.unique ((resolve_fuelMono _ none (.absolute ["f", "x"])).returns_iff.mpr
    ⟨0, (rfl : _ = Except.ok (Except.error VfsError.notADir))⟩)
  cases herror

/-- Under a directory the entry is found. -/
theorem make_faithful_directory : ∃ s, (system []).Reachable s ∧ ∃ q s',
    Returns (fun fuel => (Make.create sIfdir 0).run s fuel none (.absolute ["a", "x"]))
      (.ok (q, s')) ∧ s.Faithful none (.absolute ["a", "x"]) q s' := by
  have hs : (system []).Reachable _ := reachable_of_foldlM 0
    [.create none (.absolute ["a"]) sIfdir 0] (by simp [Op.Enabled]) (.init rfl) rfl
  refine ⟨_, hs, _, _, (Make.run_fuelMono _ _ _ _).returns_iff.mpr ⟨0, rfl⟩,
    (make_faithful_iff hs (by rintro _ ⟨⟩) (.create sIfdir 0)
      ((Make.run_fuelMono _ _ _ _).returns_iff.mpr ⟨0, rfl⟩)).mpr fun _ => ?_⟩
  exact ⟨⟨some 0, some 3⟩, resolvesTo_iff.mpr ⟨0, _, rfl, rfl⟩, 3, rfl, by decide⟩

end Vfs

end Ilobilix.Fs
