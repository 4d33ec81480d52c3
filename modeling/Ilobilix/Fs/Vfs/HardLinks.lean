import Ilobilix.Fs.Vfs.Steps
import Ilobilix.Fs.Vfs.Termination

/-!
# What a hard link refers to

`link` reduces a symbolic link that it is to follow, and then makes the new entry to the inode of the
symbolic link itself. The text of a symbolic link stands in its dentry and not in its inode, so the
new entry has none and leads nowhere. `RefersTo` is what a hard link should be, and `LinksItself` says
when it is.
-/

namespace Ilobilix.Fs

open Outcome

namespace Vfs

variable {s s' : Vfs} {fuel : ℕ}

/-- The path is at a dentry of this inode. -/
def HasInode (s : Vfs) (p : Path) (i : InodeId) : Prop :=
  ∃ d, p.dentry = some d ∧ (s.dentryAt d).inode = i

/-- The state in which this dentry has another text. -/
def withText (s : Vfs) (d : DentryId) (text : PathName) : Vfs :=
  { s with dentryAt := Function.update s.dentryAt d { s.dentryAt d with symlinkedTo := text } }

/-- What a hard link `q`, in the state `s'` after it was made, is to the target that was found in `s`.
If symbolic links are followed, it has the inode of the reduced target. If not, and the target is a
symbolic link, it is reduced in its own directory as if it had the text of the target. It is never a
directory. -/
structure RefersTo (s : Vfs) (fuel : ℕ) (res : ResolveRes) (followLinks : Bool) (q : Path)
    (s' : Vfs) : Prop where
  followed : followLinks = true → ∃ r i, s.reduce fuel res.parent res.target symloopMax = pure r ∧
    s.HasInode r i ∧ s'.HasInode q i
  kept : followLinks = false → ∀ t n, res.target.dentry = some t → q.dentry = some n →
    (s.dentryAt t).type = sIflnk → ∀ fuel',
      s'.reduce fuel' ⟨q.mnt, (s'.dentryAt n).parent⟩ q symloopMax =
        (s'.withText n (s.dentryAt t).symlinkedTo).reduce fuel' ⟨q.mnt, (s'.dentryAt n).parent⟩ q
          symloopMax
  not_dir : ¬ s'.IsDir q

/-- The target is not a symbolic link with a text, or it is followed and leads to a hard link of its
own, made earlier. -/
def LinksItself (s : Vfs) (fuel : ℕ) (res : ResolveRes) (followLinks : Bool) : Prop :=
  s.symlinkTarget res.target = pure none ∨ followLinks = true ∧
    ∃ r i, s.reduce fuel res.parent res.target symloopMax = pure r ∧ s.HasInode r i ∧
      s.HasInode res.target i

theorem symlinkTarget_eq {p : Path} {d : DentryId} (hd : p.dentry = some d) :
    s.symlinkTarget p = pure (if (s.dentryAt d).type = sIflnk ∧ (s.dentryAt d).symlinkedTo ≠ .empty
      then some (s.dentryAt d).symlinkedTo else none) := by
  rw [symlinkTarget, hd]
  rfl

theorem symlinkTarget_eq_none_iff {p : Path} {d : DentryId} (hd : p.dentry = some d) :
    s.symlinkTarget p = pure none ↔
      ((s.dentryAt d).type = sIflnk → (s.dentryAt d).symlinkedTo = .empty) := by
  rw [symlinkTarget_eq hd]
  constructor
  · intro h htype
    by_contra hne
    rw [if_pos ⟨htype, hne⟩] at h
    cases h
  · intro h
    rw [if_neg fun hc => hc.2 (h hc.1)]

/-- A path that is no symbolic link with a text is reduced to itself. -/
theorem reduceLoop_of_not_symlink {resolve : Path → PathName → Outcome ResolveRes} {depth : ℕ}
    {parent src : Path} (h : s.symlinkTarget src = pure none) :
    s.reduceLoop resolve depth parent src = pure src := by
  cases depth with
  | zero => rw [reduceLoop, h]; rfl
  | succ depth => rw [reduceLoop, h]; rfl

theorem reduce_of_not_symlink {depth : ℕ} {parent src : Path} (h : s.symlinkTarget src = pure none) :
    s.reduce fuel parent src depth = pure src := by
  unfold reduce
  split
  · rfl
  · exact reduceLoop_of_not_symlink h

/-- A symbolic link with a text is never reduced to itself. -/
theorem reduce_ne_self {parent src : Path} (h : s.symlinkTarget src ≠ pure none) :
    s.reduce fuel parent src symloopMax ≠ pure src := by
  intro hr
  rw [reduce, if_neg (by decide)] at hr
  exact h (reduceLoop_not_symlink symloopMax hr)

theorem withText_self (d : DentryId) : s.withText d (s.dentryAt d).symlinkedTo = s := by
  unfold withText
  rw [Function.update_eq_self]

theorem dentryAt_withText_self (d : DentryId) (text : PathName) :
    (s.withText d text).dentryAt d = { s.dentryAt d with symlinkedTo := text } :=
  Function.update_self ..

/-- A hard link is what it should be if and only if its target is no symbolic link with a text, or is
followed to a hard link of its own. -/
theorem link_refersTo_iff {cdevs : List ℕ} (hs : (system cdevs).Reachable s) {parent : Option Path}
    {src : PathName} {tgtparent : Option Path} {target : PathName} {followLinks : Bool}
    (henabled : (Op.link parent src tgtparent target followLinks).Enabled s) {q : Path}
    (hlink : s.link fuel parent src tgtparent target followLinks = pure (q, s')) :
    ∃ res, s.resolve fuel tgtparent target = pure res ∧
      (s.RefersTo fuel res followLinks q s' ↔ s.LinksItself fuel res followLinks) := by
  have h := reachable_wellFormed hs
  obtain ⟨m, res, t, hres, ht, hdir, hreduce, hinode, hstMode, htext⟩ :=
    h.linked_made (h.held_parent henabled.2) hlink
  refine ⟨res, hres, ?_⟩
  have hparent := h.held_parent henabled.1
  have hq : q.dentry = some s.dentries := by rw [m.target]
  have hnew : s'.dentryAt s.dentries = ⟨src.basename, (s.dentryAt t).inode, (s.dentryAt t).stMode,
      .empty, some m.d, ∅, []⟩ := by
    rw [m.dentryAt_eq h hparent, if_neg (m.d_lt h hparent).ne', if_pos rfl, hinode, hstMode, htext]
  have htype : (s'.dentryAt s.dentries).type = (s.dentryAt t).type := by rw [hnew]; rfl
  have hself : s'.symlinkTarget q = pure none :=
    (symlinkTarget_eq_none_iff hq).mpr fun _ => by rw [hnew]
  have hhas : ∀ i, s'.HasInode q i ↔ s.HasInode res.target i := by
    intro i
    constructor
    · rintro ⟨d, hd, rfl⟩
      obtain rfl := Option.some.inj (hq.symm.trans hd)
      exact ⟨t, ht, by rw [hnew]⟩
    · rintro ⟨d, hd, rfl⟩
      obtain rfl := Option.some.inj (ht.symm.trans hd)
      exact ⟨s.dentries, hq, by rw [hnew]⟩
  constructor
  · intro hr
    refine or_iff_not_imp_left.mpr fun hlnk => ?_
    have hfollow : followLinks = true := by
      by_contra hfollow
      rw [Bool.not_eq_true] at hfollow
      -- With the text of the target the new entry would not be reduced to itself.
      have hne := mt (symlinkTarget_eq_none_iff ht).mpr hlnk
      have hkept := hr.kept hfollow t s.dentries ht hq (by_contra fun hn => hne fun hc => absurd hc hn) fuel
      rw [reduce_of_not_symlink hself] at hkept
      refine reduce_ne_self (fun hnone => hne ?_) hkept.symm
      have hnone := (symlinkTarget_eq_none_iff hq).mp hnone
      rw [dentryAt_withText_self] at hnone
      exact fun hc => hnone (htype.trans hc)
    obtain ⟨r, i, hred, hri, hqi⟩ := hr.followed hfollow
    exact ⟨hfollow, r, i, hred, hri, (hhas i).mp hqi⟩
  · intro hl
    refine ⟨fun hfollow => ?_, fun hfollow t' n ht' hn hlnk fuel' => ?_, ?_⟩
    · obtain hnone | ⟨-, r, i, hred, hri, hti⟩ := hl
      · exact ⟨res.target, _, reduce_of_not_symlink hnone, ⟨t, ht, rfl⟩, (hhas _).mpr ⟨t, ht, rfl⟩⟩
      · exact ⟨r, i, hred, hri, (hhas i).mpr hti⟩
    · obtain rfl := Option.some.inj (ht.symm.trans ht')
      obtain rfl := Option.some.inj (hq.symm.trans hn)
      have hempty : (s.dentryAt t).symlinkedTo = (s'.dentryAt s.dentries).symlinkedTo := by
        obtain hnone | ⟨hc, -⟩ := hl
        · rw [(symlinkTarget_eq_none_iff ht).mp hnone hlnk, hnew]
        · cases hfollow.symm.trans hc
      rw [hempty, withText_self]
    · rintro ⟨d, hd, hc⟩
      obtain rfl := Option.some.inj (hq.symm.trans hd)
      exact hdir (htype.symm.trans hc)

/-- A hard link to a regular file. -/
theorem link_refersTo_file : ∃ s, (system []).Reachable s ∧ ∃ res q s',
    s.link 0 none (.absolute ["c"]) none (.absolute ["b"]) true = pure (q, s') ∧
      s.RefersTo 0 res true q s' := by
  have hs : (system []).Reachable _ := reachable_of_foldlM 0
    [.create none (.absolute ["b"]) 0o100644 0] (by simp [Op.Enabled]) (.init rfl) rfl
  obtain ⟨res, hres, hiff⟩ := @link_refersTo_iff _ _ 0 _ hs none (.absolute ["c"]) none (.absolute ["b"]) true
    (by simp [Op.Enabled]) _ rfl
  cases hres
  exact ⟨_, hs, _, _, _, rfl, hiff.mpr (.inl rfl)⟩

/-- The symbolic link `/a` leads to the file `/b`. Whether it is followed or not, a hard link `/c` to
`/a` has the inode of `/a` and is reduced to itself. -/
theorem link_not_refersTo : ∃ s, (system []).Reachable s ∧ ∃ res,
    s.resolve 0 none (.absolute ["a"]) = pure res ∧
      s.reduce 0 res.parent res.target symloopMax = pure ⟨some 0, some 3⟩ ∧
      ∀ followLinks, ∃ q s',
        s.link 0 none (.absolute ["c"]) none (.absolute ["a"]) followLinks = pure (q, s') ∧
          s'.HasInode q 4 ∧ s.HasInode res.target 4 ∧ s'.reduce 0 s.root q symloopMax = pure q ∧
            ¬ s.RefersTo 0 res followLinks q s' := by
  have hs : (system []).Reachable _ := reachable_of_foldlM 0
    [.create none (.absolute ["b"]) 0o100644 0, .symlink none (.absolute ["a"]) (.relative 0 ["b"])]
    (by simp [Op.Enabled]) (.init rfl) rfl
  refine ⟨_, hs, _, rfl, rfl, fun followLinks => ?_⟩
  cases followLinks with
  | true =>
      refine ⟨_, _, rfl, ⟨5, rfl, rfl⟩, ⟨4, rfl, rfl⟩, rfl, fun h => ?_⟩
      obtain ⟨r, i, hr, ⟨d, hd, hi⟩, ⟨n, hn, hi'⟩⟩ := h.followed rfl
      cases hr
      cases hd
      cases hn
      cases hi.trans hi'.symm
  | false =>
      refine ⟨_, _, rfl, ⟨5, rfl, rfl⟩, ⟨4, rfl, rfl⟩, rfl, fun h => ?_⟩
      have hkept := h.kept rfl 4 5 rfl rfl rfl 0
      cases hkept

end Vfs

end Ilobilix.Fs
