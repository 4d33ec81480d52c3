import Ilobilix.Foundation.Splice
import Ilobilix.Memory.Vmm.Object

/-!
# Memory objects as byte arrays

Any number of objects with the four calls that reach their bytes. What an object holds at a position
is what the last call that covers it has put there: `valueAt` looks for that call in the history, and
says nothing of pages. `call_byte` is one call and `byte_run` a whole run, while the physical memory
manager has a page for every request.
-/

namespace Ilobilix.Vmm

variable {ι : Type*} [DecidableEq ι]

/-- The objects that there are, by their addresses. -/
abbrev Objects (ι : Type*) : Type _ := ι → Object

namespace Objects

/-- `get_page` of one object; a page that is new stays in it. -/
def getPage (alloc : ι → ℕ → Bool) (objs : Objects ι) (id : ι) (idx : ℕ) :
    Objects ι × Option PageData :=
  match (objs id).getPage (alloc id) idx with
  | some (page, obj) => (Function.update objs id obj, some page)
  | none => (objs, none)

/-- The loop of `object::copy_to`, from the object `id` to `other`. -/
def copyLoop (alloc : ι → ℕ → Bool) (id other : ι) (offset length : ℕ) :
    (fuel progress : ℕ) → Objects ι → Objects ι × ℕ
  | 0, progress, objs => (objs, progress)
  | fuel + 1, progress, objs =>
      if progress < length then
        let misalign := (progress + offset) % 2 ^ 64 % psize
        let idx := (progress + offset) % 2 ^ 64 / psize
        let csize := min (psize - misalign) (length - progress)
        match objs.getPage alloc id idx with
        | (objs, none) => (objs, progress)
        | (objs, some ourPage) =>
            match objs.getPage alloc other idx with
            | (objs, none) => (objs, progress)
            | (objs, some theirPage) =>
                let page := theirPage.copy misalign csize fun k => ourPage (misalign + k)
                copyLoop alloc id other offset length fuel (progress + csize)
                  (Function.update objs other ((objs other).setPage idx page))
      else (objs, progress)

/-- `object::copy_to`. -/
def copyTo (alloc : ι → ℕ → Bool) (objs : Objects ι) (id other : ι) (offset length : ℕ) :
    Objects ι × ℕ :=
  copyLoop alloc id other offset length length 0 objs

end Objects

/-- `object::read`, with the bytes that it reports as well. -/
def Object.readCount (alloc : ℕ → Bool) (obj : Object) (offset length : ℕ) :
    Object × List UInt8 × ℕ :=
  loop alloc offset length
    (fun _ misalign csize page buffer =>
      (page, buffer ++ (List.range csize).map fun k => page (misalign + k))) length 0 obj []

theorem Object.read_eq_readCount (alloc : ℕ → Bool) (obj : Object) (offset length : ℕ) :
    obj.read alloc offset length =
      ((obj.readCount alloc offset length).1, (obj.readCount alloc offset length).2.1) := rfl

theorem Object.readCount_progress (obj : Object) (offset length : ℕ) :
    (obj.readCount (fun _ => true) offset length).2.2 = length :=
  (loop_rule offset length _ (fun _ _ => True) (fun _ _ _ _ _ => id) length 0 obj []
    (Nat.zero_le _) (Nat.sub_le _ _) trivial).1

namespace Objects

theorem getPage_eq (objs : Objects ι) (id : ι) (idx : ℕ) : ∃ page objs',
    objs.getPage (fun _ _ => true) id idx = (objs', some page) ∧
      (∀ id' i, (objs' id').byte i = (objs id').byte i) ∧
      ∀ j < psize, page j = (objs id).byte (idx * psize + j) := by
  obtain ⟨page, obj, hget, hobj, hpage⟩ := Object.getPage_eq (objs id) idx
  refine ⟨page, Function.update objs id obj, ?_, fun id' i => ?_, hpage⟩
  · rw [getPage, hget]
  · by_cases hid : id' = id
    · rw [hid, Function.update_self, hobj]
    · rw [Function.update_of_ne hid]

/-- One turn of `copy_to`. -/
theorem byte_copyChunk (objs : Objects ι) (id other : ι) {objs' : Objects ι}
    {ourPage theirPage : PageData} {pos csize : ℕ} (hobjs : ∀ id' i, (objs' id').byte i = (objs id').byte i)
    (hour : ∀ j < psize, ourPage j = (objs id).byte (pos / psize * psize + j))
    (htheir : ∀ j < psize, theirPage j = (objs other).byte (pos / psize * psize + j))
    (hc : csize ≤ psize - pos % psize) (id' : ι) (i : ℕ) :
    (Function.update objs' other ((objs' other).setPage (pos / psize)
        (theirPage.copy (pos % psize) csize fun k => ourPage (pos % psize + k))) id').byte i =
      if id' = other ∧ pos ≤ i ∧ i < pos + csize then (objs id).byte i else (objs id').byte i := by
  by_cases hid : id' = other
  · rw [hid, Function.update_self, Object.byte_setPage_copy (hobjs other) htheir hc]
    by_cases hin : pos ≤ i ∧ i < pos + csize
    · have hpos : pos / psize * psize + (pos % psize + (i - pos)) = i := by
        have := Nat.div_add_mod' pos psize
        omega
      rw [if_pos hin, if_pos ⟨rfl, hin⟩, hour _ (by omega), hpos]
    · rw [if_neg hin, if_neg fun h => hin h.2]
  · rw [Function.update_of_ne hid, hobjs, if_neg fun h => hid h.1]

/-- The loop copies every byte that is left. An object that is copied to itself stays as it is. -/
theorem byte_copyLoop (id other : ι) {offset length : ℕ} (hrange : offset + length ≤ 2 ^ 64)
    (fuel progress : ℕ) (objs : Objects ι) (hp : progress ≤ length)
    (hfuel : length - progress ≤ fuel) :
    let r := copyLoop (fun _ _ => true) id other offset length fuel progress objs
    r.2 = length ∧ ∀ id' i, (r.1 id').byte i =
      if id' = other ∧ offset + progress ≤ i ∧ i < offset + length then (objs id).byte i
      else (objs id').byte i := by
  induction fuel generalizing progress objs with
  | zero =>
      refine ⟨?_, fun id' i => ?_⟩
      · rw [copyLoop]
        omega
      · rw [if_neg (by omega)]
        rfl
  | succ fuel ih =>
      by_cases hlt : progress < length
      · generalize hpos : (progress + offset) % 2 ^ 64 = pos
        have hposeq : pos = offset + progress := by omega
        obtain ⟨ourPage, objs₁, hget₁, hobjs₁, hour⟩ := objs.getPage_eq id (pos / psize)
        obtain ⟨theirPage, objs₂, hget₂, hobjs₂, htheir⟩ := objs₁.getPage_eq other (pos / psize)
        simp only [copyLoop, if_pos hlt, hpos, hget₁, hget₂]
        generalize hc : min (psize - pos % psize) (length - progress) = csize
        have hmod : pos % psize < psize := Nat.mod_lt _ (by decide)
        have hc1 : csize ≤ psize - pos % psize := hc ▸ Nat.min_le_left _ _
        have hc2 : csize ≤ length - progress := hc ▸ Nat.min_le_right _ _
        have hc3 : 0 < csize := by omega
        have hchunk := byte_copyChunk objs id other
          (fun id' i => (hobjs₂ id' i).trans (hobjs₁ id' i)) hour
          (fun j hj => (htheir j hj).trans (hobjs₁ _ _)) hc1
        obtain ⟨hlen, hbyte⟩ := ih (progress + csize) _ (by omega) (by omega)
        refine ⟨hlen, fun id' i => ?_⟩
        rw [hbyte id' i, hchunk id i, hchunk id' i, ite_self]
        by_cases hin : id' = other ∧ offset + progress ≤ i ∧ i < offset + length
        · rw [if_pos hin]
          by_cases hnext : offset + (progress + csize) ≤ i
          · rw [if_pos ⟨hin.1, hnext, hin.2.2⟩]
          · rw [if_neg fun h => hnext h.2.1, if_pos ⟨hin.1, by omega, by omega⟩]
        · rw [if_neg hin, if_neg fun h => hin ⟨h.1, by omega, by omega⟩,
            if_neg fun h => hin ⟨h.1, by omega, by omega⟩]
      · simp only [copyLoop, if_neg hlt]
        refine ⟨by omega, fun id' i => ?_⟩
        rw [if_neg (by omega)]

end Objects

/-- A call with its arguments. -/
inductive ObjectCall (ι : Type*) where
  | write (id : ι) (offset : ℕ) (buffer : List UInt8)
  | clear (id : ι) (offset : ℕ) (value : UInt8) (length : ℕ)
  | read (id : ι) (offset length : ℕ)
  | copyTo (id other : ι) (offset length : ℕ)

namespace ObjectCall

def offset : ObjectCall ι → ℕ
  | write _ offset _ | clear _ offset _ _ | read _ offset _ | copyTo _ _ offset _ => offset

def length : ObjectCall ι → ℕ
  | write _ _ buffer => buffer.length
  | clear _ _ _ length | read _ _ length | copyTo _ _ _ length => length

/-- The objects after the call, the number of bytes that it reports, and what a `read` has put into
its buffer. -/
def run (alloc : ι → ℕ → Bool) (objs : Objects ι) : ObjectCall ι → Objects ι × ℕ × List UInt8
  | write id offset buffer =>
      let (obj, progress) := (objs id).write (alloc id) offset buffer
      (Function.update objs id obj, progress, [])
  | clear id offset value length =>
      let (obj, progress) := (objs id).clear (alloc id) offset value length
      (Function.update objs id obj, progress, [])
  | read id offset length =>
      let (obj, buffer, progress) := (objs id).readCount (alloc id) offset length
      (Function.update objs id obj, progress, buffer)
  | copyTo id other offset length =>
      let (objs, progress) := objs.copyTo alloc id other offset length
      (objs, progress, [])

/-- What a call does to byte arrays. -/
def apply (bytes : ι → ℕ → UInt8) : ObjectCall ι → ι → ℕ → UInt8
  | write id offset buffer, id', i =>
      if id' = id ∧ offset ≤ i ∧ i < offset + buffer.length then buffer.getD (i - offset) 0
      else bytes id' i
  | clear id offset value length, id', i =>
      if id' = id ∧ offset ≤ i ∧ i < offset + length then value else bytes id' i
  | read _ _ _, id', i => bytes id' i
  | copyTo id other offset length, id', i =>
      if id' = other ∧ offset ≤ i ∧ i < offset + length then bytes id i else bytes id' i

def InRange (c : ObjectCall ι) : Prop := c.offset + c.length < 2 ^ 64

instance (c : ObjectCall ι) : Decidable c.InRange :=
  inferInstanceAs (Decidable (c.offset + c.length < 2 ^ 64))

end ObjectCall

/-- The objects after a history of calls, the last one first. -/
def objectsAfter (alloc : ι → ℕ → Bool) : List (ObjectCall ι) → Objects ι
  | [] => fun _ => Object.new
  | c :: history => (c.run alloc (objectsAfter alloc history)).1

/-- The byte that the last call which covers the position has put there; zero if there is none. -/
def valueAt : List (ObjectCall ι) → ι → ℕ → UInt8
  | [] => fun _ _ => 0
  | c :: history => c.apply (valueAt history)

/-! ## One call -/

/-- Storing to one of the objects. -/
theorem byte_update_store (objs : Objects ι) (id : ι) {offset length : ℕ}
    (hrange : offset + length < 2 ^ 64) (src : ℕ → UInt8) (id' : ι) (i : ℕ) :
    (Function.update objs id ((objs id).store (fun _ => true) offset length src).1 id').byte i =
      if id' = id ∧ offset ≤ i ∧ i < offset + length then src (i - offset)
      else (objs id').byte i := by
  by_cases hid : id' = id
  · rw [hid, Function.update_self, Object.byte_store _ hrange.le]
    simp only [true_and]
  · rw [Function.update_of_ne hid, if_neg fun h => hid h.1]

namespace ObjectCall

/-- Every call does to the bytes of the objects what it does to byte arrays. -/
theorem byte_run (objs : Objects ι) (c : ObjectCall ι) (hc : c.InRange) (id' : ι) (i : ℕ) :
    ((c.run (fun _ _ => true) objs).1 id').byte i =
      c.apply (fun id i => (objs id).byte i) id' i := by
  cases c with
  | write id offset buffer =>
      have hrange : offset + buffer.length < 2 ^ 64 := hc
      exact byte_update_store objs id hrange (fun k => buffer.getD k 0) id' i
  | clear id offset value length =>
      have hrange : offset + length < 2 ^ 64 := hc
      exact byte_update_store objs id hrange (fun _ => value) id' i
  | read id offset length =>
      change (Function.update objs id ((objs id).read (fun _ => true) offset length).1 id').byte i =
        (objs id').byte i
      by_cases hid : id' = id
      · rw [hid, Function.update_self, Object.byte_read]
      · rw [Function.update_of_ne hid]
  | copyTo id other offset length =>
      have hrange : offset + length < 2 ^ 64 := hc
      exact (Objects.byte_copyLoop id other hrange.le length 0 objs (Nat.zero_le _)
        (Nat.sub_le _ _)).2 id' i

theorem progress_run (objs : Objects ι) (c : ObjectCall ι) (hc : c.InRange) :
    (c.run (fun _ _ => true) objs).2.1 = c.length := by
  cases c with
  | write id offset buffer =>
      exact (objs id).store_progress offset buffer.length fun k => buffer.getD k 0
  | clear id offset value length => exact (objs id).store_progress offset length fun _ => value
  | read id offset length => exact (objs id).readCount_progress offset length
  | copyTo id other offset length =>
      have hrange : offset + length < 2 ^ 64 := hc
      exact (Objects.byte_copyLoop id other hrange.le length 0 objs (Nat.zero_le _)
        (Nat.sub_le _ _)).1

end ObjectCall

/-! ## A run -/

theorem byte_objectsAfter (history : List (ObjectCall ι)) (hrange : ∀ c ∈ history, c.InRange)
    (id : ι) (i : ℕ) :
    (objectsAfter (fun _ _ => true) history id).byte i = valueAt history id i := by
  induction history generalizing id i with
  | nil => rfl
  | cons c history ih =>
      obtain ⟨hc, hrest⟩ := List.forall_mem_cons.mp hrange
      have hbytes : (fun id i => (objectsAfter (fun _ _ => true) history id).byte i) =
          valueAt history := funext₂ (ih hrest)
      rw [objectsAfter, ObjectCall.byte_run _ c hc, hbytes]
      rfl

theorem objects_are_byte_arrays (history : List (ObjectCall ι))
    (hrange : ∀ c ∈ history, c.InRange) (c : ObjectCall ι) (hc : c.InRange) :
    let objs := objectsAfter (fun _ _ => true) history
    let r := c.run (fun _ _ => true) objs
    (∀ id i, (objs id).byte i = valueAt history id i) ∧
      (∀ id i, (r.1 id).byte i = c.apply (fun id i => (objs id).byte i) id i) ∧
      r.2.1 = c.length ∧
      ∀ id offset length, c = .read id offset length →
        r.2.2 = (List.range length).map fun k => valueAt history id (offset + k) := by
  refine ⟨byte_objectsAfter history hrange, ObjectCall.byte_run _ c hc,
    ObjectCall.progress_run _ c hc, ?_⟩
  rintro id offset length rfl
  have hsum : offset + length < 2 ^ 64 := hc
  have hread := Object.read_eq (objectsAfter (fun _ _ => true) history id) hsum.le
  simp only [byte_objectsAfter history hrange] at hread
  exact hread

theorem objects_are_byte_arrays_copied :
    ((ObjectCall.read 1 4094 6).run (fun _ _ => true)
      (objectsAfter (fun _ _ => true) [.copyTo 0 1 4095 4, .clear 0 4096 9 2,
        .write 0 4090 [1, 2, 3, 4, 5, 6, 7, 8]])).2.2 = [0, 6, 9, 9, 0, 0] :=
  (objects_are_byte_arrays [.copyTo (0 : ℕ) 1 4095 4, .clear 0 4096 9 2,
      .write 0 4090 [1, 2, 3, 4, 5, 6, 7, 8]] (by decide) (.read 1 4094 6) (by decide)).2.2.2
    1 4094 6 rfl

end Ilobilix.Vmm
