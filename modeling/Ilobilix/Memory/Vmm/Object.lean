import Ilobilix.Memory.Pagemap.Arch

/-!
# Memory objects

`vmm::object` is a sparse sequence of pages. `read`, `write` and `clear` go through a range page by
page; a page that is touched for the first time is requested, and a `memobject` gets a cleared one.
`alloc` says for which indices the physical memory manager has a page: a request that fails ends the
loop early.

`byte` is the sequence of bytes that an object stands for, with zeroes where there is no page.
`byte_store` and `read_eq` say what the loops do to it, whatever the pages are.
-/

namespace Ilobilix.Vmm

/-- The contents of a page, by the offset in the page. -/
def PageData : Type := ℕ → UInt8

/-- A page from `pmm::alloc<...>(1, true)`. -/
def PageData.cleared : PageData := fun _ => 0

/-- `std::memcpy` or `std::memset` of `csize` bytes to a place in a page. -/
def PageData.copy (page : PageData) (misalign csize : ℕ) (src : ℕ → UInt8) : PageData :=
  fun j => if misalign ≤ j ∧ j < misalign + csize then src (j - misalign) else page j

/-- `vmm::memobject`. -/
structure Object where
  pages : ℕ → Option PageData

namespace Object

def new : Object := ⟨fun _ => none⟩

def setPage (obj : Object) (idx : ℕ) (page : PageData) : Object :=
  ⟨Function.update obj.pages idx (some page)⟩

/-- `object::get_page`. -/
def getPage (alloc : ℕ → Bool) (obj : Object) (idx : ℕ) : Option (PageData × Object) :=
  match obj.pages idx with
  | some page => some (page, obj)
  | none =>
      if alloc idx then some (.cleared, obj.setPage idx .cleared) else none

/-- The loop over the pages of a range, with what it does to a page. It returns the object, the
result and `progress`. Positions have 64 bits. Each turn makes progress, so `length` turns are
enough. -/
def loop {β : Type*} (alloc : ℕ → Bool) (offset length : ℕ)
    (body : (progress misalign csize : ℕ) → PageData → β → PageData × β) :
    (fuel progress : ℕ) → Object → β → Object × β × ℕ
  | 0, progress, obj, b => (obj, b, progress)
  | fuel + 1, progress, obj, b =>
      if progress < length then
        let misalign := (progress + offset) % 2 ^ 64 % psize
        let idx := (progress + offset) % 2 ^ 64 / psize
        let csize := min (psize - misalign) (length - progress)
        match obj.getPage alloc idx with
        | none => (obj, b, progress)
        | some (page, obj) =>
            let (page, b) := body progress misalign csize page b
            loop alloc offset length body fuel (progress + csize) (obj.setPage idx page) b
      else (obj, b, progress)

/-- `object::write` and `object::clear`, with the byte to store at each distance from `offset`. -/
def store (alloc : ℕ → Bool) (obj : Object) (offset length : ℕ) (src : ℕ → UInt8) : Object × ℕ :=
  let (obj, _, progress) := loop alloc offset length
    (fun progress misalign csize page (_ : Unit) =>
      (page.copy misalign csize fun k => src (progress + k), ())) length 0 obj ()
  (obj, progress)

def write (alloc : ℕ → Bool) (obj : Object) (offset : ℕ) (buffer : List UInt8) : Object × ℕ :=
  obj.store alloc offset buffer.length fun k => buffer.getD k 0

def clear (alloc : ℕ → Bool) (obj : Object) (offset : ℕ) (value : UInt8) (length : ℕ) :
    Object × ℕ :=
  obj.store alloc offset length fun _ => value

/-- `object::read` into a buffer of the given length. It returns what it has put into the buffer. -/
def read (alloc : ℕ → Bool) (obj : Object) (offset length : ℕ) : Object × List UInt8 :=
  let (obj, buffer, _) := loop alloc offset length
    (fun _ misalign csize page buffer =>
      (page, buffer ++ (List.range csize).map fun k => page (misalign + k))) length 0 obj []
  (obj, buffer)

/-! ## The bytes of an object -/

/-- The byte at a position; a page that is missing counts as cleared. -/
def byte (obj : Object) (i : ℕ) : UInt8 :=
  match obj.pages (i / psize) with
  | some page => page (i % psize)
  | none => 0

theorem getPage_eq (obj : Object) (idx : ℕ) : ∃ page obj',
    obj.getPage (fun _ => true) idx = some (page, obj') ∧ (∀ i, obj'.byte i = obj.byte i) ∧
      ∀ j < psize, page j = obj.byte (idx * psize + j) := by
  have hpos : 0 < psize := by decide
  have hidx : ∀ j < psize, (idx * psize + j) / psize = idx ∧ (idx * psize + j) % psize = j :=
    fun j hj => ⟨by rw [Nat.mul_comm, Nat.mul_add_div hpos, Nat.div_eq_of_lt hj, Nat.add_zero],
      by rw [Nat.mul_comm, Nat.mul_add_mod, Nat.mod_eq_of_lt hj]⟩
  unfold getPage
  cases hp : obj.pages idx with
  | some page =>
      refine ⟨page, obj, rfl, fun _ => rfl, fun j hj => ?_⟩
      simp [byte, hidx j hj, hp]
  | none =>
      refine ⟨.cleared, obj.setPage idx .cleared, by simp, fun i => ?_, fun j hj => ?_⟩
      · by_cases hi : i / psize = idx
        · simp [byte, setPage, hi, hp, PageData.cleared]
        · simp [byte, setPage, hi]
      · simp [byte, hidx j hj, hp, PageData.cleared]

/-- The bytes of a chunk are those of its page between `misalign` and `misalign + csize`. -/
theorem chunk_iff {pos csize i : ℕ} (hc : csize ≤ psize - pos % psize) :
    i / psize = pos / psize ∧ pos % psize ≤ i % psize ∧ i % psize < pos % psize + csize ↔
      pos ≤ i ∧ i < pos + csize := by
  unfold psize at *
  omega

/-- Copying to a page changes the bytes of the chunk. -/
theorem byte_setPage_copy {obj obj' : Object} {page : PageData} {pos csize : ℕ} {src : ℕ → UInt8}
    (hobj : ∀ i, obj'.byte i = obj.byte i)
    (hpage : ∀ j < psize, page j = obj.byte (pos / psize * psize + j))
    (hc : csize ≤ psize - pos % psize) (i : ℕ) :
    (obj'.setPage (pos / psize) (page.copy (pos % psize) csize src)).byte i =
      if pos ≤ i ∧ i < pos + csize then src (i - pos) else obj.byte i := by
  have hiff := chunk_iff (i := i) hc
  by_cases hidx : i / psize = pos / psize
  · have hsub : i % psize - pos % psize = i - pos ∨ ¬(pos % psize ≤ i % psize) := by
      unfold psize at *
      omega
    have hread : page (i % psize) = obj.byte i := by
      rw [hpage _ (Nat.mod_lt _ (by decide)), ← hidx, Nat.div_add_mod']
    simp only [byte, setPage, hidx, Function.update_self, PageData.copy]
    by_cases hin : pos ≤ i ∧ i < pos + csize
    · have hin' := hiff.2 hin
      rw [if_pos hin'.2, if_pos hin, hsub.resolve_right (by simp [hin'.2.1])]
    · have hin' : ¬(pos % psize ≤ i % psize ∧ i % psize < pos % psize + csize) :=
        fun h => hin (hiff.1 ⟨hidx, h⟩)
      rw [if_neg hin', if_neg hin, hread]
      simp [byte, hidx]
  · have hin : ¬(pos ≤ i ∧ i < pos + csize) := fun h => hidx (hiff.2 h).1
    rw [if_neg hin, ← hobj i]
    simp [byte, setPage, hidx]

/-! ## The loops -/

/-- The loop goes through the whole range, and what the bodies keep holds of the result. -/
theorem loop_rule {β : Type*} (offset length : ℕ)
    (body : (progress misalign csize : ℕ) → PageData → β → PageData × β) (P : ℕ → β → Prop)
    (hbody : ∀ progress misalign csize page b,
      P progress b → P (progress + csize) (body progress misalign csize page b).2)
    (fuel progress : ℕ) (obj : Object) (b : β) (hp : progress ≤ length)
    (hfuel : length - progress ≤ fuel) (hb : P progress b) :
    let r := loop (fun _ => true) offset length body fuel progress obj b
    r.2.2 = length ∧ P length r.2.1 := by
  induction fuel generalizing progress obj b with
  | zero =>
      have hlen : progress = length := by omega
      exact ⟨hlen, hlen ▸ hb⟩
  | succ fuel ih =>
      by_cases hlt : progress < length
      · obtain ⟨page, obj', hget, -, -⟩ := getPage_eq obj ((progress + offset) % 2 ^ 64 / psize)
        have hmod : (progress + offset) % 2 ^ 64 % psize < psize := Nat.mod_lt _ (by decide)
        simp only [loop, if_pos hlt, hget]
        exact ih _ _ _ (by omega) (by omega) (hbody _ _ _ _ _ hb)
      · have hlen : progress = length := by omega
        simp only [loop, if_neg hlt]
        exact ⟨hlen, hlen ▸ hb⟩

/-- The position of a chunk, which does not wrap around inside the chunk. -/
theorem chunk_pos {pos csize : ℕ} (hpos : pos < 2 ^ 64) (hc : csize ≤ psize - pos % psize) :
    pos + csize ≤ 2 ^ 64 := by
  unfold psize at hc
  omega

/-- The loop stores every byte that is left, and nothing else. Behind the last position the range goes on
at the first one. -/
theorem loop_store (offset length : ℕ) (src : ℕ → UInt8) (fuel progress : ℕ) (obj : Object)
    (hoffset : offset < 2 ^ 64) (hlength : length ≤ 2 ^ 64) (hp : progress ≤ length)
    (hfuel : length - progress ≤ fuel) :
    let r := loop (fun _ => true) offset length
      (fun progress misalign csize page (_ : Unit) =>
        (page.copy misalign csize fun k => src (progress + k), ())) fuel progress obj ()
    ∀ i, r.1.byte i =
      if i < 2 ^ 64 ∧ progress ≤ (i + 2 ^ 64 - offset) % 2 ^ 64 ∧
          (i + 2 ^ 64 - offset) % 2 ^ 64 < length then src ((i + 2 ^ 64 - offset) % 2 ^ 64)
      else obj.byte i := by
  induction fuel generalizing progress obj with
  | zero =>
      intro _ i
      rw [if_neg (by omega)]
      rfl
  | succ fuel ih =>
      by_cases hlt : progress < length
      · generalize hpos : (progress + offset) % 2 ^ 64 = pos
        have hpos64 : pos < 2 ^ 64 := hpos ▸ Nat.mod_lt _ (by norm_num)
        obtain ⟨page, obj', hget, hobj, hpage⟩ := getPage_eq obj (pos / psize)
        have hmod : pos % psize < psize := Nat.mod_lt _ (by decide)
        simp only [loop, if_pos hlt, hpos, hget]
        generalize hc : min (psize - pos % psize) (length - progress) = csize
        have hc1 : csize ≤ psize - pos % psize := hc ▸ Nat.min_le_left _ _
        have hc2 : csize ≤ length - progress := hc ▸ Nat.min_le_right _ _
        have hc3 : 0 < csize := by omega
        have hend := chunk_pos hpos64 hc1
        have hbyte := ih (progress + csize)
          (obj'.setPage (pos / psize) (page.copy (pos % psize) csize fun k => src (progress + k)))
          (by omega) (by omega)
        intro i
        rw [hbyte i, byte_setPage_copy hobj hpage hc1 i]
        generalize hdist : (i + 2 ^ 64 - offset) % 2 ^ 64 = dist
        by_cases hin : i < 2 ^ 64 ∧ progress ≤ dist ∧ dist < length
        · rw [if_pos hin]
          by_cases hnext : progress + csize ≤ dist
          · rw [if_pos ⟨hin.1, hnext, hin.2.2⟩]
          · rw [if_neg (by omega), if_pos (by omega)]
            congr 1
            omega
        · rw [if_neg hin, if_neg (by omega), if_neg (by omega)]
      · simp only [loop, if_neg hlt]
        intro i
        rw [if_neg (by omega)]

theorem byte_store_wrap (obj : Object) {offset length : ℕ} (hoffset : offset < 2 ^ 64)
    (hlength : length ≤ 2 ^ 64) (src : ℕ → UInt8) (i : ℕ) :
    (obj.store (fun _ => true) offset length src).1.byte i =
      if i < 2 ^ 64 ∧ (i + 2 ^ 64 - offset) % 2 ^ 64 < length then
        src ((i + 2 ^ 64 - offset) % 2 ^ 64)
      else obj.byte i := by
  refine (loop_store offset length src length 0 obj hoffset hlength (Nat.zero_le _)
    (Nat.sub_le _ _) i).trans ?_
  simp only [Nat.zero_le, true_and]

theorem byte_store (obj : Object) {offset length : ℕ} (hrange : offset + length ≤ 2 ^ 64)
    (src : ℕ → UInt8) (i : ℕ) :
    (obj.store (fun _ => true) offset length src).1.byte i =
      if offset ≤ i ∧ i < offset + length then src (i - offset) else obj.byte i := by
  by_cases hoffset : offset < 2 ^ 64
  · rw [byte_store_wrap obj hoffset (by omega)]
    by_cases hin : offset ≤ i ∧ i < offset + length
    · rw [if_pos hin, if_pos (by omega)]
      congr 1
      omega
    · rw [if_neg hin, if_neg (by omega)]
  · have hlength : length = 0 := by omega
    rw [hlength, if_neg (by omega)]
    rfl

theorem store_progress (obj : Object) (offset length : ℕ) (src : ℕ → UInt8) :
    (obj.store (fun _ => true) offset length src).2 = length :=
  (loop_rule offset length _ (fun _ _ => True) (fun _ _ _ _ _ => id) length 0 obj ()
    (Nat.zero_le _) (Nat.sub_le _ _) trivial).1

/-- The loop appends every byte that is left, and leaves the bytes of the object alone. -/
theorem loop_load (offset length fuel progress : ℕ) (obj : Object) (buffer : List UInt8)
    (hp : progress ≤ length) (hfuel : length - progress ≤ fuel) :
    let r := loop (fun _ => true) offset length
      (fun _ misalign csize page buffer =>
        (page, buffer ++ (List.range csize).map fun k => page (misalign + k)))
      fuel progress obj buffer
    (∀ i, r.1.byte i = obj.byte i) ∧ r.2.1 = buffer ++
      (List.range (length - progress)).map fun k => obj.byte ((offset + progress + k) % 2 ^ 64) := by
  induction fuel generalizing progress obj buffer with
  | zero =>
      have hlen : length - progress = 0 := by omega
      simp [loop, hlen]
  | succ fuel ih =>
      by_cases hlt : progress < length
      · generalize hpos : (progress + offset) % 2 ^ 64 = pos
        have hpos64 : pos < 2 ^ 64 := hpos ▸ Nat.mod_lt _ (by norm_num)
        obtain ⟨page, obj', hget, hobj, hpage⟩ := getPage_eq obj (pos / psize)
        have hmod : pos % psize < psize := Nat.mod_lt _ (by decide)
        simp only [loop, if_pos hlt, hpos, hget]
        generalize hc : min (psize - pos % psize) (length - progress) = csize
        have hc1 : csize ≤ psize - pos % psize := hc ▸ Nat.min_le_left _ _
        have hc2 : csize ≤ length - progress := hc ▸ Nat.min_le_right _ _
        have hc3 : 0 < csize := by omega
        have hend := chunk_pos hpos64 hc1
        have hsame : ∀ i, (obj'.setPage (pos / psize) page).byte i = obj.byte i := by
          intro i
          by_cases hidx : i / psize = pos / psize
          · simp only [byte, setPage, hidx, Function.update_self]
            rw [hpage _ (Nat.mod_lt _ (by decide)), ← hidx, Nat.div_add_mod']
            rfl
          · rw [← hobj i]
            simp [byte, setPage, hidx]
        obtain ⟨hbyte, hbuf⟩ := ih (progress + csize) (obj'.setPage (pos / psize) page)
          (buffer ++ (List.range csize).map fun k => page (pos % psize + k)) (by omega) (by omega)
        refine ⟨fun i => (hbyte i).trans (hsame i), ?_⟩
        rw [hbuf, List.append_assoc]
        congr 1
        have hsplit : length - progress = csize + (length - (progress + csize)) := by omega
        rw [hsplit, List.range_add, List.map_append, List.map_map]
        congr 1
        · refine List.map_congr_left fun k hk => ?_
          rw [List.mem_range] at hk
          rw [hpage _ (by omega)]
          congr 1
          unfold psize
          omega
        · refine List.map_congr_left fun k _ => ?_
          rw [hsame, Function.comp_apply]
          congr 2
          omega
      · have hlen : length - progress = 0 := by omega
        simp [loop, if_neg hlt, hlen]

theorem byte_read (obj : Object) (offset length i : ℕ) :
    (obj.read (fun _ => true) offset length).1.byte i = obj.byte i :=
  (loop_load offset length length 0 obj [] (Nat.zero_le _) (Nat.sub_le _ _)).1 i

theorem length_read (obj : Object) (offset length : ℕ) :
    (obj.read (fun _ => true) offset length).2.length = length := by
  refine (loop_rule offset length _
    (fun progress (buffer : List UInt8) => buffer.length = progress) ?_ length 0 obj []
    (Nat.zero_le _) (Nat.sub_le _ _) rfl).2
  intro progress misalign csize page buffer hlen
  rw [List.length_append, hlen, List.length_map, List.length_range]

theorem read_eq_wrap (obj : Object) (offset length : ℕ) :
    (obj.read (fun _ => true) offset length).2 =
      (List.range length).map fun k => obj.byte ((offset + k) % 2 ^ 64) :=
  (loop_load offset length length 0 obj [] (Nat.zero_le _) (Nat.sub_le _ _)).2

theorem read_eq (obj : Object) {offset length : ℕ} (hrange : offset + length ≤ 2 ^ 64) :
    (obj.read (fun _ => true) offset length).2 =
      (List.range length).map fun k => obj.byte (offset + k) := by
  rw [read_eq_wrap]
  refine List.map_congr_left fun k hk => ?_
  rw [List.mem_range] at hk
  rw [Nat.mod_eq_of_lt (by omega)]

end Object

end Ilobilix.Vmm
