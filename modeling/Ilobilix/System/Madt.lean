import Ilobilix.Foundation.Fuel
import Mathlib.Data.List.Basic

/-!
# The interrupt controllers of the MADT: `parse_madt`

After its header the table is a sequence of records, each with its type and its length in the first
two bytes. The loop copies the structure of a record of one of four types and goes on after the
record, until it is past the end of the table. It looks at the length of the table at no other
place: a record of length 0 is copied over and over, and the last record is copied even if the table
ends before it does.

`Records` says which records are inside the table, and `parseMadt_iff` for which tables those are
collected. The types and structures are those of the headers of uACPI, and a parameter here.
-/

namespace Ilobilix.Acpi

/-! ## The model -/

inductive RecordKind
  | lapic
  | ioapic
  | iso
  | x2apic
deriving DecidableEq, Repr

/-- Where the records of a table begin, the types that are collected and the sizes of their
structures. -/
structure Layout where
  entries : ℕ
  kind : UInt8 → Option RecordKind
  size : RecordKind → ℕ

/-- The copy of a table that is not shorter than its header. -/
structure Table (layout : Layout) where
  bytes : List UInt8
  entries_le : layout.entries ≤ bytes.length

/-- A record that has been put into the vector for its kind. -/
structure Record where
  kind : RecordKind
  entry : ℕ
  bytes : List UInt8
deriving DecidableEq, Repr

/-- A read outside the table, or a run that is cut off. -/
inductive Fault
  | outside
  | fuel
deriving DecidableEq, Repr

namespace Table

variable {layout : Layout} (t : Table layout)

def read (a : ℕ) : Except Fault UInt8 := if h : a < t.bytes.length then .ok t.bytes[a] else .error .outside

def copy (a size : ℕ) : Except Fault (List UInt8) :=
  if a + size ≤ t.bytes.length then .ok ((t.bytes.drop a).take size) else .error .outside

/-- The `switch`. -/
def collect (entry : ℕ) (type : UInt8) : Except Fault (List Record) :=
  match layout.kind type with
  | some kind => t.copy entry (layout.size kind) >>= fun bytes => .ok [⟨kind, entry, bytes⟩]
  | none => .ok []

def parseFrom : ℕ → ℕ → Except Fault (List Record)
  | 0, _ => .error .fuel
  | fuel + 1, entry =>
      if entry < t.bytes.length then do
        let type ← t.read entry
        let records ← t.collect entry type
        let length ← t.read (entry + 1)
        let rest ← parseFrom fuel (entry + length.toNat)
        .ok (records ++ rest)
      else .ok []

def parseMadt (fuel : ℕ) : Except Fault (List Record) := t.parseFrom fuel layout.entries

/-! ## The records of a table -/

def type (entry : ℕ) : UInt8 := t.bytes.getD entry 0

def length (entry : ℕ) : ℕ := (t.bytes.getD (entry + 1) 0).toNat

/-- The structure and the record end before the table does. -/
def Inside (entry : ℕ) (kind : RecordKind) : Prop :=
  entry + layout.size kind ≤ t.bytes.length ∧ entry + t.length entry ≤ t.bytes.length

instance (entry : ℕ) (kind : RecordKind) : Decidable (t.Inside entry kind) :=
  inferInstanceAs (Decidable (_ ∧ _))

/-- What is to be collected of a record. -/
def own (entry : ℕ) : List Record :=
  match layout.kind (t.type entry) with
  | some kind =>
      if t.Inside entry kind then [⟨kind, entry, (t.bytes.drop entry).take (layout.size kind)⟩] else []
  | none => []

/-- The records from a place on that are inside the table, in order. -/
inductive Records : ℕ → List Record → Prop
  | done {entry : ℕ} (h : t.bytes.length < entry + 2) : Records entry []
  | next {entry : ℕ} {rest : List Record} (hheader : entry + 2 ≤ t.bytes.length)
      (h : Records (entry + t.length entry) rest) : Records entry (t.own entry ++ rest)

/-- The places of records, one after the other by their lengths. -/
inductive Reached : ℕ → Prop
  | first : Reached layout.entries
  | next {entry : ℕ} (h : Reached entry) (hheader : entry + 2 ≤ t.bytes.length) :
      Reached (entry + t.length entry)

/-- The type and the length of the record are in the table, the length is not 0, and one that is
collected is inside. -/
structure Sound (entry : ℕ) : Prop where
  header : entry + 2 ≤ t.bytes.length
  length : t.length entry ≠ 0
  inside : ∀ kind, layout.kind (t.type entry) = some kind → t.Inside entry kind

def WellFormed : Prop := ∀ entry, t.Reached entry → entry < t.bytes.length → t.Sound entry

end Table

/-! ## One record -/

namespace Table

variable {layout : Layout} {t : Table layout}

theorem read_of_lt {a : ℕ} (h : a < t.bytes.length) : t.read a = .ok (t.bytes.getD a 0) := by
  rw [read, dif_pos h, List.getD_eq_getElem?_getD, List.getElem?_eq_getElem h]
  rfl

/-- What is collected of a record, if that does not go wrong. -/
theorem collect_eq_ok {entry : ℕ} {r : List Record} (h : t.collect entry (t.type entry) = .ok r) :
    (∀ kind, layout.kind (t.type entry) = some kind → entry + layout.size kind ≤ t.bytes.length ∧
      r = [⟨kind, entry, (t.bytes.drop entry).take (layout.size kind)⟩]) ∧
    (layout.kind (t.type entry) = none → r = []) := by
  unfold collect at h
  cases hkind : layout.kind (t.type entry) with
  | none =>
      rw [hkind] at h
      cases h
      exact ⟨nofun, fun _ => rfl⟩
  | some kind =>
      rw [hkind] at h
      dsimp only [copy] at h
      split at h
      · cases h
        refine ⟨?_, nofun⟩
        rintro _ ⟨⟩
        exact ⟨‹_›, rfl⟩
      · cases h

theorem collect_of_inside {entry : ℕ}
    (h : ∀ kind, layout.kind (t.type entry) = some kind → t.Inside entry kind) :
    t.collect entry (t.type entry) = .ok (t.own entry) := by
  unfold collect own
  cases hkind : layout.kind (t.type entry) with
  | none => rfl
  | some kind =>
      have hinside := h kind hkind
      dsimp only [copy]
      rw [if_pos hinside.1, if_pos hinside]
      rfl

/-- One turn of the loop over a sound record. -/
theorem parseFrom_succ {entry : ℕ} (h : t.Sound entry) (fuel : ℕ) : t.parseFrom (fuel + 1) entry =
    t.parseFrom fuel (entry + t.length entry) >>= fun rest => .ok (t.own entry ++ rest) := by
  have hheader := h.header
  rw [parseFrom, if_pos (by omega), read_of_lt (by omega), read_of_lt (by omega)]
  change (t.collect entry (t.type entry) >>= _) = _
  rw [collect_of_inside h.inside]
  rfl

/-- A turn that returns has read the header, and the record is collected with its structure inside the
table. -/
theorem parseFrom_eq_ok {entry fuel : ℕ} {r : List Record} (h : t.parseFrom (fuel + 1) entry = .ok r)
    (hlt : entry < t.bytes.length) : entry + 2 ≤ t.bytes.length ∧ ∃ records rest,
      t.collect entry (t.type entry) = .ok records ∧
      t.parseFrom fuel (entry + t.length entry) = .ok rest ∧ r = records ++ rest := by
  rw [parseFrom, if_pos hlt, read_of_lt hlt] at h
  change (t.collect entry (t.type entry) >>= _) = _ at h
  cases hcollect : t.collect entry (t.type entry) with
  | error e =>
      rw [hcollect] at h
      cases h
  | ok records =>
      rw [hcollect] at h
      by_cases hheader : entry + 1 < t.bytes.length
      · change (t.read (entry + 1) >>= _) = _ at h
        rw [read_of_lt hheader] at h
        change (t.parseFrom fuel (entry + t.length entry) >>= _) = _ at h
        cases hrest : t.parseFrom fuel (entry + t.length entry) with
        | error e =>
            rw [hrest] at h
            cases h
        | ok rest =>
            rw [hrest] at h
            cases h
            exact ⟨hheader, records, rest, rfl, rfl, rfl⟩
      · change (t.read (entry + 1) >>= _) = _ at h
        rw [read, dif_neg hheader] at h
        cases h

/-- A record without a length is never left. -/
theorem length_ne_zero {entry fuel : ℕ} {r : List Record} (h : t.parseFrom fuel entry = .ok r)
    (hlt : entry < t.bytes.length) : t.length entry ≠ 0 := by
  induction fuel generalizing r with
  | zero => cases h
  | succ fuel ih =>
      obtain ⟨-, _, rest, -, hrest, -⟩ := parseFrom_eq_ok h hlt
      intro hzero
      rw [hzero] at hrest
      exact ih hrest hzero

theorem Records.le_entry {entry : ℕ} {r : List Record} (h : t.Records entry r) :
    ∀ record ∈ r, entry ≤ record.entry := by
  induction h with
  | done h => exact List.forall_mem_nil _
  | @next entry rest hheader h ih =>
      intro record hmem
      obtain hown | hrest := List.mem_append.mp hmem
      · unfold own at hown
        split at hown
        · split at hown
          · obtain rfl := List.mem_singleton.mp hown
            exact le_rfl
          · cases hown
        · cases hown
      · exact (Nat.le_add_right _ _).trans (ih record hrest)

/-! ## Runs -/

/-- From a record whose successors are all sound, the loop collects what it should. -/
theorem parseFrom_of_sound {n entry : ℕ} (hn : t.bytes.length ≤ entry + n) (hreached : t.Reached entry)
    (h : t.WellFormed) : ∃ r, t.Records entry r ∧ ∀ fuel, n < fuel → t.parseFrom fuel entry = .ok r := by
  induction n using Nat.strong_induction_on generalizing entry with
  | _ n ih =>
      by_cases hlt : entry < t.bytes.length
      · have hsound := h entry hreached hlt
        have hpos := Nat.pos_of_ne_zero hsound.length
        obtain ⟨r, hr, hrun⟩ := ih (n - t.length entry) (by omega) (by omega)
          (hreached.next hsound.header)
        refine ⟨_, .next hsound.header hr, fun fuel hfuel => ?_⟩
        obtain ⟨fuel, rfl⟩ := Nat.exists_eq_succ_of_ne_zero (Nat.ne_zero_of_lt hfuel)
        rw [parseFrom_succ hsound, hrun fuel (by omega)]
        rfl
      · refine ⟨[], .done (by omega), fun fuel hfuel => ?_⟩
        obtain ⟨fuel, rfl⟩ := Nat.exists_eq_succ_of_ne_zero (Nat.ne_zero_of_lt hfuel)
        rw [parseFrom, if_neg hlt]

theorem Records.exists_rest {entry : ℕ} {r : List Record} (h : t.Records entry r)
    (hheader : entry + 2 ≤ t.bytes.length) :
    ∃ rest, r = t.own entry ++ rest ∧ t.Records (entry + t.length entry) rest := by
  cases h with
  | done h => exact absurd hheader (Nat.not_le_of_lt h)
  | next _ h => exact ⟨_, rfl, h⟩

/-- A run that collects what it should goes over sound records only. -/
theorem sound_of_parseFrom {entry fuel : ℕ} {r : List Record} (h : t.parseFrom (fuel + 1) entry = .ok r)
    (hr : t.Records entry r) (hlt : entry < t.bytes.length) : t.Sound entry ∧
      ∃ rest, t.parseFrom fuel (entry + t.length entry) = .ok rest ∧
        t.Records (entry + t.length entry) rest := by
  have hlength := length_ne_zero h hlt
  obtain ⟨hheader, records, rest, hcollect, hrest, rfl⟩ := parseFrom_eq_ok h hlt
  obtain ⟨hsome, hnone⟩ := collect_eq_ok hcollect
  obtain ⟨rest', heq, hrest'⟩ := hr.exists_rest hheader
  cases hkind : layout.kind (t.type entry) with
  | none =>
      have hown : t.own entry = [] := by rw [own, hkind]
      rw [hnone hkind, hown] at heq
      obtain rfl : rest = rest' := heq
      exact ⟨⟨hheader, hlength, fun kind hk => absurd (hkind.symm.trans hk) nofun⟩, rest, hrest, hrest'⟩
  | some kind =>
      obtain ⟨hsize, rfl⟩ := hsome kind hkind
      by_cases hinside : t.Inside entry kind
      · have hown : t.own entry = [⟨kind, entry, (t.bytes.drop entry).take (layout.size kind)⟩] := by
          rw [own, hkind]
          exact if_pos hinside
        rw [hown] at heq
        obtain rfl := List.append_cancel_left heq
        refine ⟨⟨hheader, hlength, fun kind' hk => ?_⟩, rest, hrest, hrest'⟩
        obtain rfl := Option.some.inj (hkind.symm.trans hk)
        exact hinside
      · -- the record is collected, but those that are left begin behind it
        have hown : t.own entry = [] := by
          rw [own, hkind]
          exact if_neg hinside
        rw [hown, List.nil_append] at heq
        have hle := hrest'.le_entry _ (heq ▸ List.mem_append_left _ (List.mem_singleton.mpr rfl))
        dsimp only at hle
        omega

theorem wellFormed_of_parseMadt (h : ∃ r, Returns t.parseMadt r ∧ t.Records layout.entries r) :
    t.WellFormed := by
  obtain ⟨r, ⟨fuel, hrun⟩, hr⟩ := h
  have hreached : ∀ entry, t.Reached entry →
      ∃ fuel r, t.parseFrom (fuel + 1) entry = .ok r ∧ t.Records entry r := by
    intro entry h
    induction h with
    | first => exact ⟨fuel, r, hrun _ (Nat.le_succ fuel), hr⟩
    | @next entry h hheader ih =>
        obtain ⟨fuel, r, hrun, hr⟩ := ih
        obtain ⟨-, rest, hrest, hrest'⟩ := sound_of_parseFrom hrun hr (by omega)
        cases fuel with
        | zero => cases hrest
        | succ fuel => exact ⟨fuel, rest, hrest, hrest'⟩
  intro entry h hlt
  obtain ⟨fuel, r, hrun, hr⟩ := hreached entry h
  exact (sound_of_parseFrom hrun hr hlt).1

/-- The loop ends without a read outside the table and with the records that are inside, exactly if it
goes over sound records only. -/
theorem parseMadt_iff (t : Table layout) :
    (∃ r, Returns t.parseMadt r ∧ t.Records layout.entries r) ↔ t.WellFormed := by
  refine ⟨wellFormed_of_parseMadt, fun h => ?_⟩
  obtain ⟨r, hr, hrun⟩ := parseFrom_of_sound (Nat.le_add_left _ layout.entries) .first h
  exact ⟨r, ⟨t.bytes.length + 1, fun fuel hfuel => hrun fuel hfuel⟩, hr⟩

/-- The types and structures of the specification. -/
def acpi : Layout where
  entries := 44
  kind type :=
    if type = 0 then some .lapic else if type = 1 then some .ioapic else if type = 2 then some .iso
    else if type = 9 then some .x2apic else none
  size
    | .lapic => 8
    | .ioapic => 12
    | .iso => 10
    | .x2apic => 16

/-- A table with these bytes after its header. -/
def ofRecords (records : List UInt8) : Table acpi where
  bytes := List.replicate 44 0 ++ records
  entries_le := by
    rw [List.length_append, List.length_replicate]
    exact Nat.le_add_right _ _

/-- A record of length 0, the record of a local APIC that ends behind the table, and one whose
structure does. -/
theorem not_collected :
    (¬ ∃ r, Returns (ofRecords [5, 0]).parseMadt r ∧ (ofRecords [5, 0]).Records acpi.entries r) ∧
    (¬ ∃ r, Returns (ofRecords [0, 16, 1, 1, 1, 0, 0, 0]).parseMadt r ∧
      (ofRecords [0, 16, 1, 1, 1, 0, 0, 0]).Records acpi.entries r) ∧
    ¬ ∃ r, Returns (ofRecords [0, 4, 1, 1]).parseMadt r ∧
      (ofRecords [0, 4, 1, 1]).Records acpi.entries r := by
  have hsound : ∀ records, records ≠ [] →
      (∃ r, Returns (ofRecords records).parseMadt r ∧ (ofRecords records).Records acpi.entries r) →
      (ofRecords records).Sound 44 := by
    intro records hne h
    refine wellFormed_of_parseMadt h 44 .first ?_
    rw [ofRecords, List.length_append, List.length_replicate]
    exact Nat.lt_add_of_pos_right (List.length_pos_of_ne_nil hne)
  refine ⟨fun h => ?_, fun h => ?_, fun h => ?_⟩
  · exact (hsound _ (List.cons_ne_nil _ _) h).length (by decide)
  · exact absurd ((hsound _ (List.cons_ne_nil _ _) h).inside .lapic (by decide)) (by decide)
  · exact absurd ((hsound _ (List.cons_ne_nil _ _) h).inside .lapic (by decide)) (by decide)

end Table

end Ilobilix.Acpi
