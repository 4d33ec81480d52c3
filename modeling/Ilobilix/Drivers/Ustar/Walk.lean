import Ilobilix.Drivers.Ustar.Load
import Ilobilix.Foundation.Dependencies
import Ilobilix.Foundation.Except
import Mathlib.Data.Set.Finite.Lattice

/-!
# The walk over arbitrary bytes

`ustar::load` gets the address of the initramfs and not its length. `Module.walk` is the walk from
header to header, in which a read outside the module is an error. A header says how far it is to the
next one, modulo `2 ^ 64`, and its strings end at the next zero byte.

`Module.Next` leads from a header to the next one. The walk returns, after reads inside the module
only, if and only if it can read every header that it comes to and comes to none of them twice:
`Module.walk_returns_iff`.
-/

namespace Ilobilix.Ustar

open Lib Relation

/-- The contents of a module, at their address in the higher half. -/
structure Module where
  address : ℕ
  bytes : List UInt8
  higher_half : 2 ^ 63 ≤ address
  /-- The address behind the last byte can be represented. -/
  fits : address + bytes.length < 2 ^ 64

namespace Module

inductive Fault where
  | outOfBounds
  | fuel
  deriving DecidableEq, Repr

/-- The byte at an address, if it belongs to the module. An address that wraps around does not. -/
def byte? (m : Module) (a : ℕ) : Option UInt8 :=
  if m.address ≤ a then m.bytes[a - m.address]? else none

def read (m : Module) (a : ℕ) : Except Fault UInt8 :=
  match m.byte? a with
  | some c => .ok c
  | none => .error .outOfBounds

def readBytes (m : Module) : (n a : ℕ) → Except Fault (List UInt8)
  | 0, _ => .ok []
  | n + 1, a => m.read a >>= fun c => (m.readBytes n (a + 1)).map (c :: ·)

/-- The bytes up to the first zero byte. -/
def readString (m : Module) : (fuel a : ℕ) → Except Fault (List UInt8)
  | 0, _ => .error .fuel
  | fuel + 1, a => m.read a >>= fun c =>
      if c = 0 then .ok [] else (m.readString fuel (a + 1)).map (c :: ·)

/-- The fields of the header at `current`. -/
def readHeader (m : Module) (fuel current : ℕ) : Except Fault Entry := do
  let name ← m.readString fuel current
  let linkname ← m.readString fuel (current + 157)
  let mode ← m.readString fuel (current + 100)
  let size ← m.readString fuel (current + 124)
  let mtim ← m.readString fuel (current + 136)
  let devmajor ← m.readString fuel (current + 329)
  let devminor ← m.readString fuel (current + 337)
  let typeflag ← m.read (current + 156)
  return {
    name, linkname
    mode := oct2int 32 mode
    size := oct2int 64 size
    mtim := (oct2int 64 mtim).toInt
    dev := makedev ((oct2int 64 devmajor).setWidth 32) ((oct2int 64 devminor).setWidth 32)
    typeflag }

end Module

deriving instance DecidableEq for Entry

/-- The kernel panics at a fifo. -/
def Entry.Panics (e : Entry) : Prop := e.name ≠ root ∧ Types.ofChar e.typeflag = some .fifo

instance (e : Entry) : Decidable e.Panics :=
  inferInstanceAs (Decidable (e.name ≠ root ∧ Types.ofChar e.typeflag = some .fifo))

/-- The address of the next header. -/
def Entry.next (e : Entry) (current : ℕ) : ℕ := (current + 512 + alignUp e.size.toNat 512) % 2 ^ 64

namespace Module

/-- The walk from the header at `current` on, with the headers that it reads. -/
def walk (m : Module) : (fuel current : ℕ) → Except Fault (List (ℕ × Entry))
  | 0, _ => .error .fuel
  | fuel + 1, current => m.readBytes 6 (current + 257) >>= fun bytes =>
      if bytes = magic then
        m.readHeader fuel current >>= fun e =>
          if e.Panics then .ok [(current, e)]
          else (m.walk fuel (e.next current)).map ((current, e) :: ·)
      else .ok []

/-- From this address on there is a zero byte in the module. -/
def Ended (m : Module) (a : ℕ) : Prop :=
  ∃ k, m.byte? (a + k) = some 0 ∧ ∀ i < k, (m.byte? (a + i)).isSome

def HasMagic (m : Module) (current : ℕ) : Prop := ∀ i < 6, m.byte? (current + 257 + i) = magic[i]?

instance (m : Module) (current : ℕ) : Decidable (m.HasMagic current) :=
  inferInstanceAs (Decidable (∀ i < 6, m.byte? (current + 257 + i) = magic[i]?))

/-- The fields that are read as strings. -/
def strings : List ℕ := [0, 157, 100, 124, 136, 329, 337]

/-- The module contains the place of the magic and, if the magic is there, an end of every string. -/
structure Readable (m : Module) (current : ℕ) : Prop where
  inside : ∀ i < 6, (m.byte? (current + 257 + i)).isSome
  ended : m.HasMagic current → ∀ field ∈ strings, m.Ended (current + field)

/-- The walk goes on from the header at `current` to the one at `current'`. -/
def Next (m : Module) (current current' : ℕ) : Prop :=
  m.HasMagic current ∧ ∃ e, Returns (fun fuel => m.readHeader fuel current) e ∧ ¬ e.Panics ∧
    current' = e.next current

/-! ## The reads -/

section Reads

variable {m : Module} {a n fuel : ℕ} {c : UInt8} {s : List UInt8}

theorem read_eq_ok_iff : m.read a = .ok c ↔ m.byte? a = some c := by
  rw [read]
  cases m.byte? a with
  | none => simp
  | some c' => simp

theorem exists_read (h : (m.byte? a).isSome) : ∃ c, m.read a = .ok c := by
  obtain ⟨c, hc⟩ := Option.isSome_iff_exists.mp h
  exact ⟨c, read_eq_ok_iff.mpr hc⟩

theorem byte?_eq_none (h : m.address + m.bytes.length ≤ a) : m.byte? a = none := by
  rw [byte?, if_pos (by omega)]
  exact List.getElem?_eq_none (by omega)

theorem readBytes_eq_ok_iff :
    m.readBytes n a = .ok s ↔ s.length = n ∧ ∀ i < n, m.byte? (a + i) = s[i]? := by
  induction n generalizing a s with
  | zero =>
      rw [readBytes]
      constructor
      · intro h
        cases h
        exact ⟨rfl, nofun⟩
      · rintro ⟨h, -⟩
        rw [List.eq_nil_of_length_eq_zero h]
  | succ n ih =>
      simp only [readBytes, Except.bind_eq_ok_iff, Except.map_eq_ok_iff, read_eq_ok_iff, ih]
      constructor
      · rintro ⟨c, hc, rest, ⟨hlength, hrest⟩, rfl⟩
        refine ⟨by rw [List.length_cons, hlength], fun i hi => ?_⟩
        cases i with
        | zero => exact hc
        | succ i => rw [List.getElem?_cons_succ, ← hrest i (by omega), Nat.add_assoc, Nat.add_comm 1 i]
      · rintro ⟨hlength, hbytes⟩
        cases s with
        | nil => cases hlength
        | cons c rest =>
            refine ⟨c, hbytes 0 (by omega), rest, ⟨by simpa using hlength, fun i hi => ?_⟩, rfl⟩
            have hbyte := hbytes (i + 1) (by omega)
            rwa [List.getElem?_cons_succ, ← Nat.add_assoc, Nat.add_right_comm] at hbyte

theorem exists_readBytes (h : ∀ i < n, (m.byte? (a + i)).isSome) : ∃ s, m.readBytes n a = .ok s := by
  induction n generalizing a with
  | zero => exact ⟨[], rfl⟩
  | succ n ih =>
      obtain ⟨c, hc⟩ := exists_read (h 0 (by omega))
      obtain ⟨rest, hrest⟩ := ih (a := a + 1) fun i hi => by
        have hbyte := h (i + 1) (by omega)
        rwa [← Nat.add_assoc, Nat.add_right_comm] at hbyte
      exact ⟨c :: rest, by rw [readBytes, Except.bind_eq_ok_iff]; exact ⟨c, hc, by rw [hrest]; rfl⟩⟩

theorem ended_of_readString (h : m.readString fuel a = .ok s) : m.Ended a := by
  induction fuel generalizing a s with
  | zero => cases h
  | succ fuel ih =>
      rw [readString, Except.bind_eq_ok_iff] at h
      obtain ⟨c, hc, h⟩ := h
      have hbyte := read_eq_ok_iff.mp hc
      split at h
      · rename_i hzero
        exact ⟨0, hzero ▸ hbyte, nofun⟩
      · obtain ⟨rest, hrest, -⟩ := Except.map_eq_ok_iff.mp h
        obtain ⟨k, hk, hbefore⟩ := ih hrest
        refine ⟨k + 1, by rwa [← Nat.add_assoc, Nat.add_right_comm], fun i hi => ?_⟩
        cases i with
        | zero => exact Option.isSome_of_eq_some hbyte
        | succ i =>
            rw [← Nat.add_assoc, Nat.add_right_comm]
            exact hbefore i (by omega)

theorem Ended.readString (h : m.Ended a) : ∃ s, Returns (fun fuel => m.readString fuel a) s := by
  obtain ⟨k, hk, hbefore⟩ := h
  induction k generalizing a with
  | zero =>
      refine ⟨[], Returns.succ (M := 0) (.of_eq fun _ => rfl) fun fuel _ => ?_⟩
      rw [Module.readString, Except.bind_eq_ok_iff]
      exact ⟨0, read_eq_ok_iff.mpr hk, if_pos rfl⟩
  | succ k ih =>
      obtain ⟨c, hc⟩ := exists_read (hbefore 0 (by omega))
      by_cases hzero : c = 0
      · refine ⟨[], Returns.succ (M := 0) (.of_eq fun _ => rfl) fun fuel _ => ?_⟩
        rw [Module.readString, Except.bind_eq_ok_iff]
        exact ⟨c, hc, if_pos hzero⟩
      · obtain ⟨rest, N, hrest⟩ := ih (a := a + 1) (by rwa [Nat.add_assoc, Nat.add_comm 1 k])
          fun i hi => by
            have hbyte := hbefore (i + 1) (by omega)
            rwa [← Nat.add_assoc, Nat.add_right_comm] at hbyte
        refine ⟨c :: rest, N + 1, fun fuel hfuel => ?_⟩
        obtain ⟨fuel, rfl⟩ := Nat.exists_eq_add_of_le' (Nat.le_trans (Nat.le_add_left 1 N) hfuel)
        dsimp only
        rw [Module.readString, Except.bind_eq_ok_iff]
        exact ⟨c, hc, by rw [if_neg hzero, Except.map_eq_ok_iff]; exact ⟨rest, hrest fuel (by omega), rfl⟩⟩

theorem isSome_byte?_iff : (m.byte? a).isSome ↔ m.address ≤ a ∧ a < m.address + m.bytes.length := by
  rw [byte?]
  split
  · rw [isSome_getElem?]
    omega
  · simp only [Option.isSome_none, Bool.false_eq_true, false_iff]
    omega

theorem Ended.isSome (h : m.Ended a) : (m.byte? a).isSome := by
  obtain ⟨k, hk, hbefore⟩ := h
  cases k with
  | zero => exact Option.isSome_of_eq_some hk
  | succ k => exact hbefore 0 (by omega)

theorem readString_succ (m : Module) (fuel a : ℕ) : m.readString (fuel + 1) a = m.read a >>= fun c =>
    if c = 0 then .ok [] else (m.readString fuel (a + 1)).map (c :: ·) := rfl

theorem fuelMono_readString (m : Module) (a : ℕ) :
    FuelMono .fuel fun fuel => m.readString fuel a := by
  intro fuel
  induction fuel generalizing a with
  | zero => exact fun h => absurd rfl h
  | succ fuel ih =>
      intro h
      dsimp only at h ⊢
      rw [readString_succ m (fuel + 1) a, readString_succ m fuel a]
      rw [readString_succ] at h
      cases hread : m.read a with
      | error e => rfl
      | ok c =>
          rw [hread] at h
          by_cases hzero : c = 0
          · exact (if_pos hzero).trans (if_pos hzero).symm
          · have hrest : m.readString fuel (a + 1) ≠ .error .fuel := fun heq =>
              h ((if_neg hzero).trans (by rw [heq]; rfl))
            exact (if_neg hzero).trans (.trans (congrArg _ (ih (a + 1) hrest)) (if_neg hzero).symm)

theorem fuelMono_readHeader (m : Module) (current : ℕ) :
    FuelMono .fuel fun fuel => m.readHeader fuel current :=
  (fuelMono_readString m _).bind fun _ => (fuelMono_readString m _).bind fun _ =>
    (fuelMono_readString m _).bind fun _ => (fuelMono_readString m _).bind fun _ =>
      (fuelMono_readString m _).bind fun _ => (fuelMono_readString m _).bind fun _ =>
        (fuelMono_readString m _).bind fun _ => .const _

theorem ended_of_readHeader {e : Entry} (h : m.readHeader fuel a = .ok e) :
    ∀ field ∈ strings, m.Ended (a + field) := by
  simp only [readHeader, Except.bind_eq_ok_iff] at h
  obtain ⟨_, hname, _, hlinkname, _, hmode, _, hsize, _, hmtim, _, hdevmajor, _, hdevminor, -⟩ := h
  intro field hfield
  simp only [strings, List.mem_cons, List.not_mem_nil, or_false] at hfield
  rcases hfield with rfl | rfl | rfl | rfl | rfl | rfl | rfl
  · exact ended_of_readString hname
  · exact ended_of_readString hlinkname
  · exact ended_of_readString hmode
  · exact ended_of_readString hsize
  · exact ended_of_readString hmtim
  · exact ended_of_readString hdevmajor
  · exact ended_of_readString hdevminor

theorem exists_readHeader (h : ∀ field ∈ strings, m.Ended (a + field)) :
    ∃ e, Returns (fun fuel => m.readHeader fuel a) e := by
  obtain ⟨name, hname⟩ := (h 0 (by decide)).readString
  obtain ⟨linkname, hlinkname⟩ := (h 157 (by decide)).readString
  obtain ⟨mode, hmode⟩ := (h 100 (by decide)).readString
  obtain ⟨size, hsize⟩ := (h 124 (by decide)).readString
  obtain ⟨mtim, hmtim⟩ := (h 136 (by decide)).readString
  obtain ⟨devmajor, hdevmajor⟩ := (h 329 (by decide)).readString
  obtain ⟨devminor, hdevminor⟩ := (h 337 (by decide)).readString
  -- the type is between two fields that are read
  have hbefore := isSome_byte?_iff.mp (h 136 (by decide)).isSome
  have hbehind := isSome_byte?_iff.mp (h 157 (by decide)).isSome
  obtain ⟨typeflag, htypeflag⟩ := exists_read (m := m) (a := a + 156)
    (isSome_byte?_iff.mpr ⟨by omega, by omega⟩)
  exact ⟨_, hname.bind (hlinkname.bind (hmode.bind (hsize.bind (hmtim.bind (hdevmajor.bind
    (hdevminor.bind ((Returns.of_eq fun _ => htypeflag).bind (.of_eq fun _ => rfl))))))))⟩

end Reads

/-! ## The walk -/

section Walk

variable {m : Module} {current current' fuel : ℕ} {entries : List (ℕ × Entry)}

theorem readBytes_magic_iff : m.readBytes 6 (current + 257) = .ok magic ↔ m.HasMagic current := by
  rw [readBytes_eq_ok_iff]
  exact ⟨fun h => h.2, fun h => ⟨rfl, h⟩⟩

/-- What a walk that returns does at its first header. -/
theorem walk_succ_eq_ok (h : m.walk (fuel + 1) current = .ok entries) :
    (∀ i < 6, (m.byte? (current + 257 + i)).isSome) ∧
    (m.HasMagic current → ∃ e, m.readHeader fuel current = .ok e ∧
      (¬ e.Panics → ∃ rest, m.walk fuel (e.next current) = .ok rest ∧
        entries = (current, e) :: rest)) := by
  rw [walk, Except.bind_eq_ok_iff] at h
  obtain ⟨bytes, hbytes, h⟩ := h
  refine ⟨fun i hi => ?_, fun hmagic => ?_⟩
  · obtain ⟨hlength, hbyte⟩ := readBytes_eq_ok_iff.mp hbytes
    rw [hbyte i hi, isSome_getElem?]
    omega
  · have hsame : bytes = magic := by
      rw [readBytes_magic_iff.mpr hmagic] at hbytes
      exact (Except.ok.inj hbytes).symm
    rw [if_pos hsame, Except.bind_eq_ok_iff] at h
    obtain ⟨e, he, h⟩ := h
    refine ⟨e, he, fun hpanics => ?_⟩
    rw [if_neg hpanics] at h
    obtain ⟨rest, hrest, heq⟩ := Except.map_eq_ok_iff.mp h
    exact ⟨rest, hrest, heq.symm⟩

theorem readable_of_returns (h : Returns (fun fuel => m.walk fuel current) entries) :
    m.Readable current := by
  obtain ⟨N, hN⟩ := h
  obtain ⟨hmagic, hheader⟩ := walk_succ_eq_ok (hN (N + 1) (Nat.le_add_right N 1))
  refine ⟨hmagic, fun hhas => ?_⟩
  obtain ⟨e, he, -⟩ := hheader hhas
  exact ended_of_readHeader he

/-- The rest of a walk that returns is shorter. -/
theorem Next.returns (hnext : m.Next current current')
    (h : Returns (fun fuel => m.walk fuel current) entries) :
    ∃ rest, Returns (fun fuel => m.walk fuel current') rest ∧ rest.length < entries.length := by
  obtain ⟨hmagic, e, ⟨M, hM⟩, hpanics, rfl⟩ := hnext
  obtain ⟨N, hN⟩ := h
  have hturn : ∀ fuel, max M N ≤ fuel → ∃ rest, m.walk fuel (e.next current) = .ok rest ∧
      entries = (current, e) :: rest := by
    intro fuel hfuel
    obtain ⟨e', he', hrest⟩ := (walk_succ_eq_ok (hN (fuel + 1) (by omega))).2 hmagic
    have hsame : e' = e := Except.ok.inj (he'.symm.trans (hM fuel (by omega)))
    exact hsame ▸ hrest (hsame ▸ hpanics)
  refine ⟨entries.tail, ⟨max M N, fun fuel hfuel => ?_⟩, ?_⟩
  · obtain ⟨rest, hrest, heq⟩ := hturn fuel hfuel
    rw [heq]
    exact hrest
  · obtain ⟨rest, -, heq⟩ := hturn (max M N) le_rfl
    rw [heq]
    exact Nat.lt_succ_self _

theorem returns_of_reflTransGen (hnext : ReflTransGen m.Next current current')
    (h : Returns (fun fuel => m.walk fuel current) entries) :
    ∃ rest, Returns (fun fuel => m.walk fuel current') rest := by
  induction hnext with
  | refl => exact ⟨entries, h⟩
  | tail _ hnext ih =>
      obtain ⟨rest, hrest⟩ := ih
      obtain ⟨rest', hrest', -⟩ := hnext.returns hrest
      exact ⟨rest', hrest'⟩

theorem length_lt_of_transGen (hnext : TransGen m.Next current current')
    (h : Returns (fun fuel => m.walk fuel current) entries) :
    ∃ rest, Returns (fun fuel => m.walk fuel current') rest ∧ rest.length < entries.length := by
  induction hnext with
  | single hnext => exact hnext.returns h
  | tail _ hnext ih =>
      obtain ⟨rest, hrest, hlt⟩ := ih
      obtain ⟨rest', hrest', hlt'⟩ := hnext.returns hrest
      exact ⟨rest', hrest', hlt'.trans hlt⟩

/-- A walk that comes to a header twice does not return. -/
theorem not_returns_of_transGen (hnext : TransGen m.Next current current) :
    ¬ Returns (fun fuel => m.walk fuel current) entries := by
  intro h
  obtain ⟨rest, hrest, hlt⟩ := length_lt_of_transGen hnext h
  rw [h.unique hrest] at hlt
  exact lt_irrefl _ hlt

/-- At a readable header the walk ends, or goes on to another one. -/
theorem Readable.returns (h : m.Readable current)
    (hnext : ∀ current', m.Next current current' →
      ∃ rest, Returns (fun fuel => m.walk fuel current') rest) :
    ∃ entries, Returns (fun fuel => m.walk fuel current) entries := by
  obtain ⟨bytes, hbytes⟩ := exists_readBytes h.inside
  by_cases hmagic : bytes = magic
  · have hhas : m.HasMagic current := readBytes_magic_iff.mp (hmagic ▸ hbytes)
    obtain ⟨e, he⟩ := exists_readHeader (h.ended hhas)
    have hturn : ∀ fuel, m.walk (fuel + 1) current = m.readHeader fuel current >>= fun e =>
        if e.Panics then .ok [(current, e)]
        else (m.walk fuel (e.next current)).map ((current, e) :: ·) := fun fuel => by
      rw [walk, hbytes]
      exact if_pos hmagic
    by_cases hpanics : e.Panics
    · have hend : Returns (fun fuel => m.readHeader fuel current >>= fun e =>
          if e.Panics then .ok [(current, e)]
          else (m.walk fuel (e.next current)).map ((current, e) :: ·)) [(current, e)] :=
        he.bind (.of_eq fun _ => if_pos hpanics)
      exact ⟨_, hend.succ (M := 0) fun fuel _ => hturn fuel⟩
    · obtain ⟨rest, N, hrest⟩ := hnext _ ⟨hhas, e, he, hpanics, rfl⟩
      refine ⟨(current, e) :: rest, (he.bind ⟨N, fun fuel hfuel => ?_⟩).succ (M := 0) fun fuel _ =>
        hturn fuel⟩
      dsimp only
      rw [if_neg hpanics, Except.map_eq_ok_iff]
      exact ⟨rest, hrest fuel hfuel, rfl⟩
  · refine ⟨[], Returns.succ (M := 0) (.of_eq fun _ => rfl) fun fuel _ => ?_⟩
    rw [walk, hbytes]
    exact if_neg hmagic

end Walk

end Module

/-! ## The walk in memory -/

section Memory

variable {m : Module} {mem : ℕ → UInt8} {a n fuel : ℕ} {str : List UInt8}

theorem readBytes_of_module (hmem : ∀ a c, m.byte? a = some c → mem a = c)
    (h : m.readBytes n a = .ok str) : readBytes mem n a = str := by
  induction n generalizing a str with
  | zero =>
      cases h
      rfl
  | succ n ih =>
      simp only [Module.readBytes, Except.bind_eq_ok_iff, Except.map_eq_ok_iff,
        Module.read_eq_ok_iff] at h
      obtain ⟨c, hc, rest, hrest, rfl⟩ := h
      rw [readBytes, hmem a c hc, ih hrest]

theorem readString_of_module (hmem : ∀ a c, m.byte? a = some c → mem a = c)
    (h : m.readString fuel a = .ok str) : readString mem fuel a = some str := by
  induction fuel generalizing a str with
  | zero => cases h
  | succ fuel ih =>
      rw [Module.readString, Except.bind_eq_ok_iff] at h
      obtain ⟨c, hc, h⟩ := h
      rw [readString, hmem a c (Module.read_eq_ok_iff.mp hc)]
      split at h
      · rename_i hzero
        cases h
        exact if_pos hzero
      · rename_i hzero
        obtain ⟨rest, hrest, rfl⟩ := Except.map_eq_ok_iff.mp h
        rw [if_neg hzero, ih hrest]
        rfl

theorem readHeader_of_module (hmem : ∀ a c, m.byte? a = some c → mem a = c) {e : Entry}
    (h : m.readHeader fuel a = .ok e) : readHeader mem fuel a = some e := by
  simp only [Module.readHeader, Except.bind_eq_ok_iff] at h
  obtain ⟨name, hname, linkname, hlinkname, mode, hmode, size, hsize, mtim, hmtim, devmajor, hdevmajor,
    devminor, hdevminor, typeflag, htypeflag, h⟩ := h
  cases h
  have hstr : ∀ {a str}, m.readString fuel a = .ok str → readString mem fuel a = some str :=
    readString_of_module hmem
  simp only [readHeader, hstr hname, hstr hlinkname, hstr hmode, hstr hsize, hstr hmtim, hstr hdevmajor,
    hstr hdevminor, hmem _ _ (Module.read_eq_ok_iff.mp htypeflag), Option.bind_eq_bind,
    Option.bind_some]
  rfl

theorem Entry.Panics.extract {σ ι : Type} {vfs : Vfs σ ι} {e : Entry} (h : e.Panics)
    (data : List UInt8) (s : σ) : extract vfs e data s = .error .panic := by
  simp only [Ustar.extract, if_neg h.1, h.2]

/-- Where the walk returns, `load` hands the headers that it has read to the VFS, one after the
other. -/
theorem load_of_walk {σ ι : Type} (vfs : Vfs σ ι) (hmem : ∀ a c, m.byte? a = some c → mem a = c)
    {entries : List (ℕ × Entry)} (h : m.walk fuel a = .ok entries) (s : σ) :
    load vfs mem fuel a s = entries.foldlM (fun s (current, e) =>
      extract vfs e (readBytes mem e.size.toNat (current + 512)) s) s := by
  induction fuel generalizing a entries s with
  | zero => cases h
  | succ fuel ih =>
      rw [Module.walk, Except.bind_eq_ok_iff] at h
      obtain ⟨bytes, hbytes, h⟩ := h
      rw [load, readBytes_of_module hmem hbytes]
      split at h
      · rename_i hmagic
        obtain ⟨e, he, h⟩ := Except.bind_eq_ok_iff.mp h
        rw [if_pos hmagic, readHeader_of_module hmem he]
        dsimp only
        split at h
        · rename_i hpanics
          cases h
          rw [List.foldlM_cons, hpanics.extract]
          rfl
        · obtain ⟨rest, hrest, rfl⟩ := Except.map_eq_ok_iff.mp h
          rw [List.foldlM_cons]
          exact congrArg _ (funext fun s => ih hrest s)
      · rename_i hmagic
        cases h
        exact if_neg hmagic

end Memory

/-- The walk over a module returns, after reads inside the module only, if and only if every header
that it comes to is readable and it comes to none of them twice. -/
theorem Module.walk_returns_iff (m : Module) :
    (∃ entries, Returns (fun fuel => m.walk fuel m.address) entries) ↔
    ∀ current, ReflTransGen m.Next m.address current →
      m.Readable current ∧ ¬ TransGen m.Next current current := by
  constructor
  · rintro ⟨entries, h⟩ current hreach
    obtain ⟨rest, hrest⟩ := returns_of_reflTransGen hreach h
    exact ⟨readable_of_returns hrest, fun hcycle => not_returns_of_transGen hcycle hrest⟩
  · intro h
    by_contra hnot
    -- the headers from which the walk does not return, each of which leads to another one
    let bad : Set ℕ := {current | ReflTransGen m.Next m.address current ∧
      ¬ ∃ entries, Returns (fun fuel => m.walk fuel current) entries}
    have hfinite : bad.Finite := by
      refine (Set.finite_lt_nat (2 ^ 64)).subset fun current hcurrent => ?_
      have hfits := m.fits
      rcases ReflTransGen.cases_tail hcurrent.1 with heq | ⟨_, -, -, e, -, -, rfl⟩
      · rw [Set.mem_ofPred_eq, heq]
        omega
      · exact Nat.mod_lt _ (by norm_num)
    have hpred : ∀ current ∈ bad, ∃ current' ∈ bad, m.Next current current' := by
      rintro current ⟨hreach, hcurrent⟩
      by_contra hnone
      refine hcurrent ((h current hreach).1.returns fun current' hnext => ?_)
      by_contra hrest
      exact hnone ⟨current', ⟨hreach.tail hnext, hrest⟩, hnext⟩
    obtain ⟨current, hreach, hcycle⟩ :=
      exists_cycle_of_forall_pred (r := Function.swap m.Next) hfinite hpred ⟨.refl, hnot⟩
    rw [reflTransGen_swap] at hreach
    rw [transGen_swap] at hcycle
    exact (h current hreach).2 hcycle

/-- One header, whose size of `"(00"` is `-512` modulo `2 ^ 64`. -/
def exampleLoop : Module where
  address := 2 ^ 63
  bytes := List.replicate 124 0 ++ [40, 48, 48] ++ List.replicate 130 0 ++ magic ++ List.replicate 249 0
  higher_half := le_rfl
  fits := by decide +kernel

theorem exampleLoop_next : exampleLoop.Next exampleLoop.address exampleLoop.address := by
  refine ⟨by decide +kernel, ⟨[], [], 0, 2 ^ 64 - 512, 0, 0, 0⟩, ?_, by decide +kernel,
    by decide +kernel⟩
  exact (Module.fuelMono_readHeader _ _).returns_iff.mpr ⟨4, by decide +kernel⟩

/-- The next header is the header itself. -/
theorem not_walk_returns : ¬ ∀ m : Module,
    (∃ entries, Returns (fun fuel => m.walk fuel m.address) entries) := by
  intro h
  obtain ⟨entries, hloop⟩ := h exampleLoop
  exact Module.not_returns_of_transGen (.single exampleLoop_next) hloop

end Ilobilix.Ustar
