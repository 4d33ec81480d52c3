import Ilobilix.Foundation.Except
import Ilobilix.System.Net.Checksum
import Mathlib.Data.List.Basic

/-!
# Packets of the network stack

The constructors that read an Ethernet, ARP or IPv4 packet from a buffer. They do not look at the
length of the buffer before they read, so every read is checked here: one outside is a fault, like
the assertions on the fields of an ARP packet. A pointer into the buffer is an offset.
-/

namespace Ilobilix.Net

/-- `addr::mac`. -/
abbrev Mac := Fin 6 → UInt8

/-- `addr::ip::v4`. -/
abbrev Ip := Fin 4 → UInt8

/-- A buffer, whose size is a word. -/
@[ext]
structure Buffer where
  bytes : List UInt8
  size_lt : bytes.length < 2 ^ 64

/-- A read outside the buffer, or an assertion. -/
inductive Fault
  | outside
  | bug
deriving DecidableEq, Repr

/-- `lib::bug_on`. -/
def bugOn (cond : Prop) [Decidable cond] : Except Fault Unit := if cond then .error .bug else .ok ()

namespace Buffer

variable (b : Buffer)

def size : ℕ := b.bytes.length

def byte (a : ℕ) : UInt8 := b.bytes.getD a 0

def word (a : ℕ) : UInt16 := Net.word (b.byte a) (b.byte (a + 1))

def addr (n a : ℕ) : Fin n → UInt8 := fun i => b.byte (a + i)

def read (a : ℕ) : Except Fault UInt8 := if a < b.size then .ok (b.byte a) else .error .outside

def readWord (a : ℕ) : Except Fault UInt16 := do
  let hi ← b.read a
  let lo ← b.read (a + 1)
  .ok (Net.word hi lo)

/-- The constructor of an address from a pointer. -/
def readAddr (n a : ℕ) : Except Fault (Fin n → UInt8) :=
  if a + n ≤ b.size then .ok (b.addr n a) else .error .outside

end Buffer

/-- `ether::packet`. -/
structure Ether where
  source : Mac
  dest : Mac
  tp : UInt16
  data : ℕ
  dataSize : ℕ

/-- `arp::packet`. -/
@[ext]
structure Arp where
  hwtype : UInt16
  protype : UInt16
  hwsize : UInt8
  prosize : UInt8
  op : UInt16
  smac : Mac
  sip : Ip
  dmac : Mac
  dip : Ip

/-- `ipv4::packet`. -/
structure Ipv4 where
  sip : Ip
  dip : Ip
  proto : UInt8
  ttl : UInt8
  length : UInt16
  ihl : UInt8
  data : ℕ
  dataSize : ℕ
  ether : Ether

namespace Ether

def ipv4 : UInt16 := 0x0800

def arp : UInt16 := 0x0806

/-- `utils::is_type`. -/
def isValid (p : Ether) : Bool := decide (0x05DC < p.tp)

/-- The constructor from a buffer, which takes off the header and the checksum of the frame. -/
def ofBuffer (b : Buffer) : Except Fault Ether := do
  let dest ← b.readAddr 6 0
  let source ← b.readAddr 6 6
  let tp ← b.readWord 12
  .ok { source, dest, tp, data := 14, dataSize := (b.size + 2 ^ 64 - 18) % 2 ^ 64 }

end Ether

namespace Arp

/-- The fields that the assertions are about. -/
def IsIpv4 (p : Arp) : Prop := p.hwtype = 1 ∧ p.protype = 0x0800 ∧ p.hwsize = 6 ∧ p.prosize = 4

instance (p : Arp) : Decidable p.IsIpv4 := inferInstanceAs (Decidable (_ ∧ _))

def ofEther (b : Buffer) (ether : Ether) : Except Fault Arp := do
  let hwtype ← b.readWord ether.data
  let protype ← b.readWord (ether.data + 2)
  let hwsize ← b.read (ether.data + 4)
  let prosize ← b.read (ether.data + 5)
  let op ← b.readWord (ether.data + 6)
  bugOn (hwtype ≠ 1)
  bugOn (protype ≠ 0x0800)
  bugOn (hwsize ≠ 6)
  bugOn (prosize ≠ 4)
  let smac ← b.readAddr 6 (ether.data + 8)
  let sip ← b.readAddr 4 (ether.data + 14)
  let dmac ← b.readAddr 6 (ether.data + 18)
  let dip ← b.readAddr 4 (ether.data + 24)
  .ok { hwtype, protype, hwsize, prosize, op, smac, sip, dmac, dip }

end Arp

namespace Ipv4

def ofEther (b : Buffer) (ether : Ether) : Except Fault Ipv4 := do
  let sip ← b.readAddr 4 (ether.data + 12)
  let dip ← b.readAddr 4 (ether.data + 16)
  let first ← b.read ether.data
  let ttl ← b.read (ether.data + 8)
  let proto ← b.read (ether.data + 9)
  let length ← b.readWord (ether.data + 2)
  let ihl := first &&& 0xF
  .ok { sip, dip, proto, ttl, length, ihl, data := ether.data + ihl.toNat * 4,
        dataSize := (length.toNat + 2 ^ 64 - ihl.toNat * 4) % 2 ^ 64, ether }

end Ipv4

/-! ## What the constructors read -/

namespace Buffer

variable {b : Buffer} {n a : ℕ}

theorem read_of_lt (h : a < b.size) : b.read a = .ok (b.byte a) := if_pos h

theorem readWord_of_le (h : a + 2 ≤ b.size) : b.readWord a = .ok (b.word a) := by
  rw [readWord, read_of_lt (by omega), read_of_lt (by omega)]
  rfl

theorem readAddr_of_le (h : a + n ≤ b.size) : b.readAddr n a = .ok (b.addr n a) := if_pos h

theorem readAddr_eq_ok {x : Fin n → UInt8} (h : b.readAddr n a = .ok x) : a + n ≤ b.size := by
  unfold readAddr at h
  split at h
  · assumption
  · cases h

theorem readWord_eq_ok {x : UInt16} (h : b.readWord a = .ok x) : a + 2 ≤ b.size := by
  obtain ⟨hi, -, h⟩ := Except.bind_eq_ok_iff.mp h
  obtain ⟨lo, hlo, -⟩ := Except.bind_eq_ok_iff.mp h
  unfold read at hlo
  split at hlo
  · assumption
  · cases hlo

/-- The packet at the beginning of a buffer. -/
def ether (b : Buffer) : Ether where
  source := b.addr 6 6
  dest := b.addr 6 0
  tp := b.word 12
  data := 14
  dataSize := (b.size + 2 ^ 64 - 18) % 2 ^ 64

/-- The ARP packet at an offset. -/
def arpAt (b : Buffer) (a : ℕ) : Arp where
  hwtype := b.word a
  protype := b.word (a + 2)
  hwsize := b.byte (a + 4)
  prosize := b.byte (a + 5)
  op := b.word (a + 6)
  smac := b.addr 6 (a + 8)
  sip := b.addr 4 (a + 14)
  dmac := b.addr 6 (a + 18)
  dip := b.addr 4 (a + 24)

/-- The length of the header of the IPv4 packet at an offset, in words. -/
def ihlAt (b : Buffer) (a : ℕ) : UInt8 := b.byte a &&& 0xF

def ipv4At (b : Buffer) (ether : Ether) : Ipv4 where
  sip := b.addr 4 (ether.data + 12)
  dip := b.addr 4 (ether.data + 16)
  proto := b.byte (ether.data + 9)
  ttl := b.byte (ether.data + 8)
  length := b.word (ether.data + 2)
  ihl := b.ihlAt ether.data
  data := ether.data + (b.ihlAt ether.data).toNat * 4
  dataSize := ((b.word (ether.data + 2)).toNat + 2 ^ 64 - (b.ihlAt ether.data).toNat * 4) % 2 ^ 64
  ether := ether

end Buffer

theorem bugOn_of_not {cond : Prop} [Decidable cond] (h : ¬ cond) : bugOn cond = .ok () := if_neg h

theorem bugOn_eq_ok {cond : Prop} [Decidable cond] {u : Unit} (h : bugOn cond = .ok u) : ¬ cond := by
  intro hcond
  rw [bugOn, if_pos hcond] at h
  cases h

section

variable {b : Buffer} {e : Ether}

theorem Ether.ofBuffer_of_le (h : 14 ≤ b.size) : Ether.ofBuffer b = .ok b.ether := by
  rw [ofBuffer, Buffer.readAddr_of_le (by omega), Buffer.readAddr_of_le (by omega),
    Buffer.readWord_of_le (by omega)]
  rfl

theorem Ether.le_of_ofBuffer {p : Ether} (h : Ether.ofBuffer b = .ok p) : 14 ≤ b.size := by
  obtain ⟨dest, -, h⟩ := Except.bind_eq_ok_iff.mp h
  obtain ⟨source, -, h⟩ := Except.bind_eq_ok_iff.mp h
  obtain ⟨tp, htp, -⟩ := Except.bind_eq_ok_iff.mp h
  exact Buffer.readWord_eq_ok htp

theorem Arp.ofEther_of_le (h : e.data + 28 ≤ b.size) (hfields : (b.arpAt e.data).IsIpv4) :
    Arp.ofEther b e = .ok (b.arpAt e.data) := by
  obtain ⟨hhwtype, hprotype, hhwsize, hprosize⟩ := hfields
  have hbug₁ : bugOn (b.word e.data ≠ 1) = .ok () := bugOn_of_not (not_not.mpr hhwtype)
  have hbug₂ : bugOn (b.word (e.data + 2) ≠ 0x0800) = .ok () := bugOn_of_not (not_not.mpr hprotype)
  have hbug₃ : bugOn (b.byte (e.data + 4) ≠ 6) = .ok () := bugOn_of_not (not_not.mpr hhwsize)
  have hbug₄ : bugOn (b.byte (e.data + 5) ≠ 4) = .ok () := bugOn_of_not (not_not.mpr hprosize)
  rw [ofEther, Buffer.readWord_of_le (by omega), Buffer.readWord_of_le (by omega),
    Buffer.read_of_lt (by omega), Buffer.read_of_lt (by omega), Buffer.readWord_of_le (by omega),
    Buffer.readAddr_of_le (by omega), Buffer.readAddr_of_le (by omega), Buffer.readAddr_of_le (by omega),
    Buffer.readAddr_of_le (by omega)]
  change (bugOn (b.word e.data ≠ 1) >>= fun _ => bugOn (b.word (e.data + 2) ≠ 0x0800) >>= fun _ =>
    bugOn (b.byte (e.data + 4) ≠ 6) >>= fun _ => bugOn (b.byte (e.data + 5) ≠ 4) >>= fun _ => _) = _
  rw [hbug₁, hbug₂, hbug₃, hbug₄]
  rfl

/-- An ARP packet that is read without an assertion is about Ethernet and IPv4. -/
theorem Arp.of_ofEther {p : Arp} (h : Arp.ofEther b e = .ok p) :
    e.data + 28 ≤ b.size ∧ p.IsIpv4 ∧ p = b.arpAt e.data := by
  obtain ⟨hwtype, hhwtype, h⟩ := Except.bind_eq_ok_iff.mp h
  obtain ⟨protype, hprotype, h⟩ := Except.bind_eq_ok_iff.mp h
  obtain ⟨hwsize, hhwsize, h⟩ := Except.bind_eq_ok_iff.mp h
  obtain ⟨prosize, hprosize, h⟩ := Except.bind_eq_ok_iff.mp h
  obtain ⟨op, hop, h⟩ := Except.bind_eq_ok_iff.mp h
  obtain ⟨_, hbug₁, h⟩ := Except.bind_eq_ok_iff.mp h
  obtain ⟨_, hbug₂, h⟩ := Except.bind_eq_ok_iff.mp h
  obtain ⟨_, hbug₃, h⟩ := Except.bind_eq_ok_iff.mp h
  obtain ⟨_, hbug₄, h⟩ := Except.bind_eq_ok_iff.mp h
  obtain ⟨smac, hsmac, h⟩ := Except.bind_eq_ok_iff.mp h
  obtain ⟨sip, hsip, h⟩ := Except.bind_eq_ok_iff.mp h
  obtain ⟨dmac, hdmac, h⟩ := Except.bind_eq_ok_iff.mp h
  obtain ⟨dip, hdip, h⟩ := Except.bind_eq_ok_iff.mp h
  have hle : e.data + 24 + 4 ≤ b.size := Buffer.readAddr_eq_ok hdip
  have hfields : Arp.IsIpv4 { hwtype, protype, hwsize, prosize, op, smac, sip, dmac, dip } :=
    ⟨not_not.mp (bugOn_eq_ok hbug₁), not_not.mp (bugOn_eq_ok hbug₂), not_not.mp (bugOn_eq_ok hbug₃),
      not_not.mp (bugOn_eq_ok hbug₄)⟩
  rw [Buffer.readWord_of_le (by omega)] at hhwtype hprotype hop
  rw [Buffer.read_of_lt (by omega)] at hhwsize hprosize
  rw [Buffer.readAddr_of_le (by omega)] at hsmac hsip hdmac hdip
  cases h
  refine ⟨hle, hfields, ?_⟩
  cases hhwtype
  cases hprotype
  cases hhwsize
  cases hprosize
  cases hop
  cases hsmac
  cases hsip
  cases hdmac
  cases hdip
  rfl

theorem Ipv4.ofEther_of_le (h : e.data + 20 ≤ b.size) : Ipv4.ofEther b e = .ok (b.ipv4At e) := by
  rw [ofEther, Buffer.readAddr_of_le (by omega), Buffer.readAddr_of_le (by omega),
    Buffer.read_of_lt (by omega), Buffer.read_of_lt (by omega), Buffer.read_of_lt (by omega),
    Buffer.readWord_of_le (by omega)]
  rfl

theorem Ipv4.le_of_ofEther {p : Ipv4} (h : Ipv4.ofEther b e = .ok p) : e.data + 20 ≤ b.size := by
  obtain ⟨sip, -, h⟩ := Except.bind_eq_ok_iff.mp h
  obtain ⟨dip, hdip, -⟩ := Except.bind_eq_ok_iff.mp h
  have hle := Buffer.readAddr_eq_ok hdip
  omega

end

end Ilobilix.Net
