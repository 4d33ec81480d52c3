import Ilobilix.Foundation.Bytes
import Ilobilix.System.Net.Packets
import Mathlib.Algebra.GroupWithZero.Nat
import Mathlib.Data.Fin.VecNotation
import Mathlib.Data.List.OfFn

/-!
# Building a packet

`build_packet` adds up the sizes of its parts, writes the bytes of one part after the other, and
then goes over the parts once more to put in the checksums. Whether a part takes part in that is
decided by its type: `requires_checksum` calls `do_checksum` with a pointer to `std::uint8_t`, and
the one of an IPv4 header takes a pointer to `std::byte`, so that its checksum is never put in.
`sound_iff` says which packets are right without it.
-/

namespace Ilobilix.Net

/-- The pointer that a `do_checksum` takes. Neither converts to the other. -/
inductive Pointer
  | byte
  | uint8
deriving DecidableEq

/-- What `build_packet` uses of a part. -/
structure Part where
  size : ℕ
  toBytes : Except Fault (List UInt8)
  takes : Option Pointer
  doChecksum : List UInt8 → (offset len : ℕ) → List UInt8

/-- `requires_checksum`. -/
def Part.requiresChecksum (part : Part) : Bool := decide (part.takes = some .uint8)

/-- Some bytes that are written into a buffer. -/
def writeAt (buf : List UInt8) (dest : ℕ) (bytes : List UInt8) : List UInt8 :=
  buf.take dest ++ bytes ++ buf.drop (dest + bytes.length)

def writeParts : List Part → (dest : ℕ) → List UInt8 → Except Fault (List UInt8)
  | [], _, buf => .ok buf
  | part :: parts, dest, buf => do
    let bytes ← part.toBytes
    if dest + bytes.length ≤ buf.length then
      writeParts parts (dest + bytes.length) (writeAt buf dest bytes)
    else .error .outside

def checksumParts (totalSize : ℕ) : List Part → (dest : ℕ) → List UInt8 → List UInt8
  | [], _, buf => buf
  | part :: parts, dest, buf =>
    let buf := if part.requiresChecksum then part.doChecksum buf dest totalSize else buf
    checksumParts totalSize parts (dest + part.size) buf

/-- `build_packet`, in a buffer that has any bytes in it. -/
def buildPacket (init : ℕ → UInt8) (parts : List Part) : Except Fault (List UInt8) := do
  let totalSize := (parts.map Part.size).sum
  let buf ← writeParts parts 0 ((List.range totalSize).map init)
  .ok (checksumParts totalSize parts 0 buf)

/-! ## The parts -/

def Ether.bytes (p : Ether) : List UInt8 := List.ofFn p.dest ++ List.ofFn p.source ++ wordBytes p.tp

def Ether.part (p : Ether) : Part where
  size := 14
  toBytes := .ok p.bytes
  takes := none
  doChecksum buf _ _ := buf

namespace Arp

def bytes (p : Arp) : List UInt8 :=
  wordBytes p.hwtype ++ wordBytes p.protype ++ [p.hwsize, p.prosize] ++ wordBytes p.op ++
    List.ofFn p.smac ++ List.ofFn p.sip ++ List.ofFn p.dmac ++ List.ofFn p.dip

def toBytes (p : Arp) : Except Fault (List UInt8) := do
  bugOn (p.hwtype ≠ 1)
  bugOn (p.protype ≠ 0x0800)
  bugOn (p.hwsize ≠ 6)
  bugOn (p.prosize ≠ 4)
  .ok p.bytes

def part (p : Arp) : Part where
  size := 8 + p.hwsize.toNat * 2 + p.prosize.toNat * 2
  toBytes := p.toBytes
  takes := none
  doChecksum buf _ _ := buf

end Arp

namespace Ipv4

def size (p : Ipv4) : ℕ := p.ihl.toNat * 4

def bytes (p : Ipv4) : List UInt8 :=
  let size := (p.dataSize + p.size) % 2 ^ 64
  [(4 : UInt8) <<< 4 ||| p.ihl, 0] ++ [UInt8.ofNat (size >>> 8), UInt8.ofNat (size &&& 0xFF)] ++
    [0, 0] ++ [0, 0] ++ [p.ttl, p.proto] ++ [0, 0] ++ List.ofFn p.sip ++ List.ofFn p.dip

/-- Options are not supported. -/
def toBytes (p : Ipv4) : Except Fault (List UInt8) := if p.ihl ≠ 5 then .error .bug else .ok p.bytes

def doChecksum (p : Ipv4) (buf : List UInt8) (offset len : ℕ) : List UInt8 :=
  let len := (len + 2 ^ 64 - offset) % 2 ^ 64
  let buf := writeAt buf (offset + 2) [UInt8.ofNat (len >>> 8), UInt8.ofNat (len &&& 0xFF)]
  let sum := Checksum.compute ((buf.drop offset).take p.size)
  writeAt buf (offset + 10) (wordBytes sum)

def part (p : Ipv4) : Part where
  size := p.size
  toBytes := p.toBytes
  takes := some .byte
  doChecksum := p.doChecksum

end Ipv4

/-- The part after the Ethernet header. -/
inductive Payload
  | ipv4 (header : Ipv4) (ihl : header.ihl = 5)
  | arp (packet : Arp)

def Payload.part : Payload → Part
  | .ipv4 header _ => header.part
  | .arp packet => packet.part

/-- A part that follows, which writes as many bytes as its size says. -/
structure Data where
  bytes : List UInt8
  takes : Option Pointer
  doChecksum : List UInt8 → (offset len : ℕ) → List UInt8

def Data.part (data : Data) : Part where
  size := data.bytes.length
  toBytes := .ok data.bytes
  takes := data.takes
  doChecksum := data.doChecksum

/-- The parts of a packet. For a part that follows and has a `do_checksum` with a pointer to
`std::uint8_t`, the call with a pointer to `std::byte` would not compile. The sizes add up in a
word. -/
structure Packet where
  ether : Ether
  payload : Payload
  rest : List Data
  compiles : ∀ data ∈ rest, data.takes ≠ some .uint8
  size_lt : 14 + payload.part.size + (rest.map fun data => data.bytes.length).sum < 2 ^ 64

def Packet.parts (p : Packet) : List Part := p.ether.part :: p.payload.part :: p.rest.map Data.part

/-! ## What is built -/

/-- The fields of the payload are read back, the total length of an IPv4 header is the number of
bytes from it to the end, and its words add to all ones. -/
def Payload.Correct (b : Buffer) (ether : Ether) : Payload → Prop
  | .ipv4 header _ => ∃ q, Ipv4.ofEther b ether = .ok q ∧
      (q.sip = header.sip ∧ q.dip = header.dip ∧ q.proto = header.proto ∧ q.ttl = header.ttl ∧
        q.ihl = header.ihl) ∧
      q.length.toNat = b.size - 14 ∧ total ((b.bytes.drop 14).take 20) = OnesComplement.ones
  | .arp packet => Arp.ofEther b ether = .ok packet

/-- Each part has its own range, and the headers are read back from theirs. -/
structure Packet.Correct (p : Packet) (b : Buffer) : Prop where
  size : b.size = (p.parts.map Part.size).sum
  ranges : ∃ header : List UInt8, header.length = p.payload.part.size ∧
    b.bytes = p.ether.bytes ++ header ++ (p.rest.map Data.bytes).flatten
  payload : ∃ ether, Ether.ofBuffer b = .ok ether ∧
    (ether.source = p.ether.source ∧ ether.dest = p.ether.dest ∧ ether.tp = p.ether.tp) ∧
    p.payload.Correct b ether

/-- The packet is built, whatever bytes the buffer has in it. -/
def Packet.Sound (p : Packet) : Prop :=
  ∀ init, ∃ b : Buffer, buildPacket init p.parts = .ok b.bytes ∧ p.Correct b

/-- The words of an IPv4 header that has no checksum. -/
def Ipv4.sum (p : Ipv4) : OnesComplement 0xFFFF :=
  digit 0x4500 + digit (UInt16.ofNat (p.dataSize + 20)) + digit (word p.ttl p.proto) +
    total (List.ofFn p.sip) + total (List.ofFn p.dip)

/-- An ARP packet is about Ethernet and IPv4. An IPv4 header has the size of the data that follow,
up to the 16 bits that are written, and needs no checksum. -/
def Packet.Fits (p : Packet) : Prop :=
  match p.payload with
  | .ipv4 header _ =>
      (header.dataSize + 20) % 2 ^ 16 = 20 + (p.rest.map fun data => data.bytes.length).sum ∧
        header.sum = OnesComplement.ones
  | .arp packet => packet.IsIpv4

/-! ## The two passes -/

/-- The part writes these bytes, as many as its size says. -/
structure Writes (part : Part) (bytes : List UInt8) : Prop where
  toBytes : part.toBytes = .ok bytes
  length : bytes.length = part.size

theorem take_writeAt {buf bytes : List UInt8} {dest : ℕ} (h : dest ≤ buf.length) :
    (writeAt buf dest bytes).take (dest + bytes.length) = buf.take dest ++ bytes := by
  have hlen : (buf.take dest ++ bytes).length = dest + bytes.length := by
    rw [List.length_append, List.length_take, Nat.min_eq_left h]
  rw [writeAt, List.take_append_of_le_length hlen.ge, List.take_of_length_le hlen.le]

theorem length_writeAt {buf bytes : List UInt8} {dest : ℕ} (h : dest + bytes.length ≤ buf.length) :
    (writeAt buf dest bytes).length = buf.length := by
  rw [writeAt, List.length_append, List.length_append, List.length_take, List.length_drop]
  omega

/-- The bytes of the parts are one after the other. -/
theorem writeParts_eq {parts : List Part} {segments : List (List UInt8)} {dest : ℕ} {buf : List UInt8}
    (h : List.Forall₂ Writes parts segments) (hlen : buf.length = dest + (parts.map Part.size).sum) :
    writeParts parts dest buf = .ok (buf.take dest ++ segments.flatten) := by
  induction h generalizing dest buf with
  | nil =>
      have hle : buf.length ≤ dest := hlen.le
      rw [writeParts, List.take_of_length_le hle]
      exact congrArg Except.ok (List.append_nil _).symm
  | @cons part bytes parts segments hpart hparts ih =>
      rw [List.map_cons, List.sum_cons, ← hpart.length] at hlen
      have hle : dest + bytes.length ≤ buf.length := by omega
      have hlen' : (writeAt buf dest bytes).length =
          dest + bytes.length + (parts.map Part.size).sum := by
        rw [length_writeAt hle]
        omega
      have hrest := ih hlen'
      rw [writeParts, hpart.toBytes, Except.ok_bind, if_pos hle, hrest, take_writeAt (by omega),
        List.flatten_cons, List.append_assoc]

/-- No part takes the pointer that the constraint asks for, and the second pass leaves the buffer
alone. -/
theorem checksumParts_eq {parts : List Part} (totalSize dest : ℕ) (buf : List UInt8)
    (h : ∀ part ∈ parts, part.takes ≠ some .uint8) : checksumParts totalSize parts dest buf = buf := by
  induction parts generalizing dest with
  | nil => rfl
  | cons part parts ih =>
      obtain ⟨hpart, hparts⟩ := List.forall_mem_cons.mp h
      have hnot : ¬ part.requiresChecksum = true := by
        rw [Part.requiresChecksum, decide_eq_true_eq]
        exact hpart
      rw [checksumParts, if_neg hnot]
      exact ih _ hparts

theorem Payload.takes_ne (payload : Payload) : payload.part.takes ≠ some .uint8 := by
  cases payload with
  | ipv4 header ihl =>
      change some Pointer.byte ≠ some Pointer.uint8
      decide
  | arp packet => exact nofun

theorem Packet.takes_ne (p : Packet) : ∀ part ∈ p.parts, part.takes ≠ some .uint8 := by
  refine List.forall_mem_cons.mpr ⟨nofun, List.forall_mem_cons.mpr ⟨p.payload.takes_ne, ?_⟩⟩
  intro part hmem
  obtain ⟨data, hdata, rfl⟩ := List.mem_map.mp hmem
  exact p.compiles data hdata

theorem Ether.length_bytes (p : Ether) : p.bytes.length = 14 := by
  simp only [Ether.bytes, List.length_append, List.length_ofFn]
  rfl

theorem Ether.writes (p : Ether) : Writes p.part p.bytes := ⟨rfl, p.length_bytes⟩

theorem Arp.length_bytes (p : Arp) : p.bytes.length = 28 := by
  simp only [Arp.bytes, List.length_append, List.length_ofFn]
  rfl

theorem Arp.writes {p : Arp} (h : p.IsIpv4) : Writes p.part p.bytes where
  toBytes := by
    obtain ⟨hhwtype, hprotype, hhwsize, hprosize⟩ := h
    change p.toBytes = _
    rw [Arp.toBytes, bugOn_of_not (not_not.mpr hhwtype), bugOn_of_not (not_not.mpr hprotype),
      bugOn_of_not (not_not.mpr hhwsize), bugOn_of_not (not_not.mpr hprosize)]
    rfl
  length := by
    obtain ⟨-, -, hhwsize, hprosize⟩ := h
    change _ = 8 + p.hwsize.toNat * 2 + p.prosize.toNat * 2
    rw [Arp.length_bytes, hhwsize, hprosize]
    rfl

theorem Arp.of_toBytes {p : Arp} {bytes : List UInt8} (h : p.toBytes = .ok bytes) : p.IsIpv4 := by
  obtain ⟨_, hbug₁, h⟩ := Except.bind_eq_ok_iff.mp h
  obtain ⟨_, hbug₂, h⟩ := Except.bind_eq_ok_iff.mp h
  obtain ⟨_, hbug₃, h⟩ := Except.bind_eq_ok_iff.mp h
  obtain ⟨_, hbug₄, h⟩ := Except.bind_eq_ok_iff.mp h
  exact ⟨not_not.mp (bugOn_eq_ok hbug₁), not_not.mp (bugOn_eq_ok hbug₂), not_not.mp (bugOn_eq_ok hbug₃),
    not_not.mp (bugOn_eq_ok hbug₄)⟩

theorem Ipv4.length_bytes (p : Ipv4) : p.bytes.length = 20 := by
  simp only [Ipv4.bytes, List.length_append, List.length_ofFn]
  rfl

theorem Ipv4.size_eq {p : Ipv4} (h : p.ihl = 5) : p.size = 20 := by
  rw [Ipv4.size, h]
  rfl

theorem Ipv4.writes {p : Ipv4} (h : p.ihl = 5) : Writes p.part p.bytes where
  toBytes := if_neg (not_not.mpr h)
  length := p.length_bytes.trans (Ipv4.size_eq h).symm

theorem Packet.build_eq (p : Packet) {header : List UInt8} (h : Writes p.payload.part header)
    (init : ℕ → UInt8) :
    buildPacket init p.parts = .ok (p.ether.bytes ++ header ++ (p.rest.map Data.bytes).flatten) := by
  have hrest : List.Forall₂ Writes (p.rest.map Data.part) (p.rest.map Data.bytes) :=
    List.forall₂_map_left_iff.mpr (List.forall₂_map_right_iff.mpr
      (List.forall₂_same.mpr fun data _ => ⟨rfl, rfl⟩))
  have hparts : List.Forall₂ Writes p.parts (p.ether.bytes :: header :: p.rest.map Data.bytes) :=
    .cons p.ether.writes (.cons h hrest)
  have hlen : ((List.range (p.parts.map Part.size).sum).map init).length =
      0 + (p.parts.map Part.size).sum := by
    rw [List.length_map, List.length_range, Nat.zero_add]
  rw [buildPacket, writeParts_eq hparts hlen, Except.ok_bind, checksumParts_eq _ _ _ p.takes_ne,
    List.take_zero, List.nil_append, List.flatten_cons, List.flatten_cons, List.append_assoc]

/-- A packet is only built if the payload is written. -/
theorem Packet.writes_of_build {p : Packet} {init : ℕ → UInt8} {bytes : List UInt8}
    (h : buildPacket init p.parts = .ok bytes) : ∃ header, p.payload.part.toBytes = .ok header := by
  obtain ⟨buf, hbuf, -⟩ := Except.bind_eq_ok_iff.mp h
  obtain ⟨etherBytes, -, hbuf⟩ := Except.bind_eq_ok_iff.mp hbuf
  split at hbuf
  · obtain ⟨header, hheader, -⟩ := Except.bind_eq_ok_iff.mp hbuf
    exact ⟨header, hheader⟩
  · cases hbuf

/-! ## Reading the headers back -/

section

variable {b : Buffer} {a n : ℕ}

theorem Buffer.addr_of_bytesAt {x : Fin n → UInt8} (h : BytesAt b.byte a (List.ofFn x)) :
    b.addr n a = x := by
  funext i
  have hlt : i.val < (List.ofFn x).length := i.isLt.trans_eq List.length_ofFn.symm
  exact (h i hlt).trans (List.getElem_ofFn hlt)

theorem Buffer.word_of_bytesAt {w : UInt16} (h : BytesAt b.byte a (wordBytes w)) : b.word a = w := by
  have hhi : b.byte a = (w >>> 8).toUInt8 := h 0 Nat.two_pos
  have hlo : b.byte (a + 1) = w.toUInt8 := h 1 Nat.one_lt_two
  rw [Buffer.word, hhi, hlo, word_wordBytes]

theorem Ether.of_bytesAt {p : Ether} (h : BytesAt b.byte 0 p.bytes) :
    b.ether.source = p.source ∧ b.ether.dest = p.dest ∧ b.ether.tp = p.tp := by
  simp only [Ether.bytes, BytesAt.append_iff, List.length_append, List.length_ofFn] at h
  obtain ⟨⟨hdest, hsource⟩, htp⟩ := h
  exact ⟨Buffer.addr_of_bytesAt hsource, Buffer.addr_of_bytesAt hdest, Buffer.word_of_bytesAt htp⟩

theorem Arp.of_bytesAt {p : Arp} (h : BytesAt b.byte a p.bytes) : b.arpAt a = p := by
  simp only [Arp.bytes, BytesAt.append_iff, BytesAt.cons_iff, List.length_append, List.length_ofFn] at h
  obtain ⟨⟨⟨⟨⟨⟨⟨hhwtype, hprotype⟩, hhwsize, hprosize, -⟩, hop⟩, hsmac⟩, hsip⟩, hdmac⟩, hdip⟩ := h
  exact Arp.ext (Buffer.word_of_bytesAt hhwtype) (Buffer.word_of_bytesAt hprotype) hhwsize hprosize
    (Buffer.word_of_bytesAt hop) (Buffer.addr_of_bytesAt hsmac) (Buffer.addr_of_bytesAt hsip)
    (Buffer.addr_of_bytesAt hdmac) (Buffer.addr_of_bytesAt hdip)

theorem wordBytes_ofNat (n : ℕ) :
    [UInt8.ofNat (n >>> 8), UInt8.ofNat (n &&& 0xFF)] = wordBytes (UInt16.ofNat n) := by
  have hhi : UInt8.ofNat (n >>> 8) = (UInt16.ofNat n >>> 8).toUInt8 := by
    have hleft : (UInt8.ofNat (n >>> 8)).toNat = n >>> 8 % 2 ^ 8 := rfl
    have hright : (UInt16.ofNat n >>> 8).toUInt8.toNat = (n % 2 ^ 16) >>> 8 % 2 ^ 8 := rfl
    rw [← UInt8.toNat_inj, hleft, hright, Nat.shiftRight_eq_div_pow, Nat.shiftRight_eq_div_pow]
    omega
  have hlo : UInt8.ofNat (n &&& 0xFF) = (UInt16.ofNat n).toUInt8 := by
    have hleft : (UInt8.ofNat (n &&& 0xFF)).toNat = (n &&& (2 ^ 8 - 1)) % 2 ^ 8 := rfl
    have hright : (UInt16.ofNat n).toUInt8.toNat = n % 2 ^ 16 % 2 ^ 8 := rfl
    rw [← UInt8.toNat_inj, hleft, hright, Nat.and_two_pow_sub_one_eq_mod]
    omega
  rw [wordBytes, hhi, hlo]

/-- The header without options, its words in order. -/
theorem Ipv4.bytes_eq {p : Ipv4} (h : p.ihl = 5) :
    p.bytes = [0x45, 0] ++ wordBytes (UInt16.ofNat (p.dataSize + 20)) ++ [0, 0] ++ [0, 0] ++
      [p.ttl, p.proto] ++ [0, 0] ++ List.ofFn p.sip ++ List.ofFn p.dip := by
  have hmod : UInt16.ofNat ((p.dataSize + 20) % 2 ^ 64) = UInt16.ofNat (p.dataSize + 20) := by
    rw [← UInt16.toNat_inj, UInt16.toNat_ofNat', UInt16.toNat_ofNat']
    omega
  rw [Ipv4.bytes, wordBytes_ofNat, Ipv4.size_eq h, hmod, h]
  rfl

theorem Ipv4.of_bytesAt {p : Ipv4} {e : Ether} (hihl : p.ihl = 5) (h : BytesAt b.byte e.data p.bytes) :
    ((b.ipv4At e).sip = p.sip ∧ (b.ipv4At e).dip = p.dip ∧ (b.ipv4At e).proto = p.proto ∧
      (b.ipv4At e).ttl = p.ttl ∧ (b.ipv4At e).ihl = p.ihl) ∧
      (b.ipv4At e).length = UInt16.ofNat (p.dataSize + 20) := by
  rw [Ipv4.bytes_eq hihl] at h
  simp only [BytesAt.append_iff, BytesAt.cons_iff, List.length_append, List.length_ofFn] at h
  obtain ⟨⟨⟨⟨⟨⟨⟨⟨hfirst, -⟩, hlength⟩, -⟩, -⟩, httl, hproto, -⟩, -⟩, hsip⟩, hdip⟩ := h
  have hihl' : (b.ipv4At e).ihl = p.ihl := by
    change b.byte e.data &&& 0xF = p.ihl
    rw [hfirst, hihl]
    decide
  exact ⟨⟨Buffer.addr_of_bytesAt hsip, Buffer.addr_of_bytesAt hdip, hproto, httl, hihl'⟩,
    Buffer.word_of_bytesAt hlength⟩

/-- The words of a header add to its sum, since the checksum is left out. -/
theorem Ipv4.total_bytes {p : Ipv4} (h : p.ihl = 5) : total p.bytes = p.sum := by
  have hsip : Even (List.ofFn p.sip).length := by
    rw [List.length_ofFn]
    decide
  have hfirst : total [0x45, 0] = digit 0x4500 := by decide
  have hzero : total [0, 0] = 0 := by decide
  have hproto : total [p.ttl, p.proto] = digit (word p.ttl p.proto) := add_zero _
  rw [Ipv4.bytes_eq h]
  simp only [List.append_assoc]
  rw [total_append _ ⟨1, rfl⟩, total_append _ ⟨1, rfl⟩, total_append _ ⟨1, rfl⟩,
    total_append _ ⟨1, rfl⟩, total_append _ ⟨1, rfl⟩, total_append _ ⟨1, rfl⟩, total_append _ hsip, hfirst, hzero, hproto,
    total_wordBytes, zero_add, zero_add, zero_add, Ipv4.sum]
  simp only [add_assoc]

end

/-! ## The checksum that is left out -/

theorem writeAt_eq {pre old bytes : List UInt8} (post : List UInt8) {dest : ℕ}
    (hdest : pre.length = dest) (h : old.length = bytes.length) :
    writeAt (pre ++ old ++ post) dest bytes = pre ++ bytes ++ post := by
  have htake : (pre ++ old ++ post).take dest = pre := by
    rw [List.append_assoc, ← hdest, List.take_left]
  have hdrop : (pre ++ old ++ post).drop (dest + bytes.length) = post := by
    rw [← h, ← hdest, ← List.length_append, List.drop_left]
  rw [writeAt, htake, hdrop]

/-- A header without options. -/
def Ipv4.header (p : Ipv4) (length sum : UInt16) : List UInt8 :=
  placed ([0x45, 0] ++ wordBytes length ++ [0, 0] ++ [0, 0] ++ [p.ttl, p.proto])
    (List.ofFn p.sip ++ List.ofFn p.dip) sum

theorem Ipv4.length_header (p : Ipv4) (length sum : UInt16) : (p.header length sum).length = 20 := by
  simp only [Ipv4.header, placed, List.length_append, List.length_ofFn]
  rfl

section

variable (p : Ipv4) (pre post : List UInt8) (length length' sum sum' : UInt16)

theorem Ipv4.writeAt_length :
    writeAt (pre ++ p.header length sum ++ post) (pre.length + 2) (wordBytes length') =
      pre ++ p.header length' sum ++ post := by
  have hdest : (pre ++ [0x45, 0]).length = pre.length + 2 := List.length_append
  have hlength : (wordBytes length).length = (wordBytes length').length := rfl
  have hwrite := writeAt_eq ([0, 0] ++ [0, 0] ++ [p.ttl, p.proto] ++ wordBytes sum ++
    (List.ofFn p.sip ++ List.ofFn p.dip) ++ post) hdest hlength
  simpa only [Ipv4.header, placed, List.append_assoc] using hwrite

theorem Ipv4.writeAt_sum :
    writeAt (pre ++ p.header length sum ++ post) (pre.length + 10) (wordBytes sum') =
      pre ++ p.header length sum' ++ post := by
  have hdest : (pre ++ ([0x45, 0] ++ wordBytes length ++ [0, 0] ++ [0, 0] ++ [p.ttl, p.proto])).length =
      pre.length + 10 := List.length_append
  have hsum : (wordBytes sum).length = (wordBytes sum').length := rfl
  have hwrite := writeAt_eq (List.ofFn p.sip ++ List.ofFn p.dip ++ post) hdest hsum
  simpa only [Ipv4.header, placed, List.append_assoc] using hwrite

end

/-- Had the constraint let it run, `do_checksum` would have made the header right. -/
theorem Ipv4.doChecksum_eq {p : Ipv4} (h : p.ihl = 5) (pre post : List UInt8) (len : ℕ) :
    ∃ sum, p.doChecksum (pre ++ p.bytes ++ post) pre.length len =
        pre ++ p.header (UInt16.ofNat ((len + 2 ^ 64 - pre.length) % 2 ^ 64)) sum ++ post ∧
      total (p.header (UInt16.ofNat ((len + 2 ^ 64 - pre.length) % 2 ^ 64)) sum) =
        OnesComplement.ones := by
  have hbytes : p.bytes = p.header (UInt16.ofNat (p.dataSize + 20)) 0 := by
    rw [Ipv4.bytes_eq h, List.append_assoc]
    rfl
  generalize hword : UInt16.ofNat ((len + 2 ^ 64 - pre.length) % 2 ^ 64) = length
  have htake : ((pre ++ p.header length 0 ++ post).drop pre.length).take 20 = p.header length 0 := by
    rw [List.append_assoc, List.drop_left, ← p.length_header length 0, List.take_left]
  refine ⟨rfc1071 (p.header length 0), ?_, total_placed _ ⟨5, rfl⟩⟩
  rw [Ipv4.doChecksum, wordBytes_ofNat, hword, hbytes, Ipv4.writeAt_length, Ipv4.size_eq h, htake,
    Ipv4.writeAt_sum, Checksum.compute_eq]

/-! ## The whole packet -/

namespace Packet

theorem sum_size (p : Packet) : (p.parts.map Part.size).sum =
    14 + p.payload.part.size + (p.rest.map fun data => data.bytes.length).sum := by
  have hrest : (p.rest.map Data.part).map Part.size = p.rest.map fun data => data.bytes.length :=
    List.map_map
  rw [parts, List.map_cons, List.map_cons, hrest, List.sum_cons, List.sum_cons, ← Nat.add_assoc]
  rfl

/-- The bytes of the parts, with those of the payload. -/
def bytes (p : Packet) (header : List UInt8) : List UInt8 :=
  p.ether.bytes ++ header ++ (p.rest.map Data.bytes).flatten

theorem length_bytes {p : Packet} {header : List UInt8} (h : Writes p.payload.part header) :
    (p.bytes header).length = (p.parts.map Part.size).sum := by
  have hrest : (p.rest.map Data.bytes).map List.length = p.rest.map fun data => data.bytes.length :=
    List.map_map
  rw [sum_size, bytes, List.length_append, List.length_append, p.ether.length_bytes, h.length,
    List.length_flatten, hrest]

def buffer (p : Packet) {header : List UInt8} (h : Writes p.payload.part header) : Buffer where
  bytes := p.bytes header
  size_lt := by
    rw [length_bytes h, sum_size]
    exact p.size_lt

variable {p : Packet} {header : List UInt8} (h : Writes p.payload.part header)

theorem size_buffer : (p.buffer h).size = (p.parts.map Part.size).sum := length_bytes h

theorem le_size_buffer : 14 + p.payload.part.size ≤ (p.buffer h).size := by
  rw [size_buffer, sum_size]
  exact Nat.le_add_right _ _

theorem bytesAt_buffer :
    BytesAt (p.buffer h).byte 0 p.ether.bytes ∧ BytesAt (p.buffer h).byte 14 header := by
  have hall : BytesAt (p.buffer h).byte 0 (p.buffer h).bytes := BytesAt.of_getD _
  obtain ⟨hheaders, -⟩ := BytesAt.append_iff.mp hall
  obtain ⟨hether, hheader⟩ := BytesAt.append_iff.mp hheaders
  rw [p.ether.length_bytes, Nat.zero_add] at hheader
  exact ⟨hether, hheader⟩

theorem drop_buffer : ((p.buffer h).bytes.drop 14).take header.length = header := by
  change ((p.bytes header).drop 14).take header.length = header
  rw [bytes, List.append_assoc, ← p.ether.length_bytes, List.drop_left, List.take_left]

/-- Once the payload is written, all but its own fields is right. -/
theorem sound_iff_correct : p.Sound ↔ p.payload.Correct (p.buffer h) (p.buffer h).ether := by
  have hle : 14 ≤ (p.buffer h).size := (Nat.le_add_right _ _).trans (le_size_buffer h)
  constructor
  · intro hsound
    obtain ⟨b, hbuild, hcorrect⟩ := hsound fun _ => 0
    rw [p.build_eq h] at hbuild
    obtain rfl : p.buffer h = b := Buffer.ext (Except.ok.inj hbuild)
    obtain ⟨ether, hether, -, hpayload⟩ := hcorrect.payload
    rw [Ether.ofBuffer_of_le hle] at hether
    cases hether
    exact hpayload
  · intro hpayload init
    refine ⟨p.buffer h, p.build_eq h init, size_buffer h, ⟨header, h.length, rfl⟩, ?_⟩
    exact ⟨_, Ether.ofBuffer_of_le hle, Ether.of_bytesAt (bytesAt_buffer h).1, hpayload⟩

theorem sound_arp_iff {p : Packet} {packet : Arp} (hpayload : p.payload = .arp packet) :
    p.Sound ↔ packet.IsIpv4 := by
  have hpart : p.payload.part = packet.part := congrArg Payload.part hpayload
  constructor
  · intro hsound
    obtain ⟨b, hbuild, -⟩ := hsound fun _ => 0
    obtain ⟨header, hheader⟩ := writes_of_build hbuild
    rw [hpart] at hheader
    exact Arp.of_toBytes hheader
  · intro hfields
    have h : Writes p.payload.part packet.bytes := hpart ▸ Arp.writes hfields
    have hle : 14 + 28 ≤ (p.buffer h).size := by
      have hlen := h.length
      rw [Arp.length_bytes] at hlen
      rw [hlen]
      exact le_size_buffer h
    have harp : (p.buffer h).arpAt 14 = packet := Arp.of_bytesAt (bytesAt_buffer h).2
    have hfields' : ((p.buffer h).arpAt 14).IsIpv4 := by
      rw [harp]
      exact hfields
    have hread : Arp.ofEther (p.buffer h) (p.buffer h).ether = .ok ((p.buffer h).arpAt 14) :=
      Arp.ofEther_of_le hle hfields'
    rw [harp] at hread
    rw [sound_iff_correct h, hpayload]
    exact hread

theorem sound_ipv4_iff {p : Packet} {header : Ipv4} {ihl : header.ihl = 5}
    (hpayload : p.payload = .ipv4 header ihl) : p.Sound ↔
      (header.dataSize + 20) % 2 ^ 16 = 20 + (p.rest.map fun data => data.bytes.length).sum ∧
        header.sum = OnesComplement.ones := by
  have hpart : p.payload.part = header.part := congrArg Payload.part hpayload
  have h : Writes p.payload.part header.bytes := hpart ▸ Ipv4.writes ihl
  have hsize : p.payload.part.size = 20 := by
    rw [← h.length, Ipv4.length_bytes]
  have hle : 14 + 20 ≤ (p.buffer h).size := hsize ▸ le_size_buffer h
  have hrest : (p.buffer h).size - 14 = 20 + (p.rest.map fun data => data.bytes.length).sum := by
    rw [size_buffer, sum_size, hsize]
    omega
  obtain ⟨hfields, hlength⟩ := Ipv4.of_bytesAt (e := (p.buffer h).ether) ihl (bytesAt_buffer h).2
  have hlength' : ((p.buffer h).ipv4At (p.buffer h).ether).length.toNat =
      (header.dataSize + 20) % 2 ^ 16 := by
    rw [hlength]
    exact UInt16.toNat_ofNat'
  have htotal : total (((p.buffer h).bytes.drop 14).take 20) = header.sum := by
    rw [← Ipv4.total_bytes ihl, ← header.length_bytes, drop_buffer]
  rw [sound_iff_correct h, hpayload, ← hrest, ← hlength', ← htotal]
  constructor
  · rintro ⟨q, hq, -, hcorrect⟩
    rw [Ipv4.ofEther_of_le hle] at hq
    cases hq
    exact hcorrect
  · intro hcorrect
    exact ⟨_, Ipv4.ofEther_of_le hle, hfields, hcorrect⟩

/-- A packet is right exactly if its IPv4 header needs no checksum and has the size of what follows.
-/
theorem sound_iff : p.Sound ↔ p.Fits := by
  unfold Fits
  split
  next header ihl hpayload => exact sound_ipv4_iff hpayload
  next packet hpayload => exact sound_arp_iff hpayload

/-- An echo request from 10.0.0.1 to 10.0.0.2. -/
def echoRequest : Packet where
  ether := { source := fun _ => 1, dest := fun _ => 2, tp := Ether.ipv4, data := 0, dataSize := 0 }
  payload := .ipv4
    { sip := ![10, 0, 0, 1], dip := ![10, 0, 0, 2], proto := 1, ttl := 64, length := 28, ihl := 5,
      data := 0, dataSize := 8,
      ether :=
        { source := fun _ => 1, dest := fun _ => 2, tp := Ether.ipv4, data := 0, dataSize := 0 } } rfl
  rest := [{ bytes := [8, 0, 0xF7, 0xFF, 0, 0, 0, 0], takes := none, doChecksum := fun buf _ _ => buf }]
  compiles := by decide
  size_lt := by decide

/-- Its length is right, and its checksum is missing. -/
theorem not_sound : ¬ ∀ p : Packet, p.Sound := by
  intro h
  have hfits := (sound_ipv4_iff (p := echoRequest) rfl).mp (h echoRequest)
  exact absurd hfits.2 (by decide)

end Packet

end Ilobilix.Net
