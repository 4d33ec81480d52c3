import Ilobilix.System.Net.Packets
import Mathlib.Data.Fintype.Basic
import Mathlib.Data.Fintype.Defs

/-!
# Receiving a frame

The dispatcher reads the Ethernet header and hands the frame to the first processor that matches its
type. The processor for ARP answers requests for the own address and updates the routes that a reply
is about, the one for IPv4 hands the packet on.

The size of the payload of a frame leaves out the header and the checksum, 18 bytes, and is never
looked at before a packet is read from it. `safe_iff` says for which frames this goes well.
-/

namespace Ilobilix.Net

/-- `arp::route`. -/
structure ArpRoute where
  ip : Ip
  mac : Mac
  resolved : Bool
deriving DecidableEq

/-- What is left of a frame: the routes, the replies that are sent to an address and a protocol
address, the payloads of the packets that were read, and the packet that is handed on. -/
structure Outcome where
  routes : List ArpRoute
  replies : List (Mac × Ip)
  payloads : List (ℕ × ℕ)
  handed : Option Ipv4

/-- A route after a reply. -/
def ArpRoute.update (arp : Arp) (route : ArpRoute) : ArpRoute :=
  if route.ip ≠ arp.sip then route else { ip := arp.sip, mac := arp.smac, resolved := true }

/-- `push_packet` of the processor for ARP, with the own address of the sender. -/
def pushArp (own : Ip) (routes : List ArpRoute) (b : Buffer) (frame : Ether) : Except Fault Outcome := do
  let arp ← Arp.ofEther b frame
  let payloads := [(frame.data, frame.dataSize)]
  if arp.op = 1 then
    if arp.dip = own then .ok { routes, replies := [(arp.smac, arp.sip)], payloads, handed := none }
    else .ok { routes, replies := [], payloads, handed := none }
  else if arp.op = 2 then
    .ok { routes := routes.map (ArpRoute.update arp), replies := [], payloads, handed := none }
  else .ok { routes, replies := [], payloads, handed := none }

/-- `push_packet` of the processor for IPv4. -/
def pushIpv4 (routes : List ArpRoute) (b : Buffer) (frame : Ether) : Except Fault Outcome := do
  let ipv4 ← Ipv4.ofEther b frame
  .ok { routes, replies := [], payloads := [(frame.data, frame.dataSize), (ipv4.data, ipv4.dataSize)],
        handed := some ipv4 }

/-- One turn of `runner`. -/
def receive (own : Ip) (routes : List ArpRoute) (b : Buffer) : Except Fault Outcome := do
  let frame ← Ether.ofBuffer b
  let dropped : Outcome :=
    { routes, replies := [], payloads := [(frame.data, frame.dataSize)], handed := none }
  if frame.isValid = false then .ok dropped
  else if frame.tp = Ether.arp then pushArp own routes b frame
  else if frame.tp = Ether.ipv4 then pushIpv4 routes b frame
  else .ok dropped

/-! ## Frames -/

/-- An ARP packet that fits the payload, about Ethernet and IPv4. -/
structure IsArpFrame (b : Buffer) : Prop where
  size : 46 ≤ b.size
  fields : (b.arpAt 14).IsIpv4

/-- An IPv4 packet that fits the payload, as its header does. -/
structure IsIpv4Frame (b : Buffer) : Prop where
  size : 38 ≤ b.size
  version : b.byte 14 >>> 4 = 4
  ihl : 5 ≤ (b.ihlAt 14).toNat
  header : (b.ihlAt 14).toNat * 4 ≤ (b.word 16).toNat
  length : (b.word 16).toNat + 18 ≤ b.size

/-- The frame is complete, and so is the packet in it. -/
structure WellFormed (b : Buffer) : Prop where
  size : 18 ≤ b.size
  arp : b.word 12 = Ether.arp → IsArpFrame b
  ipv4 : b.word 12 = Ether.ipv4 → IsIpv4Frame b

/-- All reads are inside the buffer and all payloads end in it, and nothing comes of a frame that is
not well-formed. -/
def Safe (own : Ip) (routes : List ArpRoute) (b : Buffer) : Prop :=
  ∃ o, receive own routes b = .ok o ∧ (∀ payload ∈ o.payloads, payload.1 + payload.2 ≤ b.size) ∧
    (¬ WellFormed b → o.routes = routes ∧ o.replies = [] ∧ o.handed = none)

/-- The packet is no request for the own address and no reply that changes a route. -/
structure Idle (own : Ip) (routes : List ArpRoute) (arp : Arp) : Prop where
  request : arp.op = 1 → arp.dip ≠ own
  reply : arp.op = 2 → ∀ route ∈ routes, route.ip = arp.sip → route.mac = arp.smac ∧ route.resolved = true

/-- An ARP packet may reach into the checksum, if nothing comes of it. -/
structure Handled (own : Ip) (routes : List ArpRoute) (b : Buffer) : Prop where
  size : 18 ≤ b.size
  arp : b.word 12 = Ether.arp →
    42 ≤ b.size ∧ (b.arpAt 14).IsIpv4 ∧ (46 ≤ b.size ∨ Idle own routes (b.arpAt 14))
  ipv4 : b.word 12 = Ether.ipv4 → IsIpv4Frame b

/-! ## ARP packets -/

variable {own : Ip} {routes : List ArpRoute} {b : Buffer}

theorem ArpRoute.update_eq_self {arp : Arp} {route : ArpRoute} :
    route.update arp = route ↔ (route.ip = arp.sip → route.mac = arp.smac ∧ route.resolved = true) := by
  unfold update
  cases route with
  | mk ip mac resolved =>
      by_cases hip : ip = arp.sip
      · rw [if_neg (not_not.mpr hip)]
        simp only [ArpRoute.mk.injEq, hip, true_and, forall_const]
        exact and_congr eq_comm eq_comm
      · rw [if_pos hip]
        exact iff_of_true rfl fun h => absurd h hip

theorem map_update_eq_self {arp : Arp} : routes.map (ArpRoute.update arp) = routes ↔
    ∀ route ∈ routes, route.ip = arp.sip → route.mac = arp.smac ∧ route.resolved = true := by
  have hid : routes.map (ArpRoute.update arp) = routes ↔
      routes.map (ArpRoute.update arp) = routes.map id := by rw [List.map_id]
  rw [hid, List.map_inj_left]
  simp only [id, ArpRoute.update_eq_self]

theorem of_pushArp {o : Outcome} (h : pushArp own routes b b.ether = .ok o) :
    42 ≤ b.size ∧ (b.arpAt 14).IsIpv4 := by
  obtain ⟨arp, harp, -⟩ := Except.bind_eq_ok_iff.mp h
  obtain ⟨hle, hfields, heq⟩ := Arp.of_ofEther harp
  rw [heq] at hfields
  exact ⟨hle, hfields⟩

/-- Where the packet is read, it leaves nothing exactly if it is idle. -/
theorem pushArp_of_le (own : Ip) (routes : List ArpRoute) (h : 42 ≤ b.size)
    (hfields : (b.arpAt 14).IsIpv4) :
    ∃ o, pushArp own routes b b.ether = .ok o ∧ o.payloads = [(14, b.ether.dataSize)] ∧
      o.handed = none ∧ (o.routes = routes ∧ o.replies = [] ↔ Idle own routes (b.arpAt 14)) := by
  have hread : Arp.ofEther b b.ether = .ok (b.arpAt 14) := Arp.ofEther_of_le h hfields
  simp only [pushArp, hread, Except.ok_bind]
  by_cases hrequest : (b.arpAt 14).op = 1
  · have hnreply : (b.arpAt 14).op ≠ 2 := by
      rw [hrequest]
      decide
    rw [if_pos hrequest]
    by_cases hown : (b.arpAt 14).dip = own
    · rw [if_pos hown]
      refine ⟨_, rfl, rfl, rfl, iff_of_false ?_ ?_⟩
      · rintro ⟨-, hreplies⟩
        cases hreplies
      · intro hidle
        exact hidle.request hrequest hown
    · rw [if_neg hown]
      exact ⟨_, rfl, rfl, rfl, iff_of_true ⟨rfl, rfl⟩
        ⟨fun _ => hown, fun hreply => absurd hreply hnreply⟩⟩
  · rw [if_neg hrequest]
    by_cases hreply : (b.arpAt 14).op = 2
    · rw [if_pos hreply]
      refine ⟨_, rfl, rfl, rfl, ?_⟩
      rw [and_iff_left rfl, map_update_eq_self]
      exact ⟨fun h => ⟨fun hop => absurd hop hrequest, fun _ => h⟩, fun hidle => hidle.reply hreply⟩
    · rw [if_neg hreply]
      exact ⟨_, rfl, rfl, rfl, iff_of_true ⟨rfl, rfl⟩
        ⟨fun hop => absurd hop hrequest, fun hop => absurd hop hreply⟩⟩

/-! ## Frames by their type -/

theorem isValid_ne_false (h : 0x05DC < b.word 12) : b.ether.isValid ≠ false := by
  change decide (0x05DC < b.word 12) ≠ false
  rw [decide_eq_true h]
  exact Bool.noConfusion

theorem receive_arp (h : 14 ≤ b.size) (htp : b.word 12 = Ether.arp) :
    receive own routes b = pushArp own routes b b.ether := by
  have hvalid : b.ether.isValid ≠ false := isValid_ne_false (htp ▸ by decide)
  have htp' : b.ether.tp = Ether.arp := htp
  simp only [receive, Ether.ofBuffer_of_le h, Except.ok_bind]
  rw [if_neg hvalid, if_pos htp']

theorem receive_ipv4 (h : 14 ≤ b.size) (htp : b.word 12 = Ether.ipv4) :
    receive own routes b = pushIpv4 routes b b.ether := by
  have hvalid : b.ether.isValid ≠ false := isValid_ne_false (htp ▸ by decide)
  have htp' : b.ether.tp = Ether.ipv4 := htp
  have harp : b.ether.tp ≠ Ether.arp := by
    rw [htp']
    decide
  simp only [receive, Ether.ofBuffer_of_le h, Except.ok_bind]
  rw [if_neg hvalid, if_neg harp, if_pos htp']

theorem receive_other (h : 14 ≤ b.size) (harp : b.word 12 ≠ Ether.arp)
    (hipv4 : b.word 12 ≠ Ether.ipv4) :
    receive own routes b =
      .ok { routes, replies := [], payloads := [(14, b.ether.dataSize)], handed := none } := by
  have harp' : b.ether.tp ≠ Ether.arp := harp
  have hipv4' : b.ether.tp ≠ Ether.ipv4 := hipv4
  simp only [receive, Ether.ofBuffer_of_le h, Except.ok_bind]
  rw [if_neg harp', if_neg hipv4', ite_self]
  rfl

/-- The payload of the frame is the first one, whatever becomes of it. -/
theorem payload_mem {o : Outcome} (h : receive own routes b = .ok o) :
    14 ≤ b.size ∧ (14, b.ether.dataSize) ∈ o.payloads := by
  obtain ⟨frame, hframe, -⟩ := Except.bind_eq_ok_iff.mp h
  have hle := Ether.le_of_ofBuffer hframe
  refine ⟨hle, ?_⟩
  by_cases harp : b.word 12 = Ether.arp
  · rw [receive_arp hle harp] at h
    obtain ⟨hsize, hfields⟩ := of_pushArp h
    obtain ⟨o', ho', hpayloads, -⟩ := pushArp_of_le own routes hsize hfields
    rw [ho'] at h
    cases h
    rw [hpayloads]
    exact List.mem_singleton_self _
  · by_cases hipv4 : b.word 12 = Ether.ipv4
    · rw [receive_ipv4 hle hipv4] at h
      obtain ⟨ipv4, -, h⟩ := Except.bind_eq_ok_iff.mp h
      cases h
      exact List.mem_cons_self
    · rw [receive_other hle harp hipv4] at h
      cases h
      exact List.mem_singleton_self _

/-- The size of the payload wraps for a frame that has no room for the checksum. -/
theorem payload_le_iff (h : 14 ≤ b.size) : 14 + b.ether.dataSize ≤ b.size ↔ 18 ≤ b.size := by
  have hlt : b.size < 2 ^ 64 := b.size_lt
  have hds : b.ether.dataSize = (b.size + 2 ^ 64 - 18) % 2 ^ 64 := rfl
  omega

theorem ipv4_payload_le (h : IsIpv4Frame b) :
    (b.ipv4At b.ether).data + (b.ipv4At b.ether).dataSize ≤ b.size := by
  obtain ⟨-, -, -, hheader, hlength⟩ := h
  have hlt : b.size < 2 ^ 64 := b.size_lt
  change 14 + (b.ihlAt 14).toNat * 4 +
    ((b.word 16).toNat + 2 ^ 64 - (b.ihlAt 14).toNat * 4) % 2 ^ 64 ≤ b.size
  omega

/-! ## The whole path -/

theorem Safe.handled (h : Safe own routes b) : Handled own routes b := by
  obtain ⟨o, ho, hpayloads, hdropped⟩ := h
  obtain ⟨hle, hmem⟩ := payload_mem ho
  have hpayload := hpayloads _ hmem
  refine ⟨(payload_le_iff hle).mp hpayload, fun htp => ?_, fun htp => ?_⟩
  · rw [receive_arp hle htp] at ho
    obtain ⟨hsize, hfields⟩ := of_pushArp ho
    obtain ⟨o', ho', -, -, hidle⟩ := pushArp_of_le own routes hsize hfields
    rw [ho'] at ho
    cases ho
    refine ⟨hsize, hfields, ?_⟩
    by_cases hwf : WellFormed b
    · exact .inl (hwf.arp htp).size
    · obtain ⟨hroutes, hreplies, -⟩ := hdropped hwf
      exact .inr (hidle.mp ⟨hroutes, hreplies⟩)
  · rw [receive_ipv4 hle htp] at ho
    obtain ⟨ipv4, -, ho⟩ := Except.bind_eq_ok_iff.mp ho
    cases ho
    have hwf : WellFormed b := by
      by_contra hwf
      cases (hdropped hwf).2.2
    exact hwf.ipv4 htp

theorem Handled.safe (h : Handled own routes b) : Safe own routes b := by
  obtain ⟨hsize, harp, hipv4⟩ := h
  have hle : 14 ≤ b.size := by omega
  have hpayload := (payload_le_iff hle).mpr hsize
  by_cases htp : b.word 12 = Ether.arp
  · obtain ⟨hsize', hfields, hcases⟩ := harp htp
    obtain ⟨o, ho, hpayloads, hhanded, hidle⟩ := pushArp_of_le own routes hsize' hfields
    refine ⟨o, (receive_arp hle htp).trans ho, fun payload hmem => ?_, fun hwf => ?_⟩
    · rw [hpayloads] at hmem
      cases List.mem_singleton.mp hmem
      exact hpayload
    · cases hcases with
      | inl h46 =>
          have hnipv4 : b.word 12 ≠ Ether.ipv4 := by
            rw [htp]
            decide
          exact absurd ⟨hsize, fun _ => ⟨h46, hfields⟩, fun h => absurd h hnipv4⟩ hwf
      | inr h =>
          obtain ⟨hroutes, hreplies⟩ := hidle.mpr h
          exact ⟨hroutes, hreplies, hhanded⟩
  · by_cases htp' : b.word 12 = Ether.ipv4
    · have hframe := hipv4 htp'
      have h20 : 14 + 20 ≤ b.size := le_trans (by decide) hframe.size
      have hread : Ipv4.ofEther b b.ether = .ok (b.ipv4At b.ether) := Ipv4.ofEther_of_le h20
      have hwf : WellFormed b := ⟨hsize, fun h => absurd h htp, hipv4⟩
      refine ⟨_, (receive_ipv4 hle htp').trans (by rw [pushIpv4, hread]; rfl), ?_, fun h => absurd hwf h⟩
      intro payload hmem
      cases hmem with
      | head => exact hpayload
      | tail _ hmem =>
          cases List.mem_singleton.mp hmem
          exact ipv4_payload_le hframe
    · refine ⟨_, receive_other hle htp htp', fun payload hmem => ?_, fun _ => ⟨rfl, rfl, rfl⟩⟩
      cases List.mem_singleton.mp hmem
      exact hpayload

/-- The path is safe exactly for complete frames, up to ARP packets that leave nothing. -/
theorem safe_iff : Safe own routes b ↔ Handled own routes b := ⟨Safe.handled, Handled.safe⟩

/-- A frame of 64 bytes with an IPv4 packet whose length is zero. -/
def shortIpv4 : Buffer where
  bytes := List.replicate 12 0 ++ [0x08, 0x00, 0x45] ++ List.replicate 49 0
  size_lt := by decide

theorem not_safe : ¬ ∀ own routes b, Safe own routes b := by
  intro h
  have hframe := (h (fun _ => 0) [] shortIpv4).handled.ipv4 (by decide)
  exact absurd hframe.header (by decide)

end Ilobilix.Net
