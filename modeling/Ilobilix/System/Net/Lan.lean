import Ilobilix.Foundation.Transition
import Ilobilix.System.Net.Build
import Ilobilix.System.Net.Receive
import Mathlib.Logic.Function.Basic

/-!
# Address resolution

The processor for ARP keeps a route for each address it was asked about. For a new address `mac_of`
adds a route that is not resolved, sends a request and asserts that the route is resolved when the
request is out: nothing waits for the reply. Requests for the own address are answered with what the
host says about itself, and a reply changes the route for the address of its sender.

Here every host of a network runs this code. A frame that was sent stays on the wire: it may be
received late, many times, by anyone or not at all. `answer_owned` says that no order of the steps
makes a host learn a wrong address, `answered_iff` when the assertion holds, and `can_answer` that a
request can always be answered.
-/

namespace Ilobilix.Net

/-- `addr::ip::v4::broadcast`. -/
def Ip.broadcast : Ip := fun _ => 0xFF

/-- `addr::mac::broadcast`. -/
def Mac.broadcast : Mac := fun _ => 0xFF

namespace Arp

def ofOpcode (op : UInt16) (smac : Mac) (sip : Ip) (dmac : Mac) (dip : Ip) : Arp where
  hwtype := 1
  protype := 0x0800
  hwsize := 6
  prosize := 4
  op := op
  smac := smac
  sip := sip
  dmac := dmac
  dip := dip

/-- `packet::query_for`. -/
def queryFor (smac : Mac) (sip dip : Ip) : Arp := ofOpcode 1 smac sip (fun _ => 0) dip

/-- `packet::reply_for`. -/
def replyFor (smac : Mac) (sip : Ip) (dmac : Mac) (dip : Ip) : Arp := ofOpcode 2 smac sip dmac dip

/-- The packet in a frame. -/
def inFrame (arp : Arp) (source dest : Mac) : Packet where
  ether := { source, dest, tp := Ether.arp, data := 0, dataSize := 0 }
  payload := .arp arp
  rest := []
  compiles := by simp
  size_lt := by
    have hhwsize := arp.hwsize.toNat_lt
    have hprosize := arp.prosize.toNat_lt
    change 14 + (8 + arp.hwsize.toNat * 2 + arp.prosize.toNat * 2) + 0 < 2 ^ 64
    omega

/-- `submit_query`. -/
def submitQuery (init : ℕ → UInt8) (mac : Mac) (ip dip : Ip) : Except Fault (List UInt8) :=
  buildPacket init ((queryFor mac ip dip).inFrame mac Mac.broadcast).parts

/-- `submit_reply`. -/
def submitReply (init : ℕ → UInt8) (mac : Mac) (ip : Ip) (dmac : Mac) (dip : Ip) :
    Except Fault (List UInt8) :=
  buildPacket init ((replyFor mac ip dmac dip).inFrame mac dmac).parts

/-- `mac_of` up to the request: what a known route says, or the routes with a new one. -/
def lookup (routes : List ArpRoute) (ip : Ip) : Except Fault (Mac ⊕ List ArpRoute) :=
  match routes.find? fun route => route.ip = ip with
  | some route => do
    bugOn (route.resolved = false)
    .ok (.inl route.mac)
  | none => .ok (.inr (routes ++ [{ ip, mac := fun _ => 0, resolved := false }]))

/-- `mac_of` after the request, with the route that was added. -/
def await (routes : List ArpRoute) : Except Fault Mac :=
  match routes.getLast? with
  | some route => do
    bugOn (route.resolved = false)
    .ok route.mac
  | none => .error .outside

end Arp

/-- A host, with the address that a call of `mac_of` has sent a request for. -/
structure Host where
  routes : List ArpRoute
  call : Option Ip

def Host.fresh : Host where
  routes := [{ ip := Ip.broadcast, mac := Mac.broadcast, resolved := true }]
  call := none

/-- The addresses of the hosts. -/
structure Lan (ι : Type*) where
  mac : ι → Mac
  ip : ι → Ip

namespace Lan

variable {ι : Type*}

structure State (ι : Type*) where
  host : ι → Host
  wire : List Buffer

inductive Event (ι : Type*)
  | ask (i : ι) (ip : Ip)
  | receive (i : ι) (b : Buffer)
  | answer (i : ι) (ip : Ip) (mac : Mac)

section

variable [DecidableEq ι] (lan : Lan ι)

/-- One step of a host. A failed assertion is no step. -/
inductive Step : State ι → Event ι → State ι → Prop
  | known {s : State ι} {i : ι} {ip : Ip} {mac : Mac} (hcall : (s.host i).call = none)
      (h : Arp.lookup (s.host i).routes ip = .ok (.inl mac)) : Step s (.answer i ip mac) s
  | ask {s : State ι} {i : ι} {ip : Ip} {routes : List ArpRoute} {init : ℕ → UInt8} {b : Buffer}
      (hcall : (s.host i).call = none) (h : Arp.lookup (s.host i).routes ip = .ok (.inr routes))
      (hb : Arp.submitQuery init (lan.mac i) (lan.ip i) ip = .ok b.bytes) :
      Step s (.ask i ip) ⟨Function.update s.host i ⟨routes, some ip⟩, b :: s.wire⟩
  | receive {s : State ι} {i : ι} {b : Buffer} {o : Outcome} {frames : List Buffer}
      (hb : b ∈ s.wire) (ho : Net.receive (lan.ip i) (s.host i).routes b = .ok o)
      (hframes : List.Forall₂ (fun reply frame => ∃ init : ℕ → UInt8,
        Arp.submitReply init (lan.mac i) (lan.ip i) reply.1 reply.2 = .ok frame.bytes)
        o.replies frames) :
      Step s (.receive i b)
        ⟨Function.update s.host i ⟨o.routes, (s.host i).call⟩, frames ++ s.wire⟩
  | answer {s : State ι} {i : ι} {ip : Ip} {mac : Mac} (hcall : (s.host i).call = some ip)
      (h : Arp.await (s.host i).routes = .ok mac) :
      Step s (.answer i ip mac) ⟨Function.update s.host i ⟨(s.host i).routes, none⟩, s.wire⟩

/-- The network, from the state in which nothing has been sent. -/
def system : TransitionSystem (State ι) (Event ι) where
  init s := s = ⟨fun _ => Host.fresh, []⟩
  step := lan.Step

end

/-! ## Frames on the wire -/

/-- A frame that an ARP packet is read from. -/
structure IsFrame (b : Buffer) (arp : Arp) : Prop where
  size : 14 ≤ b.size
  tp : b.word 12 = Ether.arp
  packet : Arp.ofEther b b.ether = .ok arp

theorem isFrame_of_build {op : UInt16} {smac source dest dmac : Mac} {sip dip : Ip}
    {init : ℕ → UInt8} {b : Buffer}
    (h : buildPacket init ((Arp.ofOpcode op smac sip dmac dip).inFrame source dest).parts =
      .ok b.bytes) : IsFrame b (.ofOpcode op smac sip dmac dip) := by
  have hsound : ((Arp.ofOpcode op smac sip dmac dip).inFrame source dest).Sound :=
    (Packet.sound_arp_iff rfl).mpr ⟨rfl, rfl, rfl, rfl⟩
  obtain ⟨b', hb', hcorrect⟩ := hsound init
  obtain rfl : b' = b := Buffer.ext (Except.ok.inj (hb'.symm.trans h))
  obtain ⟨ether, hether, ⟨-, -, htp⟩, hpacket⟩ := hcorrect.payload
  have hle := Ether.le_of_ofBuffer hether
  rw [Ether.ofBuffer_of_le hle] at hether
  cases hether
  exact ⟨hle, htp, hpacket⟩

/-- Every packet is built. -/
theorem exists_build (op : UInt16) (smac : Mac) (sip : Ip) (dmac : Mac) (dip : Ip) (source dest : Mac) :
    ∃ b : Buffer, buildPacket (fun _ => 0)
      ((Arp.ofOpcode op smac sip dmac dip).inFrame source dest).parts = .ok b.bytes := by
  have hsound : ((Arp.ofOpcode op smac sip dmac dip).inFrame source dest).Sound :=
    (Packet.sound_arp_iff rfl).mpr ⟨rfl, rfl, rfl, rfl⟩
  obtain ⟨b, hb, -⟩ := hsound fun _ => 0
  exact ⟨b, hb⟩

section

variable {own : Ip} {routes : List ArpRoute} {b : Buffer} {smac dmac : Mac} {sip dip : Ip}

theorem receive_query (h : IsFrame b (.queryFor smac sip dip)) : Net.receive own routes b =
    .ok { routes, replies := if dip = own then [(smac, sip)] else [],
          payloads := [(14, b.ether.dataSize)], handed := none } := by
  rw [receive_arp h.size h.tp, pushArp, h.packet, Except.ok_bind]
  change (if (1 : UInt16) = 1 then if dip = own then _ else _ else _) = _
  rw [if_pos rfl]
  split <;> rfl

theorem receive_reply (h : IsFrame b (.replyFor smac sip dmac dip)) : Net.receive own routes b =
    .ok { routes := routes.map (ArpRoute.update (.replyFor smac sip dmac dip)), replies := [],
          payloads := [(14, b.ether.dataSize)], handed := none } := by
  rw [receive_arp h.size h.tp, pushArp, h.packet, Except.ok_bind]
  change (if (2 : UInt16) = 1 then _ else if (2 : UInt16) = 2 then _ else _) = _
  rw [if_neg (by decide), if_pos rfl]
  rfl

end

/-! ## Routes -/

section

variable {arp : Arp} {route : ArpRoute} {routes : List ArpRoute} {ip : Ip} {mac : Mac}

theorem ip_update : (route.update arp).ip = route.ip := by
  unfold ArpRoute.update
  split
  next => rfl
  next hip => exact (not_not.mp hip).symm

theorem resolved_update (h : route.resolved = true) : (route.update arp).resolved = true := by
  unfold ArpRoute.update
  split
  · exact h
  · rfl

theorem resolved_update_iff :
    (route.update arp).resolved = true ↔ route.resolved = true ∨ arp.sip = route.ip := by
  unfold ArpRoute.update
  split
  next hip => exact (or_iff_left fun h => hip h.symm).symm
  next hip => exact iff_of_true rfl (.inr (not_not.mp hip).symm)

theorem map_ip_update : (routes.map (ArpRoute.update arp)).map ArpRoute.ip = routes.map ArpRoute.ip := by
  rw [List.map_map]
  exact List.map_congr_left fun route _ => ip_update

theorem lookup_eq_inl (h : Arp.lookup routes ip = .ok (.inl mac)) :
    ∃ route ∈ routes, route.ip = ip ∧ route.mac = mac ∧ route.resolved = true := by
  unfold Arp.lookup at h
  split at h
  next route hfind =>
    obtain ⟨_, hbug, h⟩ := Except.bind_eq_ok_iff.mp h
    cases h
    have hip := List.find?_some hfind
    exact ⟨route, List.mem_of_find?_eq_some hfind, of_decide_eq_true hip, rfl,
      Bool.of_not_eq_false (bugOn_eq_ok hbug)⟩
  next => cases h

theorem lookup_eq_inr {routes' : List ArpRoute} (h : Arp.lookup routes ip = .ok (.inr routes')) :
    ip ∉ routes.map ArpRoute.ip ∧ routes' = routes ++ [⟨ip, fun _ => 0, false⟩] := by
  unfold Arp.lookup at h
  split at h
  next route hfind =>
    obtain ⟨_, -, h⟩ := Except.bind_eq_ok_iff.mp h
    cases h
  next hfind =>
    cases h
    refine ⟨fun hmem => ?_, rfl⟩
    obtain ⟨route, hroute, hip⟩ := List.mem_map.mp hmem
    exact List.find?_eq_none.mp hfind route hroute (decide_eq_true hip)

/-- If all routes are resolved, the assertion about a known one holds. -/
theorem lookup_of_resolved (h : ∀ route ∈ routes, route.resolved = true) (ip : Ip) :
    ∃ found, Arp.lookup routes ip = .ok found := by
  unfold Arp.lookup
  split
  next route hfind =>
    have hresolved := h route (List.mem_of_find?_eq_some hfind)
    exact ⟨.inl route.mac, by rw [bugOn_of_not (by simp [hresolved]), Except.ok_bind]⟩
  next => exact ⟨_, rfl⟩

theorem await_eq_ok_iff {last : ArpRoute} :
    Arp.await (routes ++ [last]) = .ok mac ↔ last.resolved = true ∧ last.mac = mac := by
  rw [Arp.await, List.getLast?_concat]
  change (bugOn (last.resolved = false) >>= fun _ => Except.ok last.mac) = _ ↔ _
  by_cases h : last.resolved = true
  · rw [bugOn_of_not (by simp [h]), Except.ok_bind, Except.ok.injEq]
    exact (and_iff_right h).symm
  · rw [bugOn, if_pos (Bool.of_not_eq_true h)]
    exact iff_of_false (by intro hbug; cases hbug) fun hand => h hand.1

end

/-! ## The invariant -/

/-- The address of a host, or the one for all. -/
def Owned (lan : Lan ι) (ip : Ip) (mac : Mac) : Prop :=
  (∃ j, lan.ip j = ip ∧ lan.mac j = mac) ∨ ip = Ip.broadcast ∧ mac = Mac.broadcast

/-- A host only speaks about itself. -/
def Truthful (lan : Lan ι) (b : Buffer) : Prop :=
  ∃ j, (∃ dip, IsFrame b (.queryFor (lan.mac j) (lan.ip j) dip)) ∨
    ∃ dmac dip, IsFrame b (.replyFor (lan.mac j) (lan.ip j) dmac dip)

/-- There is one route for an address, and only the last one may wait for a reply. -/
structure Table (lan : Lan ι) (h : Host) : Prop where
  nodup : (h.routes.map ArpRoute.ip).Nodup
  broadcast : Ip.broadcast ∈ h.routes.map ArpRoute.ip
  owned : ∀ route ∈ h.routes, route.resolved = true → lan.Owned route.ip route.mac
  idle : h.call = none → ∀ route ∈ h.routes, route.resolved = true
  calling : ∀ ip, h.call = some ip → ∃ known last, h.routes = known ++ [last] ∧ last.ip = ip ∧
    ∀ route ∈ known, route.resolved = true

structure Invariant (lan : Lan ι) (s : State ι) : Prop where
  wire : ∀ b ∈ s.wire, lan.Truthful b
  table : ∀ i, lan.Table (s.host i)
  asked : ∀ i ip, (s.host i).call = some ip →
    ∃ b ∈ s.wire, IsFrame b (.queryFor (lan.mac i) (lan.ip i) ip)

variable {lan : Lan ι} {h : Host}

theorem Table.fresh : lan.Table Host.fresh where
  nodup := List.nodup_singleton _
  broadcast := List.mem_singleton_self _
  owned route hroute _ := by
    obtain rfl := List.mem_singleton.mp hroute
    exact .inr ⟨rfl, rfl⟩
  idle _ route hroute := by
    obtain rfl := List.mem_singleton.mp hroute
    rfl
  calling _ := by simp [Host.fresh]

theorem Table.ask {ip : Ip} (ht : lan.Table h) (hcall : h.call = none)
    (hip : ip ∉ h.routes.map ArpRoute.ip) :
    lan.Table ⟨h.routes ++ [⟨ip, fun _ => 0, false⟩], some ip⟩ where
  nodup := by
    rw [List.map_append, List.map_singleton, ← List.concat_eq_append]
    exact ht.nodup.concat hip
  broadcast := by
    rw [List.map_append]
    exact List.mem_append_left _ ht.broadcast
  owned route hroute hresolved := by
    rcases List.mem_append.mp hroute with hroute | hroute
    · exact ht.owned route hroute hresolved
    · obtain rfl := List.mem_singleton.mp hroute
      cases hresolved
  idle := by simp
  calling ip' hip' := ⟨h.routes, _, rfl, Option.some.inj hip', ht.idle hcall⟩

/-- A reply of a host changes the route for its address. -/
theorem Table.reply (ht : lan.Table h) (j : ι) (dmac : Mac) (dip : Ip) :
    lan.Table ⟨h.routes.map (ArpRoute.update (.replyFor (lan.mac j) (lan.ip j) dmac dip)), h.call⟩ where
  nodup := map_ip_update.symm ▸ ht.nodup
  broadcast := map_ip_update.symm ▸ ht.broadcast
  owned route hroute hresolved := by
    obtain ⟨route', hroute', rfl⟩ := List.mem_map.mp hroute
    by_cases hip : route'.ip = lan.ip j
    · have hnew : route'.update (.replyFor (lan.mac j) (lan.ip j) dmac dip) =
          ⟨lan.ip j, lan.mac j, true⟩ := if_neg (not_not.mpr hip)
      rw [hnew]
      exact .inl ⟨j, rfl, rfl⟩
    · have hsame : route'.update (.replyFor (lan.mac j) (lan.ip j) dmac dip) = route' := if_pos hip
      rw [hsame] at hresolved ⊢
      exact ht.owned route' hroute' hresolved
  idle hcall route hroute := by
    obtain ⟨route', hroute', rfl⟩ := List.mem_map.mp hroute
    exact resolved_update (ht.idle hcall route' hroute')
  calling ip hcall := by
    obtain ⟨known, last, hroutes, hip, hknown⟩ := ht.calling ip hcall
    refine ⟨known.map (ArpRoute.update (.replyFor (lan.mac j) (lan.ip j) dmac dip)),
      last.update (.replyFor (lan.mac j) (lan.ip j) dmac dip), ?_, ip_update.trans hip,
      fun route hroute => ?_⟩
    · rw [hroutes, List.map_append, List.map_singleton]
    · obtain ⟨route', hroute', rfl⟩ := List.mem_map.mp hroute
      exact resolved_update (hknown route' hroute')

theorem Table.answer {ip : Ip} {mac : Mac} (ht : lan.Table h) (hcall : h.call = some ip)
    (hawait : Arp.await h.routes = .ok mac) : lan.Table ⟨h.routes, none⟩ where
  nodup := ht.nodup
  broadcast := ht.broadcast
  owned := ht.owned
  idle _ route hroute := by
    obtain ⟨known, last, hroutes, -, hknown⟩ := ht.calling ip hcall
    rw [hroutes] at hawait
    rw [hroutes] at hroute
    rcases List.mem_append.mp hroute with hroute | hroute
    · exact hknown route hroute
    · obtain rfl := List.mem_singleton.mp hroute
      exact (await_eq_ok_iff.mp hawait).1
  calling _ := by simp

theorem truthful_of_replies {i : ι} {replies : List (Mac × Ip)} {frames : List Buffer}
    (hframes : List.Forall₂ (fun reply frame => ∃ init : ℕ → UInt8,
      Arp.submitReply init (lan.mac i) (lan.ip i) reply.1 reply.2 = .ok frame.bytes) replies frames) :
    ∀ b ∈ frames, lan.Truthful b := by
  induction hframes with
  | nil => exact fun b hb => absurd hb List.not_mem_nil
  | cons hframe _ ih =>
      obtain ⟨init, hbuild⟩ := hframe
      exact List.forall_mem_cons.mpr ⟨⟨i, .inr ⟨_, _, isFrame_of_build hbuild⟩⟩, ih⟩

theorem Table.receive {i : ι} {b : Buffer} {o : Outcome} (ht : lan.Table h) (hb : lan.Truthful b)
    (ho : Net.receive (lan.ip i) h.routes b = .ok o) : lan.Table ⟨o.routes, h.call⟩ := by
  obtain ⟨j, ⟨dip, hframe⟩ | ⟨dmac, dip, hframe⟩⟩ := hb
  · rw [receive_query hframe] at ho
    cases ho
    exact ht
  · rw [receive_reply hframe] at ho
    cases ho
    exact ht.reply j dmac dip

section

variable [DecidableEq ι] {s s' : State ι} {i : ι}

/-- Host `i` takes a step and sends some frames. -/
theorem Invariant.update {frames : List Buffer} (hs : lan.Invariant s)
    (hframes : ∀ b ∈ frames, lan.Truthful b) (htable : lan.Table h)
    (hcall : ∀ ip, h.call = some ip → (s.host i).call = some ip ∨
      ∃ b ∈ frames, IsFrame b (.queryFor (lan.mac i) (lan.ip i) ip)) :
    lan.Invariant ⟨Function.update s.host i h, frames ++ s.wire⟩ where
  wire b hb := (List.mem_append.mp hb).elim (hframes b) (hs.wire b)
  table k := by
    change lan.Table (Function.update s.host i h k)
    by_cases hk : k = i
    · rw [hk, Function.update_self]
      exact htable
    · rw [Function.update_of_ne hk]
      exact hs.table k
  asked k ip hk := by
    change (Function.update s.host i h k).call = some ip at hk
    have hold : (s.host k).call = some ip →
        ∃ b ∈ frames ++ s.wire, IsFrame b (.queryFor (lan.mac k) (lan.ip k) ip) := fun hcall => by
      obtain ⟨b, hb, hframe⟩ := hs.asked k ip hcall
      exact ⟨b, List.mem_append_right _ hb, hframe⟩
    by_cases hki : k = i
    · subst hki
      rw [Function.update_self] at hk
      rcases hcall ip hk with hcall | ⟨b, hb, hframe⟩
      · exact hold hcall
      · exact ⟨b, List.mem_append_left _ hb, hframe⟩
    · rw [Function.update_of_ne hki] at hk
      exact hold hk

theorem Invariant.step {e : Event ι} (hs : lan.Invariant s) (hstep : lan.Step s e s') :
    lan.Invariant s' := by
  cases hstep with
  | known => exact hs
  | @ask i ip routes init b hcall hlookup hb =>
      obtain ⟨hip, rfl⟩ := lookup_eq_inr hlookup
      have hframe := isFrame_of_build hb
      have hframes : ∀ b' ∈ [b], lan.Truthful b' :=
        List.forall_mem_singleton.mpr ⟨i, .inl ⟨ip, hframe⟩⟩
      refine hs.update hframes ((hs.table i).ask hcall hip) fun ip' hip' => .inr ?_
      exact ⟨b, List.mem_singleton_self b, Option.some.inj hip' ▸ hframe⟩
  | @receive i b o frames hb ho hframes =>
      exact hs.update (truthful_of_replies hframes) ((hs.table i).receive (hs.wire b hb) ho)
        fun _ hcall => .inl hcall
  | @answer i ip mac hcall hawait =>
      have hnone : ∀ b ∈ ([] : List Buffer), lan.Truthful b := List.forall_mem_nil _
      exact hs.update hnone ((hs.table i).answer hcall hawait) (by simp)

theorem invariant_of_reachable (h : lan.system.Reachable s) : lan.Invariant s := by
  refine h.invariant (fun s hs => ?_) fun s e s' _ hs hstep => hs.step hstep
  cases hs
  exact ⟨List.forall_mem_nil _, fun _ => Table.fresh, by simp [Host.fresh]⟩

/-! ## Answers -/

theorem exists_ask {ip : Ip} {routes : List ArpRoute} (hcall : (s.host i).call = none)
    (h : Arp.lookup (s.host i).routes ip = .ok (.inr routes)) :
    ∃ s', lan.Step s (.ask i ip) s' ∧ (s'.host i).call = some ip := by
  obtain ⟨b, hbuild⟩ :=
    exists_build 1 (lan.mac i) (lan.ip i) (fun _ => 0) ip (lan.mac i) Mac.broadcast
  refine ⟨_, .ask hcall h hbuild, ?_⟩
  change (Function.update s.host i _ i).call = _
  rw [Function.update_self]

theorem exists_answer {known : List ArpRoute} {last : ArpRoute} {ip : Ip}
    (hhost : s.host i = ⟨known ++ [last], some ip⟩) (h : last.resolved = true) :
    ∃ s', lan.Step s (.answer i ip last.mac) s' := by
  refine ⟨_, .answer (by rw [hhost]) ?_⟩
  rw [hhost]
  exact await_eq_ok_iff.mpr ⟨h, rfl⟩

/-- The host that was asked for receives the request and is received in turn. -/
theorem exists_reply {j : ι} (hs : lan.system.Reachable s) (hcall : (s.host i).call = some (lan.ip j)) :
    ∃ b s₁ b' s₂ known, lan.Step s (.receive j b) s₁ ∧ lan.Step s₁ (.receive i b') s₂ ∧
      s₂.host i = ⟨known ++ [⟨lan.ip j, lan.mac j, true⟩], some (lan.ip j)⟩ := by
  have hinv := invariant_of_reachable hs
  obtain ⟨b, hb, hframe⟩ := hinv.asked i _ hcall
  obtain ⟨b', hbuild⟩ := exists_build 2 (lan.mac j) (lan.ip j) (lan.mac i) (lan.ip i) (lan.mac j) (lan.mac i)
  have hframe' : IsFrame b' (.replyFor (lan.mac j) (lan.ip j) (lan.mac i) (lan.ip i)) :=
    isFrame_of_build hbuild
  have hanswer : lan.Step s (.receive j b) ⟨Function.update s.host j (s.host j), [b'] ++ s.wire⟩ :=
    .receive hb (receive_query hframe) (by rw [if_pos rfl]; exact .cons ⟨_, hbuild⟩ .nil)
  rw [Function.update_eq_self] at hanswer
  obtain ⟨known, last, hroutes, hip, -⟩ := (hinv.table i).calling _ hcall
  have hlast : last.update (.replyFor (lan.mac j) (lan.ip j) (lan.mac i) (lan.ip i)) =
      ⟨lan.ip j, lan.mac j, true⟩ := if_neg (not_not.mpr hip)
  set table := (s.host i).routes.map (ArpRoute.update
    (.replyFor (lan.mac j) (lan.ip j) (lan.mac i) (lan.ip i))) with htable
  have hreply : ∃ s₂, lan.Step ⟨s.host, [b'] ++ s.wire⟩ (.receive i b') s₂ ∧
      s₂.host = Function.update s.host i ⟨table, (s.host i).call⟩ :=
    ⟨_, .receive List.mem_cons_self (receive_reply hframe') .nil, rfl⟩
  obtain ⟨s₂, hreply, hs₂⟩ := hreply
  refine ⟨b, _, b', s₂, known.map (ArpRoute.update
    (.replyFor (lan.mac j) (lan.ip j) (lan.mac i) (lan.ip i))), hanswer, hreply, ?_⟩
  rw [hs₂, Function.update_self, hcall, htable, hroutes, List.map_append, List.map_singleton, hlast]

/-- Two hosts, 10.0.0.0 and 10.0.0.1. -/
def pair : Lan (Fin 2) where
  mac i := fun _ => UInt8.ofNat i
  ip i := ![10, 0, 0, UInt8.ofNat i]

/-- The first one has asked for the other one. -/
theorem exists_pair : ∃ s₀ s, pair.system.Reachable s₀ ∧ pair.Step s₀ (.ask 0 (pair.ip 1)) s ∧
    (s.host 0).call = some (pair.ip 1) := by
  obtain ⟨s, hstep, hcall⟩ : ∃ s, pair.Step ⟨fun _ => Host.fresh, []⟩ (.ask 0 (pair.ip 1)) s ∧
      (s.host 0).call = some (pair.ip 1) := exists_ask rfl rfl
  exact ⟨_, s, .init rfl, hstep, hcall⟩

/-- What `mac_of` returns is the address of the host that was asked for, or that of all. -/
theorem answer_owned {ip : Ip} {mac : Mac} (h : lan.system.Reachable s)
    (hstep : lan.Step s (.answer i ip mac) s') : lan.Owned ip mac := by
  have hs := invariant_of_reachable h
  cases hstep with
  | known hcall hlookup =>
      obtain ⟨route, hroute, rfl, rfl, hresolved⟩ := lookup_eq_inl hlookup
      exact (hs.table i).owned route hroute hresolved
  | answer hcall hawait =>
      obtain ⟨known, last, hroutes, rfl, -⟩ := (hs.table i).calling ip hcall
      rw [hroutes] at hawait
      obtain ⟨hresolved, rfl⟩ := await_eq_ok_iff.mp hawait
      exact (hs.table i).owned last (hroutes ▸ List.mem_append_right _ (List.mem_singleton_self _)) hresolved

theorem answer_owned_pair : ∃ s s', pair.system.Reachable s ∧
    pair.Step s (.answer 0 (pair.ip 1) (pair.mac 1)) s' ∧ pair.Owned (pair.ip 1) (pair.mac 1) := by
  obtain ⟨s₀, s, hs₀, hask, hcall⟩ := exists_pair
  obtain ⟨b, s₁, b', s₂, known, h₁, h₂, hhost⟩ := exists_reply (.step hs₀ hask) hcall
  have hs₂ : pair.system.Reachable s₂ := .step (.step (.step hs₀ hask) h₁) h₂
  obtain ⟨s₃, h₃⟩ : ∃ s₃, pair.Step s₂ (.answer 0 (pair.ip 1) (pair.mac 1)) s₃ :=
    exists_answer hhost rfl
  exact ⟨s₂, s₃, hs₂, h₃, answer_owned hs₂ h₃⟩

/-- A reply of the host with this address. -/
def IsReply (b : Buffer) (ip : Ip) : Prop := ∃ arp, IsFrame b arp ∧ arp.op = 2 ∧ arp.sip = ip

omit [DecidableEq ι] in
theorem isReply_iff {b : Buffer} {arp : Arp} {ip : Ip} (h : IsFrame b arp) :
    IsReply b ip ↔ arp.op = 2 ∧ arp.sip = ip := by
  constructor
  · rintro ⟨arp', h', hop, hsip⟩
    obtain rfl : arp = arp' := Except.ok.inj (h.packet.symm.trans h'.packet)
    exact ⟨hop, hsip⟩
  · intro hreply
    exact ⟨arp, h, hreply⟩

/-- The route that a call waits for changes with a reply about it, and with nothing else. -/
theorem wait_step {e : Event ι} {known : List ArpRoute} {last : ArpRoute} {ip : Ip}
    (hs : lan.Invariant s) (hhost : s.host i = ⟨known ++ [last], some ip⟩) (hip : last.ip = ip)
    (hstep : lan.Step s e s') (hne : ∀ ip' mac, e ≠ .answer i ip' mac) :
    ∃ known' last', s'.host i = ⟨known' ++ [last'], some ip⟩ ∧ last'.ip = ip ∧
      (last'.resolved = true ↔ last.resolved = true ∨ ∃ b, e = .receive i b ∧ IsReply b ip) := by
  have hother : ∀ k : ι, k ≠ i → ∀ h wire, (State.mk (Function.update s.host k h) wire).host i =
      ⟨known ++ [last], some ip⟩ := fun k hk h _ => (Function.update_of_ne hk.symm h s.host).trans hhost
  cases hstep with
  | known => exact ⟨known, last, hhost, hip, (or_iff_left (by simp)).symm⟩
  | @ask k ip' routes init b hcall =>
      have hk : k ≠ i := by
        rintro rfl
        rw [hhost] at hcall
        cases hcall
      exact ⟨known, last, hother k hk _ _, hip, (or_iff_left (by simp)).symm⟩
  | @receive k b o frames hb ho =>
      by_cases hk : k = i
      · subst hk
        have hnew : (Function.update s.host k ⟨o.routes, (s.host k).call⟩) k = ⟨o.routes, some ip⟩ := by
          rw [Function.update_self, hhost]
        have hevent : (∃ b', Event.receive k b = .receive k b' ∧ IsReply b' ip) ↔ IsReply b ip :=
          ⟨fun ⟨b', heq, h⟩ => (Event.receive.inj heq).2 ▸ h, fun h => ⟨b, rfl, h⟩⟩
        rw [hevent]
        obtain ⟨j, ⟨dip, hframe⟩ | ⟨dmac, dip, hframe⟩⟩ := hs.wire b hb
        · rw [receive_query hframe, hhost] at ho
          cases ho
          have hnot : ¬ IsReply b ip := by
            rw [isReply_iff hframe]
            exact fun h => absurd (show (1 : UInt16) = 2 from h.1) (by decide)
          exact ⟨known, last, hnew, hip, (or_iff_left hnot).symm⟩
        · rw [receive_reply hframe, hhost] at ho
          cases ho
          refine ⟨_, _, hnew.trans (congrArg (Host.mk · (some ip)) List.map_append),
            ip_update.trans hip, ?_⟩
          rw [resolved_update_iff, isReply_iff hframe, hip]
          exact or_congr_right (and_iff_right rfl).symm
      · have hne' : ¬ ∃ b', Event.receive k b = .receive i b' ∧ IsReply b' ip := by
          rintro ⟨b', heq, -⟩
          exact hk (Event.receive.inj heq).1
        exact ⟨known, last, hother k hk _ _, hip, (or_iff_left hne').symm⟩
  | @answer k ip' mac =>
      have hk : k ≠ i := by
        rintro rfl
        exact hne ip' mac rfl
      exact ⟨known, last, hother k hk _ _, hip, (or_iff_left (by simp)).symm⟩

/-- A call for a new address returns exactly if a reply about it has come in since the request. -/
theorem answered_iff {s₁ s₂ : State ι} {ip : Ip} {tr : List (Event ι)} (hs : lan.system.Reachable s)
    (hask : lan.Step s (.ask i ip) s₁) (hrun : (lan.system.startAt s₁).Run tr s₂)
    (hne : ∀ ip' mac, Event.answer i ip' mac ∉ tr) :
    (∃ mac s₃, lan.Step s₂ (.answer i ip mac) s₃) ↔ ∃ b, Event.receive i b ∈ tr ∧ IsReply b ip := by
  have hs₁ : lan.system.Reachable s₁ := .step hs hask
  have hwait : ∃ known last, s₂.host i = ⟨known ++ [last], some ip⟩ ∧ last.ip = ip ∧
      (last.resolved = true ↔ ∃ b, Event.receive i b ∈ tr ∧ IsReply b ip) := by
    induction hrun with
    | init h =>
        cases h
        cases hask with
        | ask hcall hlookup =>
            obtain ⟨-, rfl⟩ := lookup_eq_inr hlookup
            exact ⟨_, _, Function.update_self .., rfl, iff_of_false (by simp) (by simp)⟩
    | @step tr s₂ s₃ e hrun hstep ih =>
        obtain ⟨known, last, hhost, hip, hresolved⟩ :=
          ih fun ip' mac hmem => hne ip' mac (List.mem_append_left _ hmem)
        obtain ⟨known', last', hhost', hip', hresolved'⟩ :=
          wait_step (invariant_of_reachable (hs₁.of_startAt hrun.reachable)) hhost hip hstep
            fun ip' mac heq => hne ip' mac (heq ▸ List.mem_append_right _ (List.mem_singleton_self _))
        refine ⟨known', last', hhost', hip', ?_⟩
        rw [hresolved', hresolved]
        simp only [List.mem_append, List.mem_singleton, or_and_right, exists_or, eq_comm]
  obtain ⟨known, last, hhost, hip, hresolved⟩ := hwait
  rw [← hresolved]
  constructor
  · rintro ⟨mac, s₃, hstep⟩
    cases hstep with
    | known hcall =>
        rw [hhost] at hcall
        cases hcall
    | answer hcall hawait =>
        rw [hhost] at hawait
        exact (await_eq_ok_iff.mp hawait).1
  · intro hlast
    exact ⟨last.mac, exists_answer hhost hlast⟩

theorem answered_iff_pair : ∃ s, (s.host 0).call = some (pair.ip 1) ∧
    ((∃ mac s', pair.Step s (.answer 0 (pair.ip 1) mac) s') ↔
      ∃ b, Event.receive 0 b ∈ ([] : List (Event (Fin 2))) ∧ IsReply b (pair.ip 1)) := by
  obtain ⟨s₀, s, hs₀, hask, hcall⟩ := exists_pair
  exact ⟨s, hcall, answered_iff hs₀ hask (.init rfl) fun _ _ => List.not_mem_nil⟩

/-- If the address belongs to a host, its reply can always come in, and the call returns it. -/
theorem can_answer {j : ι} (hs : lan.system.Reachable s) (hcall : (s.host i).call = some (lan.ip j)) :
    ∃ b s₁ b' s₂ s₃, lan.Step s (.receive j b) s₁ ∧ lan.Step s₁ (.receive i b') s₂ ∧
      lan.Step s₂ (.answer i (lan.ip j) (lan.mac j)) s₃ := by
  obtain ⟨b, s₁, b', s₂, known, hanswer, hreply, hhost⟩ := exists_reply hs hcall
  obtain ⟨s₃, hs₃⟩ : ∃ s₃, lan.Step s₂ (.answer i (lan.ip j) (lan.mac j)) s₃ := exists_answer hhost rfl
  exact ⟨b, s₁, b', s₂, s₃, hanswer, hreply, hs₃⟩

theorem can_answer_pair : ∃ s b s₁ b' s₂ s₃, pair.Step s (.receive 1 b) s₁ ∧
    pair.Step s₁ (.receive 0 b') s₂ ∧ pair.Step s₂ (.answer 0 (pair.ip 1) (pair.mac 1)) s₃ := by
  obtain ⟨s₀, s, hs₀, hask, hcall⟩ := exists_pair
  exact ⟨s, can_answer (.step hs₀ hask) hcall⟩

end

end Lan

end Ilobilix.Net
