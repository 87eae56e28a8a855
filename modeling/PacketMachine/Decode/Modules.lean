import PacketMachine.Decode.NameService

/-!
# The decoders of the modules

Model of the `decode` of the built-in modules (`modules/*.cc`), all but TCP. A module reads the header
at the cursor, says what values to retain (`Op`) and names the next module. The offsets and sizes are
those of the packed header structures.

* `withHeader` is the test that every decoder starts with: `Module::NONE` when the header does not fit.
* `IPv6` is no successor of another module; its decoder is here because it is one of the modules.

Results: each decoder reads only bytes of the packet and leaves a cursor in it, and the ranges it gives
lie in the packet (`Step.Fits`), apart from those of `loose` parameters.
-/

namespace PacketMachine.Decode

open PacketMachine.Lib

/-- What a decoder leaves: the cursor, the calls on the property and the next module. -/
structure Step where
  pd : Payload
  ops : List Op := []
  next : Option Mod := none

/-- The start of a decoder: its header is retained. -/
def withHeader (pd : Payload) (size : Nat) (k : Nat → Payload → Except Fault Step) :
    Except Fault Step :=
  match pd.retain size with
  | none => .ok { pd }
  | some (hdr, pd) => k hdr pd

/-- The bytes of a `uint16_t` of the (little-endian) host. -/
def hostU16 (n : Nat) : List UInt8 := [UInt8.ofNat n, UInt8.ofNat (n / 256)]

/-! ## Link layer -/

/-- The module behind an Ethernet header. -/
def ethernetNext (type : Nat) : Option Mod :=
  if type = 0x0806 then some .arp else if type = 0x0800 then some .ipv4
  else if type = 0x8100 then some .dot1q else if type = 0x8864 then some .pppoe else none

/-- `Ethernet::decode`. -/
def ethernetDecode (m : Mem) (pd : Payload) : Except Fault Step :=
  withHeader pd 14 fun hdr pd => do
    let type ← m.u16 (hdr + 12)
    return {
      pd
      ops := [.set .ethernetType (.pkt (hdr + 12)) 2, .set .ethernetSrc (.pkt (hdr + 6)) 6,
        .set .ethernetDst (.pkt hdr) 6]
      next := ethernetNext type }

/-- The module behind a VLAN tag. -/
def dot1qNext (type : Nat) : Option Mod :=
  if type = 0x0806 then some .arp else if type = 0x0800 then some .ipv4
  else if type = 0x8864 then some .pppoe else none

/-- `Dot1Q::decode`. -/
def dot1qDecode (m : Mem) (pd : Payload) : Except Fault Step :=
  withHeader pd 4 fun hdr pd => do
    let info ← m.u16 hdr
    let type ← m.u16 (hdr + 2)
    return {
      pd
      ops := [.set .dot1qType (.pkt (hdr + 2)) 2,
        .cpy .dot1qVlanId (hostU16 (info &&& 0x7ff)) .little]
      next := dot1qNext type }

/-- `PPPoE::decode`: `version_` is the low half of the first byte. -/
def pppoeDecode (m : Mem) (pd : Payload) : Except Fault Step :=
  withHeader pd 6 fun hdr pd => do
    let b ← m.u8 hdr
    let ops := [.cpy .pppoeVersion [b &&& 0x0f], .cpy .pppoeType [b >>> 4],
      .set .pppoeCode (.pkt (hdr + 1)) 1, .set .pppoeSessionId (.pkt (hdr + 2)) 2,
      .set .pppoePayloadLength (.pkt (hdr + 4)) 2]
    match pd.retain 2 with
    | none => return { pd, ops }
    | some (ppp, pd) =>
      let proto ← m.u16 ppp
      return { pd, ops, next := if proto = 0x21 then some .ipv4 else none }

/-- The addresses that `ARP::decode` retains one after the other, until one does not fit. -/
def arpAddrs (pd : Payload) : List (Nat × (Nat → Op)) → Step
  | [] => { pd }
  | (len, op) :: rest =>
    match pd.retain len with
    | none => { pd }
    | some (ptr, pd) =>
      let s := arpAddrs pd rest
      { s with ops := op ptr :: s.ops }

/-- `ARP::decode`. -/
def arpDecode (m : Mem) (pd : Payload) : Except Fault Step :=
  withHeader pd 8 fun hdr pd => do
    let hwLen := (← m.u8 (hdr + 4)).toNat
    let prLen := (← m.u8 (hdr + 5)).toNat
    let op ← m.u16 (hdr + 6)
    let head := [.set .arpHwType (.pkt hdr) 2, .set .arpPrType (.pkt (hdr + 2)) 2,
      .set .arpHwSize (.pkt (hdr + 4)) 1, .set .arpPrSize (.pkt (hdr + 5)) 1,
      .set .arpOp (.pkt (hdr + 6)) 2]
    let events := if op = 1 then [.event .arpRequest] else if op = 2 then [.event .arpReply] else []
    let s := arpAddrs pd [
      (hwLen, fun ptr => .set .arpHwSrc (.pkt ptr) hwLen),
      (prLen, fun ptr => .set .arpPrSrc (.pkt ptr) prLen),
      (hwLen, fun ptr => .set .arpHwDst (.pkt ptr) hwLen),
      (prLen, fun ptr => .set .arpPrDst (.pkt ptr) prLen)]
    return { s with ops := head ++ events ++ s.ops }

/-! ## Network layer -/

/-- The options of `IPv4::decode`: the value is set also when `retain` gives `nullptr`. -/
def ipv4Options (pd : Payload) (hdrLen : Nat) : Step :=
  if hdrLen > 20 then
    match pd.retain (hdrLen - 20) with
    | none => { pd, ops := [.set .ipv4Opt .null (hdrLen - 20)] }
    | some (opt, pd) => { pd, ops := [.set .ipv4Opt (.pkt opt) (hdrLen - 20)] }
  else { pd }

/-- The module behind an IPv4 header. -/
def ipv4Next (proto : UInt8) : Option Mod :=
  if proto = 1 then some .icmp else if proto = 6 then some .tcp
  else if proto = 17 then some .udp else none

/-- `hdrlen`, the length of the header in bytes. -/
def ipv4HdrLen (b : UInt8) : Nat := ((b &&& 0x0f) <<< 2).toNat

/-- `IPv4::decode`. -/
def ipv4Decode (m : Mem) (pd : Payload) : Except Fault Step :=
  withHeader pd 20 fun hdr pd => do
    let hdrLen := ipv4HdrLen (← m.u8 hdr)
    let totalLen ← m.u16 (hdr + 2)
    if totalLen < hdrLen then return { pd }
    else
      let src ← m.bytes (hdr + 12) 4
      let dst ← m.bytes (hdr + 16) 4
      let proto ← m.u8 (hdr + 9)
      let opts := ipv4Options pd hdrLen
      let pd := opts.pd.shrink (totalLen - hdrLen)
      return {
        pd
        ops := [.set .ipv4Hdr (.pkt hdr) 20, .srcAddr src, .dstAddr dst,
            .set .ipv4Src (.pkt (hdr + 12)) 4, .set .ipv4Dst (.pkt (hdr + 16)) 4]
          ++ opts.ops ++ [.set .ipv4Data (.pkt pd.ptr) pd.length]
        next := ipv4Next proto }

/-- `IPv6::decode`. -/
def ipv6Decode (m : Mem) (pd : Payload) : Except Fault Step :=
  withHeader pd 40 fun hdr pd => do
    let src ← m.bytes (hdr + 8) 16
    let dst ← m.bytes (hdr + 24) 16
    let nextHdr ← m.u8 (hdr + 6)
    return {
      pd
      ops := [.srcAddr src, .dstAddr dst]
      next := if nextHdr = 6 then some .tcp else if nextHdr = 17 then some .udp else none }

/-- `ICMP::decode`. -/
def icmpDecode (m : Mem) (pd : Payload) : Except Fault Step :=
  withHeader pd 4 fun hdr pd => do
    let type ← m.u8 hdr
    return {
      pd
      ops := [.set .icmpType (.pkt hdr) 1, .code (hdr + 1) 1 type.toNat,
        .set .icmpChksum (.pkt (hdr + 2)) 2] }

/-! ## Above -/

/-- The module behind a UDP header. -/
def udpNext (sport dport : Nat) : Option Mod :=
  if sport = 53 ∨ dport = 53 then some .dns
  else if sport = 5353 ∨ dport = 5353 then some .mdns
  else if sport = 67 ∨ sport = 68 ∨ dport = 67 ∨ dport = 68 then some .dhcp else none

/-- `UDP::decode`. -/
def udpDecode (m : Mem) (pd : Payload) : Except Fault Step :=
  withHeader pd 8 fun hdr pd => do
    let sport ← m.u16 hdr
    let dport ← m.u16 (hdr + 2)
    return {
      pd
      ops := [.srcPort (UInt16.ofNat sport), .dstPort (UInt16.ofNat dport), .set .udpHdr (.pkt hdr) 8,
        .set .udpSrcPort (.pkt hdr) 2, .set .udpDstPort (.pkt (hdr + 2)) 2,
        .set .udpLength (.pkt (hdr + 4)) 2, .set .udpChksum (.pkt (hdr + 6)) 2]
      next := udpNext sport dport }

/-- `NameService::decode`. -/
def NameService.decode (ns : NameService) (m : Mem) (pd : Payload) : Except Fault Step := do
  let (pd, ops, _) ← ns.nsDecode m pd
  return { pd, ops }

/-- The loop over the options of `DHCP::decode`. -/
def dhcpOptionsLoop (m : Mem) : Nat → Payload → Except Fault Step
  | 0, _ => .error .fuel
  | fuel + 1, pd =>
    match pd.retain 2 with
    | none => .ok { pd }
    | some (optHdr, pd) => do
      if (← m.u8 optHdr) = 0xFF then return { pd }
      else
        let len := (← m.u8 (optHdr + 1)).toNat
        match pd.retain len with
        | none => return { pd }
        | some (optData, pd) =>
          let s ← dhcpOptionsLoop m fuel pd
          return { s with ops := .option optHdr optData len :: s.ops }

/-- The calls of `DHCP::decode` for the header. -/
def dhcpHeader (hdr hwAddrLen : Nat) (hostName bootFile : UInt8) : List Op :=
  ([.set .dhcpMsgType (.pkt hdr) 1, .set .dhcpHwType (.pkt (hdr + 1)) 1,
    .set .dhcpHwAddrLen (.pkt (hdr + 2)) 1, .set .dhcpHops (.pkt (hdr + 3)) 1,
    .set .dhcpTransId (.pkt (hdr + 4)) 4, .set .dhcpFlags (.pkt (hdr + 10)) 2,
    .set .dhcpClientAddr (.pkt (hdr + 12)) 4, .set .dhcpYourClientAddr (.pkt (hdr + 16)) 4,
    .set .dhcpNextServerAddr (.pkt (hdr + 20)) 4, .set .dhcpRelayAgentAddr (.pkt (hdr + 24)) 4,
    .set .dhcpMagicCookie (.pkt (hdr + 236)) 4, .set .dhcpSeconds (.pkt (hdr + 8)) 2 .little,
    -- the length is that of the header field, not of `client_hw_addr_`
    .set .dhcpClientHwAddr (.pkt (hdr + 28)) hwAddrLen] : List Op)
  ++ (if hostName ≠ 0 then [.set .dhcpServerHostName (.pkt (hdr + 44)) 64] else [])
  ++ (if bootFile ≠ 0 then [.set .dhcpBootFileName (.pkt (hdr + 108)) 128] else [])
  ++ [.array .dhcpOptions]

/-- `DHCP::decode`. -/
def dhcpDecode (m : Mem) (pd : Payload) : Except Fault Step :=
  withHeader pd 240 fun hdr pd => do
    let hwAddrLen := (← m.u8 (hdr + 2)).toNat
    let hostName ← m.u8 (hdr + 44)
    let bootFile ← m.u8 (hdr + 108)
    let s ← dhcpOptionsLoop m (pd.length + 1) pd
    return { s with ops := dhcpHeader hdr hwAddrLen hostName bootFile ++ s.ops }

/-! ## Ranges of the decoders -/

/-- The parameters that the results about ranges leave out. -/
def loose : List Param := [.ipv4Opt, .tcpData, .dhcpClientHwAddr]

/-- The size of the header that a major parameter stands for. -/
def Param.extent : Param → Nat
  | ipv4Hdr => 20
  | ipv6Hdr => 40
  | tcpHdr => 20
  | udpHdr => 8
  | _ => 0

/-- No value is set to its own buffer, and a major parameter is set to a whole header. -/
def Op.Whole : Op → Prop
  | set d ptr len _ _ =>
    ptr ≠ .own ∧ (d.kind = .storage → (∃ off, ptr = .pkt off) ∧ d.extent ≤ len)
  | cpy d _ _ _ => d.kind ≠ .storage
  | _ => True

/-- The calls of a decoder on a packet of `hi` bytes. -/
def Op.Fits (hi : Nat) (op : Op) : Prop := op.Within loose 0 hi ∧ op.Whole

/-- The same, of calls that fill none of the two parameters that need a closer look. -/
def Op.Calm (hi : Nat) (op : Op) : Prop :=
  op.Fits hi ∧ op.filled .tcpData = none ∧ op.filled .dhcpClientHwAddr = none

/-- What a decoder leaves on a packet. -/
structure Step.Fits (pd : Payload) (s : Step) : Prop where
  wf : s.pd.WF
  stop : s.pd.stop = pd.stop
  ops : ∀ op ∈ s.ops, op.Fits pd.stop

/-- What a decoder leaves that makes calm calls only. -/
structure Step.Calm (pd : Payload) (s : Step) : Prop where
  wf : s.pd.WF
  stop : s.pd.stop = pd.stop
  ops : ∀ op ∈ s.ops, op.Calm pd.stop

/-- The two addresses have the same length. -/
def Property.Paired (q : Property) : Prop := q.ends.srcAddr.length = q.ends.dstAddr.length

section Fits

variable {m : Mem} {pd : Payload} {hi : Nat}

theorem Op.fits_set {d : Param} {off len : Nat} {e : Endian} {hd : d.kind.plain = true} :
    Op.Fits hi (.set d (.pkt off) len e hd) ↔
      (d ∈ loose ∨ off + len ≤ hi) ∧ (d.kind = .storage → d.extent ≤ len) := by
  simp [Op.Fits, Op.Within, Ptr.Within, Op.Whole]

theorem Op.calm_set {d : Param} {off len : Nat} {e : Endian} {hd : d.kind.plain = true} :
    Op.Calm hi (.set d (.pkt off) len e hd) ↔ (d ≠ .tcpData ∧ d ≠ .dhcpClientHwAddr) ∧
      (d ∈ loose ∨ off + len ≤ hi) ∧ (d.kind = .storage → d.extent ≤ len) := by
  simp [Op.Calm, Op.fits_set, Op.filled, and_comm]

theorem Op.calm_cpy {d : Param} {bytes : List UInt8} {e : Endian} {hd : d.kind.plain = true} :
    Op.Calm hi (.cpy d bytes e hd) ↔
      (d ≠ .tcpData ∧ d ≠ .dhcpClientHwAddr) ∧ d.kind ≠ .storage := by
  simp [Op.Calm, Op.Fits, Op.Within, Op.Whole, Op.filled, and_comm]

@[simp] theorem Op.calm_event (ev : Event) : Op.Calm hi (.event ev) :=
  ⟨⟨trivial, trivial⟩, rfl, rfl⟩

@[simp] theorem Op.calm_srcAddr (bytes : List UInt8) : Op.Calm hi (.srcAddr bytes) :=
  ⟨⟨trivial, trivial⟩, rfl, rfl⟩

@[simp] theorem Op.calm_dstAddr (bytes : List UInt8) : Op.Calm hi (.dstAddr bytes) :=
  ⟨⟨trivial, trivial⟩, rfl, rfl⟩

@[simp] theorem Op.calm_srcPort (port : UInt16) : Op.Calm hi (.srcPort port) :=
  ⟨⟨trivial, trivial⟩, rfl, rfl⟩

@[simp] theorem Op.calm_dstPort (port : UInt16) : Op.Calm hi (.dstPort port) :=
  ⟨⟨trivial, trivial⟩, rfl, rfl⟩

theorem Step.Calm.fits {s : Step} (h : s.Calm pd) : s.Fits pd :=
  ⟨h.wf, h.stop, fun op hop => (h.ops op hop).1⟩

theorem Step.calm_nil (h : pd.WF) : Step.Calm pd { pd } := ⟨h, rfl, by simp⟩

theorem withHeader_returns (h : pd.WF) {size : Nat} {k : Nat → Payload → Except Fault Step}
    {Q : Step → Prop} (hnone : pd.length < size → Q { pd })
    (hsome : size ≤ pd.length → Returns (k pd.ptr (pd.skip size)) Q) :
    Returns (withHeader pd size k) Q := by
  unfold withHeader
  rw [Payload.retain_eq h]
  by_cases hs : size ≤ pd.length
  · rw [if_pos hs]
    exact hsome hs
  · rw [if_neg hs]
    exact returns_ok.mpr (hnone (Nat.lt_of_not_le hs))

/-- `Ethernet::decode`, with the next module. -/
theorem ethernetDecode_returns (h : pd.WF) (hm : m.Has 0 pd.stop) :
    Returns (ethernetDecode m pd) fun s => s.Calm pd ∧
      if 14 ≤ pd.length then s.pd = pd.skip 14 ∧ s.next = ethernetNext (m.word (pd.ptr + 12))
      else s.next = none := by
  have hw := h.window
  refine withHeader_returns h ?_ fun hs => ?_
  · intro hs
    exact ⟨Step.calm_nil h, by simp [Nat.not_le.mpr hs]⟩
  · refine .bind_ok (Mem.u16_eq hm (by omega) (by omega)) (returns_pure.mpr ⟨⟨h.skip hs, rfl, ?_⟩, ?_⟩)
    · simp [Op.calm_set, Param.kind]
      omega
    · rw [if_pos hs]
      exact ⟨rfl, rfl⟩

/-- `Dot1Q::decode`, with the next module. -/
theorem dot1qDecode_returns (h : pd.WF) (hm : m.Has 0 pd.stop) :
    Returns (dot1qDecode m pd) fun s => s.Calm pd ∧
      if 4 ≤ pd.length then s.pd = pd.skip 4 ∧ s.next = dot1qNext (m.word (pd.ptr + 2))
      else s.next = none := by
  have hw := h.window
  refine withHeader_returns h ?_ fun hs => ?_
  · intro hs
    exact ⟨Step.calm_nil h, by simp [Nat.not_le.mpr hs]⟩
  · refine .bind_ok (Mem.u16_eq hm (by omega) (by omega)) ?_
    refine .bind_ok (Mem.u16_eq hm (by omega) (by omega)) (returns_pure.mpr ⟨⟨h.skip hs, rfl, ?_⟩, ?_⟩)
    · simp [Op.calm_set, Op.calm_cpy, Param.kind]
      omega
    · rw [if_pos hs]
      exact ⟨rfl, rfl⟩

/-- `PPPoE::decode`, with the next module. -/
theorem pppoeDecode_returns (h : pd.WF) (hm : m.Has 0 pd.stop) :
    Returns (pppoeDecode m pd) fun s => s.Calm pd ∧
      if 8 ≤ pd.length then s.pd = pd.skip 8 ∧
        s.next = if m.word (pd.ptr + 6) = 0x21 then some .ipv4 else none
      else s.next = none := by
  have hw := h.window
  refine withHeader_returns h ?_ fun hs => ?_
  · intro hs
    exact ⟨Step.calm_nil h, by simp [show ¬ 8 ≤ pd.length by omega]⟩
  · refine .bind_ok (Mem.u8_eq hm (by omega) (by omega)) ?_
    have hops : ∀ b : UInt8, ∀ op ∈ [Op.cpy .pppoeVersion [b &&& 0x0f], .cpy .pppoeType [b >>> 4],
        .set .pppoeCode (.pkt (pd.ptr + 1)) 1, .set .pppoeSessionId (.pkt (pd.ptr + 2)) 2,
        .set .pppoePayloadLength (.pkt (pd.ptr + 4)) 2], op.Calm pd.stop := by
      simp [Op.calm_set, Op.calm_cpy, Param.kind]
      omega
    dsimp only
    rw [Payload.retain_eq (h.skip hs)]
    by_cases h2 : 2 ≤ (pd.skip 6).length
    · have hlen : 8 ≤ pd.length := by
        simp only [Payload.skip] at h2
        omega
      rw [if_pos h2]
      refine .bind_ok (Mem.u16_eq hm (Nat.zero_le _) ?_) (returns_pure.mpr ?_)
      · simp only [Payload.skip]
        omega
      · refine ⟨⟨(h.skip hs).skip h2, rfl, hops _⟩, ?_⟩
        rw [if_pos hlen]
        refine ⟨?_, rfl⟩
        simp only [Payload.skip, Payload.mk.injEq, true_and]
        omega
    · have hlen : ¬ 8 ≤ pd.length := by
        simp only [Payload.skip] at h2
        omega
      rw [if_neg h2]
      refine returns_pure.mpr ⟨⟨h.skip hs, rfl, hops _⟩, ?_⟩
      rw [if_neg hlen]

/-- Each of the addresses is calm when it fits. -/
theorem arpAddrs_calm (h : pd.WF) (addrs : List (Nat × (Nat → Op)))
    (hops : ∀ a ∈ addrs, ∀ ptr, ptr + a.1 ≤ pd.stop → (a.2 ptr).Calm pd.stop) :
    (arpAddrs pd addrs).Calm pd ∧ (arpAddrs pd addrs).next = none := by
  induction addrs generalizing pd with
  | nil => exact ⟨Step.calm_nil h, rfl⟩
  | cons a rest ih =>
    obtain ⟨len, op⟩ := a
    have hw := h.window
    unfold arpAddrs
    rw [Payload.retain_eq h]
    by_cases hs : len ≤ pd.length
    · rw [if_pos hs]
      obtain ⟨hrest, hnext⟩ := ih (h.skip hs) fun a ha => hops a (List.mem_cons_of_mem _ ha)
      refine ⟨⟨hrest.wf, hrest.stop, ?_⟩, hnext⟩
      simp only [List.forall_mem_cons]
      refine ⟨hops _ List.mem_cons_self _ ?_, hrest.ops⟩
      simp only
      omega
    · rw [if_neg hs]
      exact ⟨Step.calm_nil h, rfl⟩

/-- `ARP::decode`. -/
theorem arpDecode_returns (h : pd.WF) (hm : m.Has 0 pd.stop) :
    Returns (arpDecode m pd) fun s => s.Calm pd ∧ s.next = none := by
  have hw := h.window
  refine withHeader_returns h (fun _ => ⟨Step.calm_nil h, rfl⟩) fun hs => ?_
  refine .bind_ok (Mem.u8_eq hm (by omega) (by omega)) ?_
  refine .bind_ok (Mem.u8_eq hm (by omega) (by omega)) ?_
  refine .bind_ok (Mem.u16_eq hm (by omega) (by omega)) (returns_pure.mpr ?_)
  have haddrs : ∀ hwLen prLen : Nat, ∀ a ∈ [
      (hwLen, fun ptr => Op.set .arpHwSrc (.pkt ptr) hwLen),
      (prLen, fun ptr => Op.set .arpPrSrc (.pkt ptr) prLen),
      (hwLen, fun ptr => Op.set .arpHwDst (.pkt ptr) hwLen),
      (prLen, fun ptr => Op.set .arpPrDst (.pkt ptr) prLen)],
      ∀ ptr, ptr + a.1 ≤ (pd.skip 8).stop → (a.2 ptr).Calm (pd.skip 8).stop := by
    intro hwLen prLen a ha ptr hp
    simp only [List.mem_cons, List.not_mem_nil, or_false] at ha
    obtain rfl | rfl | rfl | rfl := ha <;> simpa [Op.calm_set, Param.kind, loose] using hp
  obtain ⟨hcalm, hnext⟩ := arpAddrs_calm (h.skip hs) _ (haddrs _ _)
  refine ⟨⟨hcalm.wf, hcalm.stop, ?_⟩, hnext⟩
  intro op hop
  simp only [List.mem_append] at hop
  obtain (hop | hop) | hop := hop
  · revert op
    simp [Op.calm_set, Param.kind]
    omega
  · split at hop
    · obtain rfl := List.mem_singleton.mp hop
      exact Op.calm_event _
    · split at hop
      · obtain rfl := List.mem_singleton.mp hop
        exact Op.calm_event _
      · cases hop
  · exact hcalm.ops op hop

theorem ipv4Options_calm (h : pd.WF) (hdrLen : Nat) : (ipv4Options pd hdrLen).Calm pd := by
  have hw := h.window
  unfold ipv4Options
  split
  · rw [Payload.retain_eq h]
    by_cases hs : hdrLen - 20 ≤ pd.length
    · rw [if_pos hs]
      refine ⟨h.skip hs, rfl, ?_⟩
      simp [Op.calm_set, loose, Param.kind]
    · rw [if_neg hs]
      refine ⟨h, rfl, ?_⟩
      simp [Op.Calm, Op.Fits, Op.Within, Op.Whole, Op.filled, loose, Param.kind]
  · exact Step.calm_nil h

/-- The cursor behind the options. -/
theorem ipv4Options_pd (h : pd.WF) (hdrLen : Nat) :
    (ipv4Options pd hdrLen).pd =
      if 20 < hdrLen ∧ hdrLen - 20 ≤ pd.length then pd.skip (hdrLen - 20) else pd := by
  unfold ipv4Options
  rw [Payload.retain_eq h]
  by_cases h1 : 20 < hdrLen
  · by_cases h2 : hdrLen - 20 ≤ pd.length
    · simp [h1, h2]
    · simp [h1, h2]
  · simp [h1]

theorem ipv4Options_ends (q : Property) (hdrLen : Nat) :
    (q.exec (ipv4Options pd hdrLen).ops).ends = q.ends := by
  unfold ipv4Options
  split
  · split <;> rfl
  · rfl

theorem ends_set (q : Property) (d : Param) (ptr : Ptr) (len : Nat) (e : Endian)
    (hd : d.kind.plain = true) : (q.exec [.set d ptr len e hd]).ends = q.ends := rfl

/-- `IPv4::decode`, with the next module. Both addresses are set, to the same number of bytes. -/
theorem ipv4Decode_returns (h : pd.WF) (hm : m.Has 0 pd.stop) :
    Returns (ipv4Decode m pd) fun s => s.Calm pd ∧
      (s.next ≠ none → ∀ q : Property, (q.exec s.ops).Paired) ∧
      if 20 ≤ pd.length ∧ ipv4HdrLen (m.byte pd.ptr) ≤ m.word (pd.ptr + 2) then
        s.pd = (ipv4Options (pd.skip 20) (ipv4HdrLen (m.byte pd.ptr))).pd.shrink
          (m.word (pd.ptr + 2) - ipv4HdrLen (m.byte pd.ptr)) ∧
        s.next = ipv4Next (m.byte (pd.ptr + 9))
      else s.next = none := by
  have hw := h.window
  refine withHeader_returns h ?_ fun hs => ?_
  · intro hs
    exact ⟨Step.calm_nil h, by simp, by simp [Nat.not_le.mpr hs]⟩
  · refine .bind_ok (Mem.u8_eq hm (by omega) (by omega)) ?_
    refine .bind_ok (Mem.u16_eq hm (by omega) (by omega)) ?_
    split
    · rename_i hlt
      exact returns_pure.mpr ⟨⟨h.skip hs, rfl, by simp⟩, by simp, by simp [Nat.not_le.mpr hlt]⟩
    · rename_i hge
      refine (Mem.bytes_returns (hm.sub (by omega) (by omega))).bind fun src hsrc => ?_
      refine (Mem.bytes_returns (hm.sub (by omega) (by omega))).bind fun dst hdst => ?_
      refine .bind_ok (Mem.u8_eq hm (by omega) (by omega)) (returns_pure.mpr ?_)
      have hopts := ipv4Options_calm (h.skip hs) (ipv4HdrLen (m.byte pd.ptr))
      have hsh := hopts.wf.shrink (m.word (pd.ptr + 2) - ipv4HdrLen (m.byte pd.ptr))
      have hstop : ((ipv4Options (pd.skip 20) (ipv4HdrLen (m.byte pd.ptr))).pd.shrink
          (m.word (pd.ptr + 2) - ipv4HdrLen (m.byte pd.ptr))).stop = pd.stop := by
        unfold Payload.shrink
        split <;> exact hopts.stop
      refine ⟨⟨hsh, hstop, ?_⟩, fun _ q => ?_, ?_⟩
      · intro op hop
        simp only [List.mem_append] at hop
        obtain (hop | hop) | hop := hop
        · revert op
          simp [Op.calm_set, Param.kind, Param.extent]
          omega
        · exact hopts.ops op hop
        · obtain rfl := List.mem_singleton.mp hop
          have hwin := hsh.window
          rw [hstop] at hwin
          simpa [Op.calm_set, Param.kind, loose] using hwin
      · -- the options and the payload leave the addresses alone
        rw [Property.exec_append, Property.exec_append, Property.Paired, ends_set, ipv4Options_ends]
        exact hsrc.trans hdst.symm
      · rw [if_pos ⟨hs, by omega⟩]
        exact ⟨rfl, rfl⟩

/-- `ICMP::decode`. -/
theorem icmpDecode_returns (h : pd.WF) (hm : m.Has 0 pd.stop) :
    Returns (icmpDecode m pd) fun s => s.Calm pd ∧ s.next = none := by
  have hw := h.window
  refine withHeader_returns h (fun _ => ⟨Step.calm_nil h, rfl⟩) fun hs => ?_
  refine .bind_ok (Mem.u8_eq hm (by omega) (by omega)) (returns_pure.mpr ⟨⟨h.skip hs, rfl, ?_⟩, rfl⟩)
  have hcode : ∀ type : Nat, Op.Calm pd.stop (.code (pd.ptr + 1) 1 type) := by
    intro type
    refine ⟨⟨?_, trivial⟩, rfl, rfl⟩
    simp only [Op.Within, Ptr.Within]
    omega
  simp [Op.calm_set, Param.kind, hcode]
  omega

/-- `UDP::decode`, with the next module. -/
theorem udpDecode_returns (h : pd.WF) (hm : m.Has 0 pd.stop) :
    Returns (udpDecode m pd) fun s => s.Calm pd ∧
      if 8 ≤ pd.length then s.pd = pd.skip 8 ∧
        s.next = udpNext (m.word pd.ptr) (m.word (pd.ptr + 2))
      else s.next = none := by
  have hw := h.window
  refine withHeader_returns h ?_ fun hs => ?_
  · intro hs
    exact ⟨Step.calm_nil h, by simp [Nat.not_le.mpr hs]⟩
  · refine .bind_ok (Mem.u16_eq hm (by omega) (by omega)) ?_
    refine .bind_ok (Mem.u16_eq hm (by omega) (by omega)) (returns_pure.mpr ⟨⟨h.skip hs, rfl, ?_⟩, ?_⟩)
    · simp [Op.calm_set, Param.kind, Param.extent]
      omega
    · rw [if_pos hs]
      exact ⟨rfl, rfl⟩

/-- `NameService::decode`, when the parameters for the header are ordinary ones. -/
theorem NameService.decode_returns {ns : NameService} (h : pd.WF) (hm : m.Has 0 pd.stop)
    (h1 : ns.txId ∉ loose ∧ ns.txId.kind ≠ .storage)
    (h2 : ns.isQuery ∉ loose ∧ ns.isQuery.kind ≠ .storage) :
    Returns (ns.decode m pd) fun s => s.Calm pd ∧ s.next = none := by
  have hw := h.window
  unfold NameService.decode
  refine (nsDecode_returns h (hm.sub (Nat.zero_le _) (by omega))).bind ?_
  rintro ⟨pd', ops, ok⟩ ⟨⟨hwf, -, hstop⟩, hops⟩
  refine returns_pure.mpr ⟨⟨hwf, hstop, fun op hop => ?_⟩, rfl⟩
  obtain ⟨hserves, hin⟩ := hops op hop
  have hwithin := hin.mono (List.nil_subset loose) (Nat.zero_le _) hw
  simp only [loose, List.mem_cons, List.not_mem_nil, or_false, not_or] at h1 h2
  cases op with
  | set d ptr len e _ =>
    obtain rfl : d = ns.txId := hserves
    have hown : ptr ≠ .own := by
      rintro rfl
      obtain hin | hin := hin <;> cases hin
    exact ⟨⟨hwithin, hown, fun hk => absurd hk h1.2⟩, by simp [Op.filled, h1]⟩
  | cpy d bytes e _ =>
    obtain rfl : d = ns.isQuery := hserves
    exact ⟨⟨trivial, h2.2⟩, by simp [Op.filled, h2]⟩
  | _ => exact ⟨⟨hwithin, trivial⟩, rfl, rfl⟩

theorem dhcpOptionsLoop_returns (hm : m.Has 0 pd.stop) :
    ∀ (fuel : Nat) {pd' : Payload}, pd'.WF → pd'.stop = pd.stop → pd'.length < fuel →
      Returns (dhcpOptionsLoop m fuel pd') fun s => s.Calm pd' ∧ s.next = none
  | 0, _, _, _, hf => absurd hf (Nat.not_lt_zero _)
  | fuel + 1, pd', h, hst, hf => by
    have hw := h.window
    unfold dhcpOptionsLoop
    rw [Payload.retain_eq h]
    by_cases h2 : 2 ≤ pd'.length
    · rw [if_pos h2]
      refine .bind_ok (Mem.u8_eq hm (by omega) (by omega)) ?_
      split
      · exact returns_pure.mpr ⟨⟨h.skip h2, rfl, by simp⟩, rfl⟩
      · refine .bind_ok (Mem.u8_eq hm (by omega) (by omega)) ?_
        have h' := h.skip h2
        dsimp only
        rw [Payload.retain_eq h']
        by_cases hl : (m.byte (pd'.ptr + 1)).toNat ≤ (pd'.skip 2).length
        · rw [if_pos hl]
          have hlt : ((pd'.skip 2).skip (m.byte (pd'.ptr + 1)).toNat).length < fuel := by
            simp only [Payload.skip]
            omega
          refine (dhcpOptionsLoop_returns hm fuel (h'.skip hl) hst hlt).bind ?_
          rintro s ⟨hs, hn⟩
          refine returns_pure.mpr ⟨⟨hs.wf, hs.stop, ?_⟩, hn⟩
          simp only [List.forall_mem_cons]
          refine ⟨⟨⟨?_, trivial⟩, rfl, rfl⟩, hs.ops⟩
          simp only [Payload.skip] at hl ⊢
          simp only [Op.Within, Ptr.Within]
          omega
        · rw [if_neg hl]
          exact returns_pure.mpr ⟨⟨h', rfl, by simp⟩, rfl⟩
    · rw [if_neg h2]
      exact returns_ok.mpr ⟨Step.calm_nil h, rfl⟩

theorem fills_eq_nil {d : Param} {ops : List Op} (h : ∀ op ∈ ops, op.filled d = none) :
    fills d ops = [] :=
  List.filterMap_eq_nil_iff.mpr h

theorem dhcpHeader_fits {hdr : Nat} (hwAddrLen : Nat) (hostName bootFile : UInt8)
    (h : hdr + 240 ≤ hi) :
    (∀ op ∈ dhcpHeader hdr hwAddrLen hostName bootFile, op.Fits hi) ∧
      fills .tcpData (dhcpHeader hdr hwAddrLen hostName bootFile) = [] ∧
      fills .dhcpClientHwAddr (dhcpHeader hdr hwAddrLen hostName bootFile)
        = [(.pkt (hdr + 28), hwAddrLen)] := by
  have harr : Op.Fits hi (.array .dhcpOptions) := ⟨trivial, trivial⟩
  unfold dhcpHeader
  refine ⟨?_, ?_, ?_⟩
  · split <;> split <;> simp [Op.fits_set, Param.kind, loose, harr] <;> omega
  · split <;> split <;> rfl
  · split <;> split <;> rfl

/-- `DHCP::decode`: of the hardware address only the start is known to lie in the packet. -/
theorem dhcpDecode_returns (h : pd.WF) (hm : m.Has 0 pd.stop) :
    Returns (dhcpDecode m pd) fun s => s.Fits pd ∧ s.next = none ∧ fills .tcpData s.ops = [] ∧
      fills .dhcpClientHwAddr s.ops =
        if 240 ≤ pd.length then [(.pkt (pd.ptr + 28), (m.byte (pd.ptr + 2)).toNat)] else [] := by
  have hw := h.window
  refine withHeader_returns h ?_ fun hs => ?_
  · intro hs
    exact ⟨(Step.calm_nil h).fits, rfl, rfl, by simp [Nat.not_le.mpr hs, fills]⟩
  · refine .bind_ok (Mem.u8_eq hm (by omega) (by omega)) ?_
    refine .bind_ok (Mem.u8_eq hm (by omega) (by omega)) ?_
    refine .bind_ok (Mem.u8_eq hm (by omega) (by omega)) ?_
    refine (dhcpOptionsLoop_returns hm _ (h.skip hs) rfl (Nat.lt_succ_self _)).bind ?_
    rintro s ⟨hcalm, hnext⟩
    obtain ⟨hfits, htcp, hhw⟩ := dhcpHeader_fits (m.byte (pd.ptr + 2)).toNat (m.byte (pd.ptr + 44))
      (m.byte (pd.ptr + 108)) (show pd.ptr + 240 ≤ pd.stop by omega)
    refine returns_pure.mpr ⟨⟨hcalm.wf, hcalm.stop, ?_⟩, hnext, ?_, ?_⟩
    · intro op hop
      exact (List.mem_append.mp hop).elim (hfits op) fun hop => (hcalm.ops op hop).1
    · rw [fills_append, htcp, fills_eq_nil fun op hop => (hcalm.ops op hop).2.1]
      rfl
    · rw [fills_append, hhw, fills_eq_nil fun op hop => (hcalm.ops op hop).2.2, if_pos hs]
      rfl

end Fits

end PacketMachine.Decode
