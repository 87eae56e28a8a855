import PacketMachine.Decode.Loop

/-!
# The modules that a packet visits, and what they retain

A module retains values for its own parameters only, and pushes events of its own only; the event with
its name is pushed by the loop. Since no module is called twice, what a module retains once is retained
once for the packet. The exceptions are the values that DNS, mDNS and DHCP retain for every record or
option (`perRecord`).

Results:
* `decodeMod_owns`: what a module retains, without session management of TCP.
* `recordLoop_sections`: a DNS message has the array of each section retained at most once.
* `events_exec`, `count_exec`: events and numbers of values after a list of calls.
* **`visits_once`**: at most six modules are called, none of them twice, and what is not repeated by a
  record or an option is retained at most once.
-/

namespace PacketMachine.Decode

open PacketMachine.Lib

variable {τ : Type}

/-! ## What a module retains -/

/-- The module that defines a parameter. -/
def Param.mod : Param → Mod
  | arpHwDst | arpHwSize | arpHwSrc | arpHwType | arpOp | arpPrDst | arpPrSize | arpPrSrc
  | arpPrType => .arp
  | dhcpOptData | dhcpOptLength | dhcpOptType | dhcpOption | dhcpBootFileName | dhcpClientAddr
  | dhcpClientHwAddr | dhcpFlags | dhcpHops | dhcpHwAddrLen | dhcpHwType | dhcpMagicCookie
  | dhcpMsgType | dhcpNextServerAddr | dhcpOptions | dhcpRelayAgentAddr | dhcpSeconds
  | dhcpServerHostName | dhcpTransId | dhcpYourClientAddr => .dhcp
  | dnsAdditional | dnsAnswer | dnsAuthority | dnsData | dnsIsQuery | dnsName | dnsQuestion
  | dnsRecords | dnsTxId | dnsType => .dns
  | dot1qType | dot1qVlanId => .dot1q
  | ethernetDst | ethernetSrc | ethernetType => .ethernet
  | icmpChksum | icmpCode | icmpType => .icmp
  | ipv4Data | ipv4Dst | ipv4Hdr | ipv4Opt | ipv4Src => .ipv4
  | ipv6Data | ipv6Hdr | ipv6Opt => .ipv6
  | mdnsAdditional | mdnsAnswer | mdnsAuthority | mdnsData | mdnsIsQuery | mdnsName | mdnsQuestion
  | mdnsRecords | mdnsTxId | mdnsType => .mdns
  | pppoeCode | pppoePayloadLength | pppoeSessionId | pppoeType | pppoeVersion => .pppoe
  | tcpData | tcpDstPort | tcpHdr | tcpId | tcpOptdata | tcpRtt3wh | tcpSegment | tcpSrcPort
  | tcpTxClient | tcpTxServer => .tcp
  | udpChksum | udpDstPort | udpHdr | udpLength | udpSrcPort => .udp

/-- The parameters that are retained once for each record or option. -/
def perRecord : List Param :=
  [.dnsRecords, .dnsName, .dnsData, .dnsType, .mdnsRecords, .mdnsName, .mdnsData, .mdnsType,
    .dhcpOption, .dhcpOptType, .dhcpOptLength, .dhcpOptData]

/-- The parameters that a list of calls retains a value for, in order. -/
def retained (ops : List Op) : List Param := ops.flatMap Op.retains

/-- The event that a call pushes. -/
def Op.event? : Op → Option Event
  | event ev => some ev
  | _ => none

/-- The attributes of a property that are no parameters. -/
inductive Attr where
  | srcAddr | dstAddr | srcPort | dstPort
  deriving DecidableEq, Repr

/-- The attribute that a call sets. -/
def Op.attr? : Op → Option Attr
  | srcAddr _ => some .srcAddr
  | dstAddr _ => some .dstAddr
  | srcPort _ => some .srcPort
  | dstPort _ => some .dstPort
  | _ => none

/-- The attributes that a list of calls sets, in order. -/
def attrs (ops : List Op) : List Attr := ops.filterMap Op.attr?

/-- The attributes that a module sets. -/
def Mod.attrs : Mod → List Attr
  | ipv4 | ipv6 => [.srcAddr, .dstAddr]
  | tcp | udp => [.srcPort, .dstPort]
  | _ => []

/-- A call that pushes no event and sets no attribute. -/
def Op.Mute (op : Op) : Prop := op.event? = none ∧ op.attr? = none

/-- **The calls of a module**: they are for its own parameters, once for each that is not repeated,
and for its own attributes, and push no event of a module. -/
structure Owns (mod : Mod) (ops : List Op) : Prop where
  own : ∀ d ∈ retained ops, d.mod = mod
  once : ((retained ops).filter (· ∉ perRecord)).Nodup
  quiet : ∀ op ∈ ops, ∀ ev, op.event? = some ev → ev.module? = none
  ends : ∀ a ∈ attrs ops, a ∈ mod.attrs

section Owns

variable {mod : Mod} {ops ops' : List Op} {m : Mem} {pd : Payload}

@[simp] theorem retained_append : retained (ops ++ ops') = retained ops ++ retained ops' :=
  List.flatMap_append

@[simp] theorem retained_cons (op : Op) : retained (op :: ops) = op.retains ++ retained ops := rfl

@[simp] theorem attrs_append : attrs (ops ++ ops') = attrs ops ++ attrs ops' := List.filterMap_append

theorem attrs_mute (h : ∀ op ∈ ops, op.Mute) : attrs ops = [] :=
  List.filterMap_eq_nil_iff.mpr fun op hop => (h op hop).2

theorem Owns.nil : Owns mod [] :=
  ⟨by simp [retained], by simp [retained], by simp, by simp [attrs]⟩

/-- Calls for the first of a list of parameters, all different and of the module. -/
theorem Owns.of_list (l : List Param) (hr : retained ops <+: l) (hl : l.Nodup ∧ ∀ d ∈ l, d.mod = mod)
    (hq : (ops.filterMap Op.event?).filterMap Event.module? = []) (ha : attrs ops <+: mod.attrs) :
    Owns mod ops := by
  refine ⟨fun d hd => hl.2 d (hr.subset hd), (hl.1.sublist hr.sublist).filter _,
    fun op hop ev hev => ?_, fun a h => ha.subset h⟩
  exact List.filterMap_eq_nil_iff.mp hq ev (List.mem_filterMap.mpr ⟨op, hop, hev⟩)

/-- What follows only repeats. -/
theorem Owns.append (h : Owns mod ops) (h' : Owns mod ops')
    (hd : ∀ d ∈ retained ops, d ∉ perRecord → d ∉ retained ops') : Owns mod (ops ++ ops') := by
  refine ⟨?_, ?_, ?_, ?_⟩
  · rw [retained_append]
    exact fun d hm => (List.mem_append.mp hm).elim (h.own d) (h'.own d)
  · rw [retained_append, List.filter_append, List.nodup_append]
    refine ⟨h.once, h'.once, ?_⟩
    rintro d hm _ hm' rfl
    rw [List.mem_filter] at hm hm'
    exact hd d hm.1 (by simpa using hm.2) hm'.1
  · exact fun op hm => (List.mem_append.mp hm).elim (h.quiet op) (h'.quiet op)
  · rw [attrs_append]
    exact fun a hm => (List.mem_append.mp hm).elim (h.ends a) (h'.ends a)

end Owns

section Modules

variable {m : Mem} {pd : Payload}

theorem withHeader_ensures {size : Nat} {k : Nat → Payload → Except Fault Step} {Q : Step → Prop}
    (hnone : Q { pd }) (hsome : ∀ hdr pd, Ensures (k hdr pd) Q) :
    Ensures (withHeader pd size k) Q := by
  unfold withHeader
  split
  · exact ensures_ok hnone
  · exact hsome _ _

theorem ethernetDecode_owns : Ensures (ethernetDecode m pd) fun s => Owns .ethernet s.ops := by
  refine withHeader_ensures .nil fun hdr pd => ensures_bind fun type => ensures_pure ?_
  exact .of_list [.ethernetType, .ethernetSrc, .ethernetDst] ⟨[], rfl⟩ (by decide) rfl ⟨[], rfl⟩

theorem dot1qDecode_owns : Ensures (dot1qDecode m pd) fun s => Owns .dot1q s.ops := by
  refine withHeader_ensures .nil fun hdr pd => ensures_bind fun info => ensures_bind fun type =>
    ensures_pure ?_
  exact .of_list [.dot1qType, .dot1qVlanId] ⟨[], rfl⟩ (by decide) rfl ⟨[], rfl⟩

theorem pppoeDecode_owns : Ensures (pppoeDecode m pd) fun s => Owns .pppoe s.ops := by
  refine withHeader_ensures .nil fun hdr pd => ensures_bind fun b => ?_
  have hops : Owns .pppoe [.cpy .pppoeVersion [b &&& 0x0f], .cpy .pppoeType [b >>> 4],
      .set .pppoeCode (.pkt (hdr + 1)) 1, .set .pppoeSessionId (.pkt (hdr + 2)) 2,
      .set .pppoePayloadLength (.pkt (hdr + 4)) 2] :=
    .of_list [.pppoeVersion, .pppoeType, .pppoeCode, .pppoeSessionId, .pppoePayloadLength]
      ⟨[], rfl⟩ (by decide) rfl ⟨[], rfl⟩
  dsimp only
  split
  · exact ensures_pure hops
  · exact ensures_bind fun proto => ensures_pure hops

/-- The addresses that fit are the first ones. -/
theorem arpAddrs_ops (pd : Payload) (addrs : List (Nat × (Nat → Op))) :
    ∃ ptrs : List Nat, (arpAddrs pd addrs).ops = List.zipWith (fun a ptr => a.2 ptr) addrs ptrs := by
  induction addrs generalizing pd with
  | nil => exact ⟨[], rfl⟩
  | cons a rest ih =>
    obtain ⟨len, op⟩ := a
    unfold arpAddrs
    split
    · exact ⟨[], rfl⟩
    · rename_i ptr pd' _
      obtain ⟨ptrs, h⟩ := ih pd'
      exact ⟨ptr :: ptrs, by simp [h]⟩

theorem arpDecode_owns : Ensures (arpDecode m pd) fun s => Owns .arp s.ops := by
  unfold arpDecode
  refine withHeader_ensures .nil fun hdr pd => ?_
  refine ensures_bind fun hwLen => ensures_bind fun prLen => ensures_bind fun op => ?_
  refine ensures_pure ?_
  dsimp only
  obtain ⟨ptrs, h⟩ := arpAddrs_ops pd [
    (hwLen.toNat, fun ptr => .set .arpHwSrc (.pkt ptr) hwLen.toNat),
    (prLen.toNat, fun ptr => .set .arpPrSrc (.pkt ptr) prLen.toNat),
    (hwLen.toNat, fun ptr => .set .arpHwDst (.pkt ptr) hwLen.toNat),
    (prLen.toNat, fun ptr => .set .arpPrDst (.pkt ptr) prLen.toNat)]
  rw [h]
  have hhead : Owns .arp (([.set .arpHwType (.pkt hdr) 2, .set .arpPrType (.pkt (hdr + 2)) 2,
      .set .arpHwSize (.pkt (hdr + 4)) 1, .set .arpPrSize (.pkt (hdr + 5)) 1,
      .set .arpOp (.pkt (hdr + 6)) 2] : List Op) ++ if op = 1 then [.event .arpRequest]
        else if op = 2 then [.event .arpReply] else []) := by
    split
    · exact .of_list [.arpHwType, .arpPrType, .arpHwSize, .arpPrSize, .arpOp] ⟨[], rfl⟩ (by decide)
        rfl ⟨[], rfl⟩
    · split <;> exact .of_list [.arpHwType, .arpPrType, .arpHwSize, .arpPrSize, .arpOp] ⟨[], rfl⟩
        (by decide) rfl ⟨[], rfl⟩
  -- the addresses that fit are the first ones of four
  have hall := List.nodup_append.mp (show
    ([.arpHwType, .arpPrType, .arpHwSize, .arpPrSize, .arpOp] ++
      [.arpHwSrc, .arpPrSrc, .arpHwDst, .arpPrDst] : List Param).Nodup by decide)
  have haddrs : ∀ {ops : List Op}, retained ops <+: [.arpHwSrc, .arpPrSrc, .arpHwDst, .arpPrDst] →
      (ops.filterMap Op.event?).filterMap Event.module? = [] → attrs ops <+: Mod.attrs .arp →
      Owns .arp ((([
        .set .arpHwType (.pkt hdr) 2, .set .arpPrType (.pkt (hdr + 2)) 2,
        .set .arpHwSize (.pkt (hdr + 4)) 1, .set .arpPrSize (.pkt (hdr + 5)) 1,
        .set .arpOp (.pkt (hdr + 6)) 2] : List Op) ++ if op = 1 then [.event .arpRequest]
          else if op = 2 then [.event .arpReply] else []) ++ ops) := by
    intro ops hr hq ha
    refine hhead.append (.of_list _ hr (by decide) hq ha) fun d hd _ hd' => ?_
    have hd : d ∈ [Param.arpHwType, .arpPrType, .arpHwSize, .arpPrSize, .arpOp] := by
      split at hd
      · exact hd
      · split at hd <;> exact hd
    exact hall.2.2 d hd d (hr.subset hd') rfl
  refine haddrs ?_ ?_ ?_
  · rcases ptrs with _ | ⟨p1, _ | ⟨p2, _ | ⟨p3, _ | ⟨p4, rest⟩⟩⟩⟩
    · exact ⟨_, rfl⟩
    · exact ⟨[.arpPrSrc, .arpHwDst, .arpPrDst], rfl⟩
    · exact ⟨[.arpHwDst, .arpPrDst], rfl⟩
    · exact ⟨[.arpPrDst], rfl⟩
    · exact ⟨[], rfl⟩
  · rcases ptrs with _ | ⟨p1, _ | ⟨p2, _ | ⟨p3, _ | ⟨p4, rest⟩⟩⟩⟩ <;> rfl
  · rcases ptrs with _ | ⟨p1, _ | ⟨p2, _ | ⟨p3, _ | ⟨p4, rest⟩⟩⟩⟩ <;> exact ⟨[], rfl⟩

theorem ipv4Decode_owns : Ensures (ipv4Decode m pd) fun s => Owns .ipv4 s.ops := by
  refine withHeader_ensures .nil fun hdr pd => ensures_bind fun b => ensures_bind fun totalLen => ?_
  dsimp only
  split
  · exact ensures_pure .nil
  · refine ensures_bind fun src => ensures_bind fun dst => ensures_bind fun proto => ensures_pure ?_
    dsimp only
    unfold ipv4Options
    split
    · split <;> exact .of_list [.ipv4Hdr, .ipv4Src, .ipv4Dst, .ipv4Opt, .ipv4Data] ⟨[], rfl⟩
        (by decide) rfl ⟨[], rfl⟩
    · exact .of_list [.ipv4Hdr, .ipv4Src, .ipv4Dst, .ipv4Data] ⟨[], rfl⟩ (by decide) rfl ⟨[], rfl⟩

theorem ipv6Decode_owns : Ensures (ipv6Decode m pd) fun s => Owns .ipv6 s.ops := by
  refine withHeader_ensures .nil fun hdr pd => ensures_bind fun src => ensures_bind fun dst =>
    ensures_bind fun next => ensures_pure ?_
  exact .of_list [] ⟨[], rfl⟩ (by decide) rfl ⟨[], rfl⟩

theorem icmpDecode_owns : Ensures (icmpDecode m pd) fun s => Owns .icmp s.ops := by
  refine withHeader_ensures .nil fun hdr pd => ensures_bind fun type => ensures_pure ?_
  exact .of_list [.icmpType, .icmpCode, .icmpChksum] ⟨[], rfl⟩ (by decide) rfl ⟨[], rfl⟩

theorem udpDecode_owns : Ensures (udpDecode m pd) fun s => Owns .udp s.ops := by
  refine withHeader_ensures .nil fun hdr pd => ensures_bind fun sport => ensures_bind fun dport =>
    ensures_pure ?_
  exact .of_list [.udpHdr, .udpSrcPort, .udpDstPort, .udpLength, .udpChksum] ⟨[], rfl⟩ (by decide)
    rfl ⟨[], rfl⟩

/-- Calls that retain values for repeated parameters of the module only. -/
theorem Owns.of_perRecord {mod : Mod} {ops : List Op}
    (h : ∀ op ∈ ops, (∀ d ∈ op.retains, d.mod = mod ∧ d ∈ perRecord) ∧ op.Mute) :
    Owns mod ops := by
  have hr : ∀ d ∈ retained ops, d.mod = mod ∧ d ∈ perRecord := by
    intro d hd
    obtain ⟨op, hop, hd⟩ := List.mem_flatMap.mp hd
    exact (h op hop).1 d hd
  refine ⟨fun d hd => (hr d hd).1, ?_, fun op hop ev hev => ?_, ?_⟩
  · rw [List.filter_eq_nil_iff.mpr fun d hd => by simpa using (hr d hd).2]
    exact List.nodup_nil
  · rw [(h op hop).2.1] at hev
    cases hev
  · rw [attrs_mute fun op hop => (h op hop).2]
    simp

theorem dhcpOptionsLoop_ops (fuel : Nat) :
    Ensures (dhcpOptionsLoop m fuel pd) fun s => ∀ op ∈ s.ops, ∃ a b c, op = .option a b c := by
  induction fuel generalizing pd with
  | zero => exact ensures_error
  | succ fuel ih =>
    unfold dhcpOptionsLoop
    split
    · exact ensures_ok (by simp)
    · refine ensures_bind fun code => ?_
      split
      · exact ensures_pure (by simp)
      · refine ensures_bind fun len => ?_
        dsimp only
        split
        · exact ensures_pure (by simp)
        · refine ih.bind fun s hs => ensures_pure ?_
          exact List.forall_mem_cons.mpr ⟨⟨_, _, _, rfl⟩, hs⟩

/-- The parameters of a DHCP header, with the two names that may be missing. -/
def dhcpParams (hostName bootFile : Bool) : List Param :=
  ([.dhcpMsgType, .dhcpHwType, .dhcpHwAddrLen, .dhcpHops, .dhcpTransId, .dhcpFlags, .dhcpClientAddr,
    .dhcpYourClientAddr, .dhcpNextServerAddr, .dhcpRelayAgentAddr, .dhcpMagicCookie, .dhcpSeconds,
    .dhcpClientHwAddr] : List Param) ++ (if hostName then [Param.dhcpServerHostName] else [])
    ++ (if bootFile then [Param.dhcpBootFileName] else []) ++ [Param.dhcpOptions]

theorem dhcpDecode_owns : Ensures (dhcpDecode m pd) fun s => Owns .dhcp s.ops := by
  unfold dhcpDecode
  refine withHeader_ensures .nil fun hdr pd => ?_
  refine ensures_bind fun hwLen => ensures_bind fun hostName => ensures_bind fun bootFile => ?_
  refine (dhcpOptionsLoop_ops _).bind fun s hs => ?_
  refine ensures_pure ?_
  have hhead : Owns .dhcp (dhcpHeader hdr hwLen.toNat hostName bootFile) := by
    have hlist : ∀ a b, (dhcpParams a b).Nodup ∧ ∀ d ∈ dhcpParams a b, d.mod = .dhcp := by decide
    unfold dhcpHeader
    split
    · split
      · exact .of_list (dhcpParams true true) ⟨[], rfl⟩ (hlist true true) rfl ⟨[], rfl⟩
      · exact .of_list (dhcpParams true false) ⟨[], rfl⟩ (hlist true false) rfl ⟨[], rfl⟩
    · split
      · exact .of_list (dhcpParams false true) ⟨[], rfl⟩ (hlist false true) rfl ⟨[], rfl⟩
      · exact .of_list (dhcpParams false false) ⟨[], rfl⟩ (hlist false false) rfl ⟨[], rfl⟩
  refine hhead.append (.of_perRecord fun op hop => ?_) fun d _ hd hm => hd ?_
  · obtain ⟨a, b, c, rfl⟩ := hs op hop
    exact ⟨by simp [Op.retains, Param.mod, perRecord], rfl, rfl⟩
  · obtain ⟨op, hop, hd⟩ := List.mem_flatMap.mp hm
    obtain ⟨a, b, c, rfl⟩ := hs op hop
    revert hd
    simp only [Op.retains, perRecord, List.mem_cons, List.not_mem_nil, or_false]
    rintro (rfl | rfl | rfl | rfl) <;> simp

end Modules

section NameServices

variable {m : Mem} {ns : NameService} {mod : Mod} {base totalLen : Nat} {counts : List Nat}

/-- A name service defines its parameters under its own module, and the ones for a record are the ones
that are repeated. -/
structure NameService.In (ns : NameService) (mod : Mod) : Prop where
  own : ∀ d ∈ [ns.txId, ns.isQuery, ns.records, ns.name, ns.data, ns.type], d.mod = mod
  perRecord : ∀ d ∈ [ns.records, ns.name, ns.data, ns.type], d ∈ perRecord
  head : ns.txId ≠ ns.isQuery
  record : ∀ t, (ns.record t).mod = mod ∧ ns.record t ∉ Decode.perRecord
  record_inj : ∀ t < 4, ∀ u < 4, ns.record t = ns.record u → t = u
  events : ns.evQuery.module? = none ∧ ns.evReply.module? = none

theorem dns_in : dns.In .dns where
  own := by simp [dns, Param.mod]
  perRecord := by simp [dns, Decode.perRecord]
  head := by simp [dns]
  record t := by
    rcases t with _ | _ | _ | t <;> exact ⟨rfl, by simp [dns, Decode.perRecord]⟩
  record_inj := by decide
  events := ⟨rfl, rfl⟩

theorem mdns_in : mdns.In .mdns where
  own := by simp [mdns, Param.mod]
  perRecord := by simp [mdns, Decode.perRecord]
  head := by simp [mdns]
  record t := by
    rcases t with _ | _ | _ | t <;> exact ⟨rfl, by simp [mdns, Decode.perRecord]⟩
  record_inj := by decide
  events := ⟨rfl, rfl⟩

/-- The section cursor stays in its section and keeps the array, or moves on and drops it. -/
theorem nextTarget_moves (fuel : Nat) {target rrC : Nat} {arr : Bool} :
    Ensures (nextTarget counts fuel target rrC arr) fun r => r.1 < counts.length ∧
      (r.1 = target ∧ r.2.2 = arr ∨ target < r.1 ∧ r.2.2 = false) := by
  induction fuel generalizing target rrC arr with
  | zero => exact ensures_error
  | succ fuel ih =>
    unfold nextTarget
    split
    · exact ensures_error
    · rename_i n hn
      have hlt := (List.getElem?_eq_some_iff.mp hn).1
      split
      · exact ensures_ok ⟨hlt, .inl ⟨rfl, rfl⟩⟩
      · split
        · refine ih.mono ?_
          rintro r ⟨hr, ⟨he, ha⟩ | ⟨hgt, ha⟩⟩
          · exact ⟨hr, .inr ⟨by omega, ha⟩⟩
          · exact ⟨hr, .inr ⟨by omega, ha⟩⟩
        · exact ensures_error

/-- The calls for records, from the section `target` on: the arrays of some sections (`ts`), each
once, and values for the records. -/
structure Sections (ns : NameService) (n target : Nat) (arr : Bool) (ts : List Nat) (ops : List Op) :
    Prop where
  sorted : ts.Pairwise (· < ·)
  range : ∀ t ∈ ts, t < n ∧ target ≤ t ∧ (arr = true → target < t)
  arrays : (retained ops).filter (· ∉ perRecord) = ts.map ns.record
  calls : ∀ op ∈ ops, op.Mute ∧
    ∀ d ∈ op.retains, d ∈ [ns.records, ns.name, ns.data, ns.type] ∨ ∃ t, d = ns.record t

theorem Sections.nil (ns : NameService) (n target : Nat) (arr : Bool) :
    Sections ns n target arr [] [] :=
  ⟨.nil, by simp, rfl, by simp⟩

/-- Calls for a record leave the arrays alone. -/
theorem Sections.record (hns : ns.In mod) {n target : Nat} {arr : Bool} {ts : List Nat}
    {ops ops' : List Op} (h : Sections ns n target arr ts ops)
    (hc : ∀ op ∈ ops', op.Mute ∧
      ∀ d ∈ op.retains, d ∈ [ns.records, ns.name, ns.data, ns.type]) :
    Sections ns n target arr ts (ops' ++ ops) := by
  refine ⟨h.sorted, h.range, ?_, ?_⟩
  · rw [retained_append, List.filter_append, h.arrays, List.filter_eq_nil_iff.mpr]
    · rfl
    · intro d hd
      obtain ⟨op, hop, hd⟩ := List.mem_flatMap.mp hd
      simpa using hns.perRecord d ((hc op hop).2 d hd)
  · intro op hop
    obtain hop | hop := List.mem_append.mp hop
    · exact ⟨(hc op hop).1, fun d hd => .inl ((hc op hop).2 d hd)⟩
    · exact h.calls op hop

/-- A section that the cursor has moved to gets its array. -/
theorem Sections.array (hns : ns.In mod) {n target target' : Nat} {arr arr' : Bool} {ts : List Nat}
    {ops arrOps : List Op} (h : Sections ns n target' true ts ops) (ht : target' < n)
    (hm : target' = target ∧ arr' = arr ∨ target < target' ∧ arr' = false)
    (ha : sectionArray ns target' arr' = .ok arrOps) :
    ∃ ts', Sections ns n target arr ts' (arrOps ++ ops) := by
  unfold sectionArray at ha
  split at ha
  · rename_i harr
    obtain rfl := Except.ok.inj ha
    obtain ⟨rfl, rfl⟩ | ⟨-, hf⟩ := hm
    · refine ⟨ts, h.sorted, fun t hmem => ?_, h.arrays, h.calls⟩
      obtain ⟨h1, h2, h3⟩ := h.range t hmem
      exact ⟨h1, h2, fun _ => h3 rfl⟩
    · rw [harr] at hf
      cases hf
  · rename_i harr
    split at ha
    · rename_i hk
      obtain rfl := Except.ok.inj ha
      refine ⟨target' :: ts, List.pairwise_cons.mpr ⟨fun t hmem => (h.range t hmem).2.2 rfl, h.sorted⟩,
        ?_, ?_, ?_⟩
      · refine List.forall_mem_cons.mpr ⟨⟨ht, ?_, fun he => ?_⟩, fun t hmem => ?_⟩
        · omega
        · obtain ⟨-, rfl⟩ | ⟨hlt, -⟩ := hm
          · exact absurd he harr
          · exact hlt
        · obtain ⟨h1, h2, h3⟩ := h.range t hmem
          have := h3 rfl
          exact ⟨h1, by omega, fun _ => by omega⟩
      · rw [List.singleton_append, retained_cons]
        have hrec : ns.record target' ∉ perRecord := (hns.record target').2
        simp only [Op.retains, List.singleton_append, List.filter_cons, hrec, not_false_eq_true,
          decide_true, if_true, h.arrays, List.map_cons]
      · refine List.forall_mem_cons.mpr ⟨⟨⟨rfl, rfl⟩, fun d hd => ?_⟩, h.calls⟩
        exact .inr ⟨target', List.mem_singleton.mp hd⟩
    · cases ha

theorem recordBody_calls {hasData : Bool} {ptr : Nat} :
    Ensures (recordBody ns m base totalLen hasData ptr) fun r => ∀ op ∈ r.1, op.Mute ∧
      ∀ d ∈ op.retains, d ∈ [ns.records, ns.name, ns.data, ns.type] := by
  unfold recordBody
  dsimp only
  split
  · exact ensures_pure (by simp)
  · split
    · exact ensures_pure (by simp)
    · split
      · exact ensures_pure (by simp [Op.Mute, Op.event?, Op.attr?, Op.retains])
      · split
        · exact ensures_pure (by simp [Op.Mute, Op.event?, Op.attr?, Op.retains])
        · refine ensures_bind fun rdLen => ?_
          split
          · exact ensures_pure (by simp [Op.Mute, Op.event?, Op.attr?, Op.retains])
          · exact ensures_bind fun type =>
              ensures_pure (by simp [Op.Mute, Op.event?, Op.attr?, Op.retains])

/-- **Each section has its array retained at most once.** -/
theorem recordLoop_sections (hns : ns.In mod) (left : Nat) {c target rrC ptr : Nat} {arr : Bool} :
    Ensures (recordLoop ns m base totalLen counts left c target rrC arr ptr) fun r =>
      ∃ ts, Sections ns counts.length target arr ts r.1 := by
  induction left generalizing c target rrC ptr arr with
  | zero => exact ensures_ok ⟨[], .nil ..⟩
  | succ left ih =>
    unfold recordLoop
    refine (nextTarget_moves 5).bind ?_
    rintro ⟨target', rrC', arr'⟩ ⟨hlt, hm⟩
    dsimp only at hlt hm ⊢
    split
    · exact ensures_pure ⟨[], .nil ..⟩
    · refine Ensures.bind (P := fun arrOps => sectionArray ns target' arr' = .ok arrOps)
        (fun _ h => h) fun arrOps ha => ?_
      have hrec : ∀ op ∈ [Op.record ns target' ptr (base + 12 + totalLen - ptr) base totalLen],
          op.Mute ∧ ∀ d ∈ op.retains, d ∈ [ns.records, ns.name, ns.data, ns.type] := by
        simp [Op.Mute, Op.event?, Op.attr?, Op.retains]
      refine ensures_bind fun label => ?_
      split
      · have hnil := (Sections.nil ns counts.length target' true).record hns hrec
        rw [List.append_nil] at hnil
        exact ensures_pure (hnil.array hns hlt hm ha)
      · refine recordBody_calls.bind ?_
        rintro ⟨body, ok | ptr'⟩ hbody
        · have hdone := ((Sections.nil ns counts.length target' true).record hns hbody).record hns hrec
          rw [List.append_nil] at hdone
          refine ensures_pure ?_
          dsimp only
          rw [List.append_assoc]
          exact hdone.array hns hlt hm ha
        · refine ih.bind ?_
          rintro ⟨rest, ok⟩ ⟨ts, hts⟩
          refine ensures_pure ?_
          dsimp only
          rw [List.append_assoc, List.append_assoc]
          exact ((hts.record hns hbody).record hns hrec).array hns hlt hm ha

theorem nsDecode_owns (hns : ns.In mod) (pd : Payload) :
    Ensures (ns.decode m pd) fun s => Owns mod s.ops := by
  unfold NameService.decode NameService.nsDecode
  refine Ensures.bind (P := fun r => Owns mod r.2.1) ?_ fun r hr => ensures_pure hr
  split
  · exact ensures_ok .nil
  · rename_i base pd' _
    refine Ensures.bind (P := fun counts => counts.length = 4) ?_ fun counts hc => ?_
    · unfold readCounts
      exact ensures_bind fun _ => ensures_bind fun _ => ensures_bind fun _ => ensures_bind fun _ =>
        ensures_pure rfl
    · dsimp only
      split
      · exact ensures_error
      · refine ensures_bind fun flags => (recordLoop_sections hns _).bind ?_
        rintro ⟨ops, ok⟩ ⟨ts, hts⟩
        rw [hc] at hts
        refine ensures_pure ?_
        have hown := hns.own
        simp only [List.forall_mem_cons] at hown
        obtain ⟨htx, hisq, hrec, hname, hdata, htype, -⟩ := hown
        refine Owns.append (.of_list [ns.txId, ns.isQuery] ⟨[], rfl⟩ ⟨?_, ?_⟩ ?_ List.nil_prefix)
          ⟨?_, ?_, ?_, ?_⟩ ?_
        · simpa using hns.head
        · simp [htx, hisq]
        · have hev : (if flags &&& 0x0080 = 0 then ns.evQuery else ns.evReply).module? = none := by
            split
            · exact hns.events.1
            · exact hns.events.2
          exact List.filterMap_cons_none hev
        · intro d hd
          obtain ⟨op, hop, hd⟩ := List.mem_flatMap.mp hd
          obtain hd | ⟨t, rfl⟩ := (hts.calls op hop).2 d hd
          · exact hns.own d (by simp at hd ⊢; tauto)
          · exact (hns.record t).1
        · rw [hts.arrays]
          refine List.Nodup.map_on ?_ (hts.sorted.imp Nat.ne_of_lt)
          intro t ht u hu he
          exact hns.record_inj t (hts.range t ht).1 u (hts.range u hu).1 he
        · intro op hop ev hev
          rw [(hts.calls op hop).1.1] at hev
          cases hev
        · rw [attrs_mute fun op hop => (hts.calls op hop).1]
          simp
        · -- the head is of plain classes, and neither for a record nor the array of a section
          intro d hd hnr hd'
          have hplain : d.kind.plain = true := by
            have hd : d ∈ [ns.txId, ns.isQuery] := hd
            simp only [List.mem_cons, List.not_mem_nil, or_false] at hd
            obtain rfl | rfl := hd
            · exact ns.txId_kind
            · exact ns.isQuery_kind
          obtain ⟨op, hop, hd'⟩ := List.mem_flatMap.mp hd'
          obtain hd' | ⟨t, rfl⟩ := (hts.calls op hop).2 d hd'
          · exact hnr (hns.perRecord d hd')
          · rw [ns.record_kind] at hplain
            cases hplain

end NameServices

section Owners

variable {cfg : TcpConfig τ} {tv : Tcp.Timeval} {st : TcpState τ} {e : Endpoints} {m : Mem}
  {pd : Payload} {mod : Mod}

theorem setProperties_owns {hdr : Nat} : Ensures (setProperties m hdr pd) fun r =>
    Owns .tcp r.2.1 ∧ .tcpSegment ∉ retained r.2.1 := by
  have hops : ∀ (sport dport : UInt16) (rest : List Op),
      rest = [] ∨ (∃ opt len, rest = [.set .tcpOptdata (.pkt opt) len]) →
      Owns .tcp (([.srcPort sport, .dstPort dport, .set .tcpSrcPort (.pkt hdr) 2,
        .set .tcpDstPort (.pkt (hdr + 2)) 2, .set .tcpHdr (.pkt hdr) 20] : List Op) ++ rest) ∧
      .tcpSegment ∉ retained ([Op.srcPort sport, .dstPort dport, .set .tcpSrcPort (.pkt hdr) 2,
        .set .tcpDstPort (.pkt (hdr + 2)) 2, .set .tcpHdr (.pkt hdr) 20] ++ rest) := by
    rintro sport dport rest (rfl | ⟨opt, len, rfl⟩)
    · exact ⟨.of_list [.tcpSrcPort, .tcpDstPort, .tcpHdr] ⟨[], rfl⟩ (by decide) rfl ⟨[], rfl⟩,
        show .tcpSegment ∉ [Param.tcpSrcPort, .tcpDstPort, .tcpHdr] by decide⟩
    · exact ⟨.of_list [.tcpSrcPort, .tcpDstPort, .tcpHdr, .tcpOptdata] ⟨[], rfl⟩ (by decide) rfl
        ⟨[], rfl⟩,
        show .tcpSegment ∉ [Param.tcpSrcPort, .tcpDstPort, .tcpHdr, .tcpOptdata] by decide⟩
  unfold setProperties
  refine ensures_bind fun sport => ensures_bind fun dport => ensures_bind fun b => ?_
  dsimp only
  split
  · split
    · exact ensures_pure (hops _ _ [] (.inl rfl))
    · exact ensures_pure (hops _ _ _ (.inr ⟨_, _, rfl⟩))
  · exact ensures_pure (hops _ _ [] (.inl rfl))

theorem tcpDecode_owns (hoff : cfg.enableSsnMgmt = false) :
    Ensures (tcpDecode cfg st e tv m pd) fun r => Owns .tcp r.2.ops := by
  unfold tcpDecode
  split
  · exact ensures_ok .nil
  · refine setProperties_owns.bind ?_
    rintro ⟨pd', ops, ok⟩ ⟨hops, hseg⟩
    simp only [hoff, Bool.false_eq_true, if_false]
    split
    · exact ensures_pure hops
    · refine ensures_pure (hops.append ?_ ?_)
      · split
        · exact .of_list [.tcpSegment] ⟨[], rfl⟩ (by decide) rfl List.nil_prefix
        · exact .nil
      · intro d hd _ hd'
        split at hd'
        · have hd' : d ∈ [Param.tcpSegment] := hd'
          obtain rfl := List.mem_singleton.mp hd'
          exact hseg hd
        · cases hd'

/-- A session pushes events of its own only. -/
theorem sessionMgmt_quiet {hdr segOff segLen : Nat} :
    Ensures (sessionMgmt cfg st e tv m hdr segOff segLen) fun r =>
      ∀ op ∈ r.2, ∀ ev, op.event? = some ev → ev.module? = none := by
  unfold sessionMgmt
  dsimp only
  refine ensures_bind fun key => ensures_bind fun flags => ensures_bind fun seq =>
    ensures_bind fun ack => ensures_bind fun win => ensures_bind fun data => ?_
  split
  · exact ensures_error
  · refine ensures_pure ?_
    simp only [List.mem_append, List.mem_singleton, List.mem_flatMap]
    rintro op ((hop | rfl) | ⟨eff, -, hop⟩) ev hev
    · unfold searchSession at hop
      split at hop
      · cases hop
      · obtain rfl := List.mem_singleton.mp hop
        obtain rfl := Option.some.inj hev
        rfl
    · cases hev
    · unfold effOps at hop
      split at hop
      all_goals first
        | (obtain rfl := List.mem_singleton.mp hop
           simp only [Op.event?, Option.some.injEq, reduceCtorEq] at hev
           try (subst hev; rfl))
        | cases hop

/-- **What a module retains**, without session management. -/
theorem decodeMod_owns (hoff : cfg.enableSsnMgmt = false) :
    Ensures (decodeMod cfg tv m st e pd mod) fun r => Owns mod r.2.ops := by
  have hret : ∀ {x : Except Fault Step}, Ensures x (fun s => Owns mod s.ops) →
      Ensures (do return (st, ← x)) fun r : TcpState τ × Step => Owns mod r.2.ops := by
    intro x hx
    exact hx.bind fun s hs => ensures_pure hs
  cases mod with
  | arp => exact hret arpDecode_owns
  | dhcp => exact hret dhcpDecode_owns
  | dns => exact hret (nsDecode_owns dns_in pd)
  | dot1q => exact hret dot1qDecode_owns
  | ethernet => exact hret ethernetDecode_owns
  | icmp => exact hret icmpDecode_owns
  | ipv4 => exact hret ipv4Decode_owns
  | ipv6 => exact hret ipv6Decode_owns
  | mdns => exact hret (nsDecode_owns mdns_in pd)
  | pppoe => exact hret pppoeDecode_owns
  | tcp => exact tcpDecode_owns hoff
  | udp => exact hret udpDecode_owns

theorem tcpDecode_quiet : Ensures (tcpDecode cfg st e tv m pd) fun r =>
    ∀ op ∈ r.2.ops, ∀ ev, op.event? = some ev → ev.module? = none := by
  unfold tcpDecode
  split
  · exact ensures_ok (by simp)
  · refine setProperties_owns.bind ?_
    rintro ⟨pd', ops, ok⟩ ⟨hops, -⟩
    dsimp only
    have hseg : ∀ op ∈ ops ++ (if pd'.length > 0 then
        [Op.set .tcpSegment (.pkt pd'.ptr) pd'.length] else []),
        ∀ ev, op.event? = some ev → ev.module? = none := by
      intro op hop
      obtain hop | hop := List.mem_append.mp hop
      · exact hops.quiet op hop
      · split at hop
        · obtain rfl := List.mem_singleton.mp hop
          simp [Op.event?]
        · cases hop
    split
    · exact ensures_pure hops.quiet
    · split
      · refine ensures_bind fun sport => ensures_bind fun dport => sessionMgmt_quiet.bind ?_
        rintro ⟨st', ssnOps⟩ hssn
        refine ensures_pure fun op hop => ?_
        exact (List.mem_append.mp hop).elim (hseg op) (hssn op)
      · exact ensures_pure hseg

/-- Session management concerns no module but TCP. -/
theorem decodeMod_of_ne (h : mod ≠ .tcp) : decodeMod cfg tv m st e pd mod
    = decodeMod { cfg with enableSsnMgmt := false } tv m st e pd mod := by
  cases mod <;> first | rfl | exact absurd rfl h

/-- **No module pushes the event of a module**; the loop does. -/
theorem decodeMod_quiet : Ensures (decodeMod cfg tv m st e pd mod) fun r =>
    ∀ op ∈ r.2.ops, ∀ ev, op.event? = some ev → ev.module? = none := by
  by_cases h : mod = .tcp
  · subst h
    exact tcpDecode_quiet
  · rw [decodeMod_of_ne h]
    exact (decodeMod_owns rfl).mono fun r hr => hr.quiet

end Owners

/-! ## Events and numbers of values -/

section Exec

variable {q : Property}

/-- The events that are pushed, in order. -/
theorem events_exec (h : q.eventIdx ≤ q.event.length) (ops : List Op) :
    (q.exec ops).events = q.events ++ ops.filterMap Op.event? := by
  induction ops generalizing q with
  | nil => simp [Property.exec]
  | cons op ops ih =>
    rw [Property.exec_cons, ih (Op.eventIdx_apply h op)]
    obtain ⟨ev, rfl⟩ | ⟨he, hi⟩ := Op.event_cases (q := q) op
    · rw [Op.apply, Property.events_pushEvent h, List.append_assoc]
      rfl
    · have hnone : op.event? = none ∨ ∃ ev, op = .event ev := by cases op <;> simp [Op.event?]
      obtain hnone | ⟨ev, rfl⟩ := hnone
      · rw [List.filterMap_cons_none hnone, Property.events, he, hi]
        rfl
      · rw [Op.apply, Property.events_pushEvent h, List.append_assoc]
        rfl

theorem Op.retains_nodup (op : Op) : op.retains.Nodup := by
  cases op with
  | record ns target ptr len base totalLen =>
    obtain ⟨h1, h2, h3, -, -⟩ := ns.ne
    simp [Op.retains, h1, h2, h3]
  | _ => simp [Op.retains]

/-- The number of values of a parameter is the number of times it was retained. -/
theorem count_exec (hs : q.Sized) (ops : List Op) (d : Param) :
    (q.exec ops).count d = q.count d + (retained ops).count d := by
  induction ops generalizing q with
  | nil => simp [Property.exec, retained]
  | cons op ops ih =>
    rw [Property.exec_cons, ih (hs.apply op), Op.count_apply hs, retained_cons, List.count_append]
    by_cases hd : d ∈ op.retains
    · rw [if_pos hd, List.count_eq_one_of_mem op.retains_nodup hd]
      omega
    · rw [if_neg hd, List.count_eq_zero_of_not_mem hd]
      omega

end Exec

section Visits

variable {vs : List Visit}

theorem retained_visits : retained (vs.flatMap Visit.ops) = vs.flatMap fun v => retained v.step.ops := by
  induction vs with
  | nil => rfl
  | cons v vs ih => rw [List.flatMap_cons, retained_append, ih]; rfl

/-- Different modules retain different parameters. -/
theorem visits_nodup (hnd : (vs.map Visit.mod).Nodup) (h : ∀ v ∈ vs, Owns v.mod v.step.ops) :
    ((retained (vs.flatMap Visit.ops)).filter (· ∉ perRecord)).Nodup := by
  rw [retained_visits]
  induction vs with
  | nil => exact List.nodup_nil
  | cons v vs ih =>
    obtain ⟨hv, hvs⟩ := List.forall_mem_cons.mp h
    rw [List.map_cons, List.nodup_cons] at hnd
    rw [List.flatMap_cons, List.filter_append, List.nodup_append]
    refine ⟨hv.once, ih hnd.2 hvs, ?_⟩
    rintro d hd _ hd' rfl
    obtain ⟨u, hu, hdu⟩ := List.mem_flatMap.mp (List.mem_filter.mp hd').1
    have hmod := (hv.own d (List.mem_filter.mp hd).1).symm.trans ((hvs u hu).own d hdu)
    exact hnd.1 (hmod ▸ List.mem_map_of_mem hu)

/-- The events of modules are those of the loop. -/
theorem visits_events (h : ∀ v ∈ vs, ∀ op ∈ v.step.ops, ∀ ev, op.event? = some ev → ev.module? = none) :
    ((vs.flatMap Visit.ops).filterMap Op.event?).filterMap Event.module? = vs.map Visit.mod := by
  induction vs with
  | nil => rfl
  | cons v vs ih =>
    obtain ⟨hv, hvs⟩ := List.forall_mem_cons.mp h
    have hquiet : (v.step.ops.filterMap Op.event?).filterMap Event.module? = [] := by
      rw [List.filterMap_eq_nil_iff]
      intro ev hev
      obtain ⟨op, hop, hev⟩ := List.mem_filterMap.mp hev
      exact hv op hop ev hev
    have hops : (v.ops.filterMap Op.event?).filterMap Event.module?
        = v.mod :: (v.step.ops.filterMap Op.event?).filterMap Event.module? := rfl
    rw [List.flatMap_cons, List.filterMap_append, List.filterMap_append, ih hvs, hops, hquiet]
    rfl

end Visits

/-- Every visit of the loop is a call of its module. -/
theorem Loop.called {cfg : TcpConfig τ} {tv : Tcp.Timeval} {m : Mem} {next : Option Mod} {pd : Payload}
    {w w' : Worker τ} {vs : List Visit} (h : Loop cfg tv m next pd w vs w') :
    ∀ v ∈ vs, ∃ st e st', decodeMod cfg tv m st e v.pd v.mod = .ok (st', v.step) := by
  induction h with
  | done pd w => simp
  | call hmod hrest ih => exact List.forall_mem_cons.mpr ⟨⟨_, _, _, hmod⟩, ih⟩

/-- **Every packet goes through at most six modules, none of them twice.** After any history of packets
and reads, and with any state of the TCP module: the loop ends; every id that a module returns passes
the assertion and was looked up in its `setup`; the events of modules are those of the modules called,
in this order; and without session management no parameter but those of records and options is
retained twice. -/
theorem visits_once (cfg : TcpConfig τ) (tcp tcp' : TcpState τ) (hist : List (Packet × List Key))
    (p : Packet) :
    Returns (Worker.run cfg { tcp } hist) fun w =>
      Returns (Worker.process cfg { w with tcp := tcp' } p) fun w' => ∃ vs,
        Loop cfg p.tv p.mem (some .ethernet) (Payload.reset p)
          { tcp := tcp', prop := w.prop.init } vs w' ∧
        vs.length ≤ 6 ∧ (vs.map Visit.mod).Nodup ∧
        (∀ v ∈ vs, ModIdOk (modId v.step.next) ∧
          ∀ next, v.step.next = some next → next.name ∈ v.mod.setup) ∧
        (w'.prop.events.filterMap Event.module?).map Mod.name = vs.map (·.mod.name) ∧
        (cfg.enableSsnMgmt = false → ∀ d, d ∉ perRecord → w'.prop.count d ≤ 1) := by
  refine (run_returns Property.wf_empty hist).mono fun w hw => ?_
  refine (process_loop cfg _ p).mono ?_
  rintro w' ⟨vs, hloop, hvs, hsorted, hle, -⟩
  obtain ⟨hlen, hnd⟩ := ranks_fall hsorted hle
  have hexec : w'.prop = w.prop.init.exec (vs.flatMap Visit.ops) := hloop.exec_eq
  refine ⟨vs, hloop, hlen, hnd, fun v hv => ⟨modIdOk _, fun next hn => ?_⟩, ?_, fun hoff d hd => ?_⟩
  · refine nextOf_setup (m := p.mem) (show nextOf p.mem v.mod v.pd = some (next, v.step.pd) from ?_)
    rw [← (hvs v hv).follow, Step.follow, hn]
    rfl
  · have hquiet : ∀ v ∈ vs, ∀ op ∈ v.step.ops, ∀ ev, op.event? = some ev → ev.module? = none := by
      intro v hv
      obtain ⟨st, e, st', hcall⟩ := hloop.called v hv
      exact decodeMod_quiet _ hcall
    have hevents := visits_events hquiet
    rw [hexec, events_exec hw.init.events]
    have hnil : w.prop.init.events = [] := List.take_zero
    rw [hnil, List.nil_append, hevents, List.map_map]
    rfl
  · have howns : ∀ v ∈ vs, Owns v.mod v.step.ops := by
      intro v hv
      obtain ⟨st, e, st', hcall⟩ := hloop.called v hv
      exact decodeMod_owns hoff _ hcall
    have hcount := List.nodup_iff_count_le_one.mp (visits_nodup hnd howns) d
    rw [List.count_filter (by simpa using hd)] at hcount
    rw [hexec, count_exec hw.init.sized, Property.count_init]
    omega

end PacketMachine.Decode
