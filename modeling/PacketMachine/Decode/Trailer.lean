import PacketMachine.Decode.Classify
import PacketMachine.Decode.Extend
import PacketMachine.Decode.Paths

/-!
# What lies behind a packet, and what is cut from it

A network card fills short frames up, and a capture may stop in the middle of a packet. So two
packets are compared of which one continues the other (`Packet.Before`). The length of the frame is
looked at when a header is retained, and by IPv4, which cuts its payload by the total length.

* `Packet.Complete`: the headers are there up to IPv4, and the bytes that it counts.
* `ownEvents`: the events that a module pushes besides its own name are decided by its header.

Results:
* **`padding_invisible`**: what follows a complete packet changes nothing, neither the state of the
  TCP module nor any value.
* `process_events`: but for those of sessions, the events of a packet follow from its bytes.
* **`cut_events`**: those of a packet that was cut are the first ones of the whole packet, when no
  IPv4 options were cut.
-/

namespace PacketMachine.Decode

open PacketMachine.Lib

variable {τ τ' : Type}

/-! ## Two packets -/

/-- The second packet is the first with some more bytes. -/
structure Packet.Before (p p' : Packet) : Prop where
  data : p.data <+: p'.data
  tv : p'.tv = p.tv

/-- The same position, with no fewer bytes left. -/
structure Payload.Longer (pd pd' : Payload) : Prop where
  wf : pd.WF
  wf_right : pd'.WF
  ptr : pd'.ptr = pd.ptr
  length : pd.length ≤ pd'.length

section Longer

variable {pd pd' : Payload} {p p' : Packet} {m m' : Mem}

theorem Packet.Before.sub (h : p.Before p') : Mem.Sub p.mem p'.mem := by
  obtain ⟨rest, hrest⟩ := h.data
  intro i b hb
  have hlt : i < p.data.length := (List.getElem?_eq_some_iff.mp hb).1
  rw [Packet.mem, ← hrest, List.getElem?_append_left hlt]
  exact hb

theorem Packet.Before.longer (h : p.Before p') : (Payload.reset p).Longer (Payload.reset p') :=
  ⟨Payload.wf_reset p, Payload.wf_reset p', rfl, h.data.length_le⟩

theorem Payload.Longer.skip (h : pd.Longer pd') {n : Nat} (hn : n ≤ pd.length) :
    (pd.skip n).Longer (pd'.skip n) := by
  have hle := h.length
  refine ⟨h.wf.skip hn, h.wf_right.skip (hn.trans hle), ?_, ?_⟩
  · simp only [Payload.skip, h.ptr]
  · simp only [Payload.skip]
    omega

/-- Windows of the same length. -/
theorem Payload.Longer.moved (h : pd.Longer pd') (hlen : pd'.length = pd.length) :
    Payload.Moved 0 0 pd pd' :=
  ⟨h.wf, h.wf_right, ⟨Nat.zero_le _, h.ptr⟩, hlen⟩

theorem Mem.Sub.byte (hm : Mem.Sub m m') {n i : Nat} (h : m.Has 0 n) (hi : i < n) :
    m'.byte i = m.byte i := by
  obtain ⟨b, hb⟩ := Option.isSome_iff_exists.mp (h i (Nat.zero_le _) (by omega))
  rw [Mem.byte, Mem.byte, hb, hm i b hb]

theorem Mem.Sub.word (hm : Mem.Sub m m') {n i : Nat} (h : m.Has 0 n) (hi : i + 2 ≤ n) :
    m'.word i = m.word i := by
  rw [Mem.word, Mem.word, hm.byte h (by omega), hm.byte h (by omega)]

end Longer

/-! ## Complete packets -/

/-- The module finds all that it looks for in its window. -/
def Mod.Complete (m : Mem) (pd : Payload) : Mod → Prop
  | ethernet => 14 ≤ pd.length
  | dot1q => 4 ≤ pd.length
  | pppoe => 8 ≤ pd.length
  | arp => 8 ≤ pd.length ∧
    8 + 2 * ((m.byte (pd.ptr + 4)).toNat + (m.byte (pd.ptr + 5)).toNat) ≤ pd.length
  | ipv4 =>
    let hdrLen := ipv4HdrLen (m.byte pd.ptr)
    let totalLen := m.word (pd.ptr + 2)
    20 ≤ pd.length ∧ (totalLen < hdrLen ∨ max 20 hdrLen + (totalLen - hdrLen) ≤ pd.length)
  | _ => True

/-- **A packet from which nothing was cut**, as far as the headers tell. -/
def Packet.Complete (p : Packet) : Prop := ∀ x ∈ p.route, x.1.Complete p.mem x.2

instance (m : Mem) (pd : Payload) : (mod : Mod) → Decidable (mod.Complete m pd)
  | .ethernet => Nat.decLe 14 pd.length
  | .dot1q => Nat.decLe 4 pd.length
  | .pppoe => Nat.decLe 8 pd.length
  | .arp | .ipv4 => instDecidableAnd
  | .dhcp | .dns | .icmp | .ipv6 | .mdns | .tcp | .udp => .isTrue trivial

instance (p : Packet) : Decidable p.Complete :=
  inferInstanceAs (Decidable (∀ x ∈ p.route, x.1.Complete p.mem x.2))

/-- The modules that see the end of the frame. -/
def Mod.link : Mod → Bool
  | ethernet | dot1q | pppoe | arp | ipv4 => true
  | _ => false

/-- The cursors of a module in a complete packet and in one with more bytes: behind IPv4 the windows
are the same. -/
structure Payload.Padded (mod : Mod) (pd pd' : Payload) : Prop where
  longer : pd.Longer pd'
  length : mod.link = false → pd'.length = pd.length

/-- What a module leaves of the two. -/
structure Step.Padded (s s' : Step) : Prop where
  ops : s'.ops = s.ops
  next : s'.next = s.next
  pd : ∀ n, s.next = some n → Payload.Padded n s.pd s'.pd

section Padded

variable {pd pd' : Payload} {m m' : Mem}

/-- The addresses that fit are there in both. -/
theorem arpAddrs_padded (h : pd.Longer pd') (addrs : List (Nat × (Nat → Op)))
    (hs : (addrs.map Prod.fst).sum ≤ pd.length) :
    (arpAddrs pd' addrs).ops = (arpAddrs pd addrs).ops ∧
      (arpAddrs pd' addrs).next = none ∧ (arpAddrs pd addrs).next = none := by
  induction addrs generalizing pd pd' with
  | nil => exact ⟨rfl, rfl, rfl⟩
  | cons a rest ih =>
    rw [List.map_cons, List.sum_cons] at hs
    have ha : a.1 ≤ pd.length := by omega
    obtain ⟨hops, hnext, hnone⟩ := ih (h.skip ha) (by simp only [Payload.skip]; omega)
    rw [arpAddrs, arpAddrs, Payload.retain_eq h.wf, if_pos ha, Payload.retain_eq h.wf_right,
      if_pos (ha.trans h.length)]
    exact ⟨by simp only [hops, h.ptr], hnext, hnone⟩

/-- The options are there in both, and behind them the windows can be cut to the same length. -/
theorem ipv4Options_padded (h : pd.Longer pd') (hdrLen len : Nat)
    (hs : (hdrLen - 20) + len ≤ pd.length) :
    (ipv4Options pd' hdrLen).ops = (ipv4Options pd hdrLen).ops ∧
      Payload.Padded .tcp ((ipv4Options pd hdrLen).pd.shrink len)
        ((ipv4Options pd' hdrLen).pd.shrink len) := by
  have hcut : ∀ {q q' : Payload}, q.Longer q' → len ≤ q.length →
      Payload.Padded .tcp (q.shrink len) (q'.shrink len) := by
    intro q q' hq hlen
    have hle := hq.length
    refine ⟨⟨hq.wf.shrink _, hq.wf_right.shrink _, ?_, ?_⟩, fun _ => ?_⟩
    · rw [Payload.shrink_ptr, Payload.shrink_ptr, hq.ptr]
    · rw [Payload.shrink_length, Payload.shrink_length]
      omega
    · rw [Payload.shrink_length, Payload.shrink_length]
      omega
  unfold ipv4Options
  split
  · have ho : hdrLen - 20 ≤ pd.length := by omega
    rw [Payload.retain_eq h.wf, if_pos ho, Payload.retain_eq h.wf_right,
      if_pos (ho.trans h.length)]
    refine ⟨by simp only [h.ptr], hcut (h.skip ho) ?_⟩
    simp only [Payload.skip]
    omega
  · exact ⟨rfl, hcut h (Nat.le_of_add_left_le hs)⟩

variable (hm : Mem.Sub m m') (h : pd.Longer pd')
include hm h

theorem ethernetDecode_padded (hs : 14 ≤ pd.length) :
    Follows Step.Padded (ethernetDecode m pd) (ethernetDecode m' pd') := by
  rw [ethernetDecode, ethernetDecode, withHeader_eq h.wf hs,
    withHeader_eq h.wf_right (hs.trans h.length), h.ptr]
  refine (hm.u16 _).bind_eq fun type => follows_pure ⟨rfl, rfl, fun n hn => ⟨h.skip hs, ?_⟩⟩
  simp only [ethernetNext] at hn
  split_ifs at hn <;> obtain rfl := Option.some.inj hn <;> simp [Mod.link]

theorem dot1qDecode_padded (hs : 4 ≤ pd.length) :
    Follows Step.Padded (dot1qDecode m pd) (dot1qDecode m' pd') := by
  rw [dot1qDecode, dot1qDecode, withHeader_eq h.wf hs,
    withHeader_eq h.wf_right (hs.trans h.length), h.ptr]
  refine (hm.u16 _).bind_eq fun info => (hm.u16 _).bind_eq fun type => ?_
  refine follows_pure ⟨rfl, rfl, fun n hn => ⟨h.skip hs, ?_⟩⟩
  simp only [dot1qNext] at hn
  split_ifs at hn <;> obtain rfl := Option.some.inj hn <;> simp [Mod.link]

theorem pppoeDecode_padded (hs : 8 ≤ pd.length) :
    Follows Step.Padded (pppoeDecode m pd) (pppoeDecode m' pd') := by
  have h6 : 6 ≤ pd.length := by omega
  have hlen : 2 ≤ (pd.skip 6).length := by simp only [Payload.skip]; omega
  have hskip := h.skip h6
  rw [pppoeDecode, pppoeDecode, withHeader_eq h.wf h6,
    withHeader_eq h.wf_right (h6.trans h.length), h.ptr]
  refine (hm.u8 _).bind_eq fun b => ?_
  dsimp only
  rw [Payload.retain_eq hskip.wf, if_pos hlen, Payload.retain_eq hskip.wf_right,
    if_pos (hlen.trans hskip.length), hskip.ptr]
  refine (hm.u16 _).bind_eq fun proto => follows_pure ⟨rfl, rfl, fun n hn => ⟨hskip.skip hlen, ?_⟩⟩
  simp only at hn
  split_ifs at hn
  obtain rfl := Option.some.inj hn
  simp [Mod.link]

theorem arpDecode_padded (hhas : m.Has 0 pd.stop) (hc : Mod.arp.Complete m pd) :
    Follows Step.Padded (arpDecode m pd) (arpDecode m' pd') := by
  obtain ⟨hs, hall⟩ := hc
  have hw := h.wf.window
  have hb4 : m.u8 (pd.ptr + 4) = .ok (m.byte (pd.ptr + 4)) :=
    Mem.u8_eq hhas (by omega) (by omega)
  have hb5 : m.u8 (pd.ptr + 5) = .ok (m.byte (pd.ptr + 5)) :=
    Mem.u8_eq hhas (by omega) (by omega)
  rw [arpDecode, arpDecode, withHeader_eq h.wf hs, withHeader_eq h.wf_right (hs.trans h.length),
    h.ptr, hb4, (hm.u8 _).eq_ok hb4, hb5, (hm.u8 _).eq_ok hb5]
  refine (hm.u16 _).bind_eq fun op => follows_pure ?_
  obtain ⟨hops, hnext', hnext⟩ := arpAddrs_padded (h.skip hs) [
    ((m.byte (pd.ptr + 4)).toNat,
      fun ptr => .set .arpHwSrc (.pkt ptr) (m.byte (pd.ptr + 4)).toNat),
    ((m.byte (pd.ptr + 5)).toNat,
      fun ptr => .set .arpPrSrc (.pkt ptr) (m.byte (pd.ptr + 5)).toNat),
    ((m.byte (pd.ptr + 4)).toNat,
      fun ptr => .set .arpHwDst (.pkt ptr) (m.byte (pd.ptr + 4)).toNat),
    ((m.byte (pd.ptr + 5)).toNat,
      fun ptr => .set .arpPrDst (.pkt ptr) (m.byte (pd.ptr + 5)).toNat)]
    (by simp [Payload.skip]; omega)
  refine ⟨by simp only [hops], hnext'.trans hnext.symm, fun n hn => ?_⟩
  cases hnext.symm.trans hn

theorem ipv4Decode_padded (hhas : m.Has 0 pd.stop) (hc : Mod.ipv4.Complete m pd) :
    Follows Step.Padded (ipv4Decode m pd) (ipv4Decode m' pd') := by
  obtain ⟨hs, hall⟩ := hc
  have hw := h.wf.window
  have hfirst : m.u8 pd.ptr = .ok (m.byte pd.ptr) := Mem.u8_eq hhas (by omega) (by omega)
  have htotal : m.u16 (pd.ptr + 2) = .ok (m.word (pd.ptr + 2)) :=
    Mem.u16_eq hhas (by omega) (by omega)
  rw [ipv4Decode, ipv4Decode, withHeader_eq h.wf hs, withHeader_eq h.wf_right (hs.trans h.length),
    h.ptr, hfirst, (hm.u8 _).eq_ok hfirst, htotal, (hm.u16 _).eq_ok htotal]
  refine .ite (fun _ => follows_pure ⟨rfl, rfl, fun n hn => ?_⟩) fun hge => ?_
  · cases hn
  refine (hm.bytes _ 4).bind_eq fun src => (hm.bytes _ 4).bind_eq fun dst => ?_
  obtain ⟨hops, hcut⟩ := ipv4Options_padded (h.skip hs) (ipv4HdrLen (m.byte pd.ptr))
    (m.word (pd.ptr + 2) - ipv4HdrLen (m.byte pd.ptr)) (by simp only [Payload.skip]; omega)
  refine (hm.u8 _).bind_eq fun proto => follows_pure ⟨?_, rfl, fun n hn => ?_⟩
  · simp only [hops, hcut.longer.ptr, hcut.length rfl]
  · exact ⟨hcut.longer, fun _ => hcut.length rfl⟩

end Padded

/-- Windows of the same length are as good as the same cursor. -/
theorem Step.Moved.padded {s s' : Step} (h : Step.Moved 0 0 s s') : s.Padded s' := by
  refine ⟨h.ops.1.trans (opsMoved_zero s.ops).1.symm, h.next, fun n _ => ?_⟩
  exact ⟨⟨h.pd.wf, h.pd.wf_right, h.pd.ptr.2, Nat.le_of_eq h.pd.length.symm⟩, fun _ => h.pd.length⟩

section Padding

variable {cfg : TcpConfig τ} {st : TcpState τ} {e : Endpoints} {tv : Tcp.Timeval} {m m' : Mem}
  {mod : Mod} {pd pd' : Payload}

/-- **One module** does the same in a complete packet and in one with more bytes. -/
theorem decodeMod_padded (hm : Mem.Sub m m') (h : Payload.Padded mod pd pd')
    (hhas : m.Has 0 pd.stop) (hc : mod.Complete m pd) :
    Follows (fun r r' => r'.1 = r.1 ∧ r.2.Padded r'.2) (decodeMod cfg tv m st e pd mod)
      (decodeMod cfg tv m' st e pd' mod) := by
  have hl := h.longer
  have hret : ∀ {x y : Except Fault Step}, Follows Step.Padded x y →
      Follows (fun r r' : TcpState τ × Step => r'.1 = r.1 ∧ r.2.Padded r'.2)
        (do return (st, ← x)) (do return (st, ← y)) := by
    intro x y hxy
    exact hxy.bind fun s s' hs => follows_pure ⟨rfl, hs⟩
  by_cases hlink : mod.link = true
  · cases mod with
    | arp => exact hret (arpDecode_padded hm hl hhas hc)
    | dot1q => exact hret (dot1qDecode_padded hm hl hc)
    | ethernet => exact hret (ethernetDecode_padded hm hl hc)
    | ipv4 => exact hret (ipv4Decode_padded hm hl hhas hc)
    | pppoe => exact hret (pppoeDecode_padded hm hl hc)
    | _ => cases hlink
  · have hlen := h.length (Bool.eq_false_iff.mpr hlink)
    refine (decodeMod_follows hm (hl.moved hlen) mod).mono ?_
    rintro r r' ⟨hst, hs⟩
    exact ⟨hst, hs.padded⟩

/-- **The loop** makes the same calls. -/
theorem Loop.padded {next : Option Mod} {w w' : Worker τ} {vs : List Visit} {hi : Nat}
    (hm : Mem.Sub m m') (h : Loop cfg tv m next pd w vs w') (hhas : m.Has 0 hi)
    (hpd : ∀ mod, next = some mod → Payload.Padded mod pd pd')
    (hvs : ∀ v ∈ vs, v.Sound m hi ∧ v.mod.Complete m v.pd) :
    ∃ us, Loop cfg tv m' next pd' w us w' := by
  induction h generalizing pd' with
  | done pd w => exact ⟨[], .done pd' w⟩
  | @call mod pd w w' tcp s vs hmod hrest ih =>
    obtain ⟨⟨hsound, hc⟩, hvs⟩ := List.forall_mem_cons.mp hvs
    have hhas' : m.Has 0 pd.stop := by
      rw [show pd.stop = hi from hsound.stop]
      exact hhas
    obtain ⟨⟨tcp', s'⟩, hmod', rfl, hs⟩ := decodeMod_padded hm (hpd mod rfl) hhas' hc _ hmod
    obtain ⟨us, hus⟩ := ih hs.pd hvs
    refine ⟨⟨mod, pd', s'⟩ :: us, .call hmod' ?_⟩
    rw [hs.next, hs.ops]
    exact hus

end Padding

/-- **What follows a complete packet is invisible.** A worker in any state does the same, and a user
sees the same values, as far as the bytes that they point to are in the packet. -/
theorem padding_invisible (cfg : TcpConfig τ) (w : Worker τ) {p p' : Packet} (h : p.Before p')
    (hp : p.Complete) :
    w.process cfg p' = w.process cfg p ∧ Returns (w.process cfg p) fun w' =>
      ∀ ntop6 key path, Follows (Option.Rel Look.Sub) (w'.prop.observe ntop6 p.mem key path)
        (w'.prop.observe ntop6 p'.mem key path) := by
  obtain ⟨v, hv, vs, hloop, hsound, -, -, hroute⟩ := process_loop cfg w p
  obtain ⟨v', hv', vs', hloop', -⟩ := process_loop cfg w p'
  have hcomplete : ∀ x ∈ vs, x.mod.Complete p.mem x.pd := by
    intro x hx
    exact hp (x.mod, x.pd) (hroute ▸ List.mem_map_of_mem hx)
  obtain ⟨us, hus⟩ := hloop.padded h.sub p.has_all
    (fun mod hmod => ⟨h.longer, fun hl => by cases hmod; cases hl⟩)
    fun x hx => ⟨hsound x hx, hcomplete x hx⟩
  rw [h.tv] at hloop'
  obtain ⟨-, rfl⟩ := hus.unique hloop'
  exact ⟨hv'.trans hv.symm, v', hv, fun ntop6 key path => Property.observe_follows h.sub key path⟩

/-- The frame of a SYN, filled up to 60 bytes. -/
def paddedSyn : Packet :=
  ⟨4096, synPacket.data ++ [0, 0, 0, 0, 0, 0], ⟨1, 0⟩, by simp [synPacket, tcpFrame]⟩

theorem padding_invisible_syn :
    newWorker.process trackingConfig paddedSyn = newWorker.process trackingConfig synPacket ∧
      Returns (newWorker.process trackingConfig synPacket) fun w' => ∀ ntop6 key path,
        Follows (Option.Rel Look.Sub) (w'.prop.observe ntop6 synPacket.mem key path)
          (w'.prop.observe ntop6 paddedSyn.mem key path) :=
  padding_invisible trackingConfig newWorker ⟨⟨_, rfl⟩, rfl⟩ (by decide +kernel)

/-! ## Events -/

/-- The event of a name service, by the bit of its flags that the decoder looks at. -/
def NameService.ownEvents (ns : NameService) (m : Mem) (pd : Payload) : List Event :=
  if 12 ≤ pd.length then
    [if (m.byte (pd.ptr + 3)).toNat.testBit 7 then ns.evReply else ns.evQuery]
  else []

/-- The events that a module pushes besides its name, by the bytes of its header. -/
def Mod.ownEvents (m : Mem) (pd : Payload) : Mod → List Event
  | arp =>
    if 8 ≤ pd.length then
      if m.word (pd.ptr + 6) = 1 then [.arpRequest]
      else if m.word (pd.ptr + 6) = 2 then [.arpReply] else []
    else []
  | dns => Decode.dns.ownEvents m pd
  | mdns => Decode.mdns.ownEvents m pd
  | _ => []

/-- The events of a packet but for those of its session. -/
def Packet.ownEvents (p : Packet) : List Event :=
  p.route.flatMap fun x => .mod x.1 :: x.1.ownEvents p.mem x.2

/-- The events of calls, but for those of a session. -/
def plainEvents (ops : List Op) : List Event := (ops.filterMap Op.event?).filter (!·.ofSession)

theorem plainEvents_append (ops ops' : List Op) :
    plainEvents (ops ++ ops') = plainEvents ops ++ plainEvents ops' := by
  simp [plainEvents]

theorem plainEvents_nil {ops : List Op} (h : ∀ op ∈ ops, op.event? = none) :
    plainEvents ops = [] := by
  rw [plainEvents, List.filterMap_eq_nil_iff.mpr h]
  rfl

theorem plainEvents_onSession {ops : List Op} (h : ∀ op ∈ ops, op.OnSession) :
    plainEvents ops = [] := by
  refine List.filter_eq_nil_iff.mpr fun ev hev => ?_
  obtain ⟨op, hop, he⟩ := List.mem_filterMap.mp hev
  simp [(h op hop).event ev he]

section OwnEvents

variable {cfg : TcpConfig τ} {st : TcpState τ} {e : Endpoints} {tv : Tcp.Timeval} {m : Mem}
  {mod : Mod} {pd : Payload}

theorem arpAddrs_silent {addrs : List (Nat × (Nat → Op))}
    (ha : ∀ a ∈ addrs, ∀ ptr, (a.2 ptr).event? = none) :
    ∀ op ∈ (arpAddrs pd addrs).ops, op.event? = none := by
  induction addrs generalizing pd with
  | nil => simp [arpAddrs]
  | cons a rest ih =>
    obtain ⟨hfirst, hrest⟩ := List.forall_mem_cons.mp ha
    unfold arpAddrs
    split
    · simp
    · exact List.forall_mem_cons.mpr ⟨hfirst _, ih hrest⟩

theorem arpDecode_events (h : pd.WF) (hm : m.Has 0 pd.stop) :
    Ensures (arpDecode m pd) fun s => plainEvents s.ops = Mod.arp.ownEvents m pd := by
  have hw := h.window
  by_cases hs : 8 ≤ pd.length
  · rw [arpDecode, withHeader_eq h hs, Mem.u16_eq hm (by omega) (by omega)]
    refine ensures_bind fun hwLen => ensures_bind fun prLen => ensures_pure ?_
    dsimp only
    rw [plainEvents_append, plainEvents_append,
      plainEvents_nil (arpAddrs_silent (by simp [Op.event?])), List.append_nil, Mod.ownEvents,
      if_pos hs]
    split
    · rfl
    · split <;> rfl
  · rw [Mod.ownEvents, if_neg hs, arpDecode, withHeader, Payload.retain_eq h, if_neg hs]
    exact ensures_ok rfl

theorem NameService.decode_events {ns : NameService} (hns : ns.In mod)
    (hq : ns.evQuery.ofSession = false ∧ ns.evReply.ofSession = false) (h : pd.WF)
    (hm : m.Has 0 pd.stop) :
    Ensures (ns.decode m pd) fun s => plainEvents s.ops = ns.ownEvents m pd := by
  intro s hs
  by_cases hlen : 12 ≤ pd.length
  · have hpushed := pushed_eq hns ⟨m, pd, h, hm, hlen⟩
    rw [NameService.pushed, hs] at hpushed
    rw [plainEvents, show s.ops.filterMap Op.event? = _ from Except.ok.inj hpushed,
      NameService.ownEvents, if_pos hlen, NsPayload.ra]
    split <;> simp [hq]
  · rw [NameService.decode, NameService.nsDecode, Payload.retain_eq h, if_neg hlen] at hs
    obtain rfl := Except.ok.inj hs
    rw [NameService.ownEvents, if_neg hlen]
    rfl

theorem dhcpOptionsLoop_silent : ∀ (fuel : Nat) (pd : Payload),
    Ensures (dhcpOptionsLoop m fuel pd) fun s => ∀ op ∈ s.ops, op.event? = none
  | 0, _ => ensures_error
  | fuel + 1, pd => by
    unfold dhcpOptionsLoop
    cases pd.retain 2 with
    | none => exact ensures_ok (by simp)
    | some r =>
      refine ensures_bind fun type => ?_
      split
      · exact ensures_pure (by simp)
      · refine ensures_bind fun len => ?_
        dsimp only
        cases r.2.retain len.toNat with
        | none => exact ensures_pure (by simp)
        | some r' =>
          refine (dhcpOptionsLoop_silent fuel r'.2).bind fun s hs => ensures_pure ?_
          exact List.forall_mem_cons.mpr ⟨rfl, hs⟩

theorem dhcpHeader_silent (hdr hwAddrLen : Nat) (hostName bootFile : UInt8) :
    ∀ op ∈ dhcpHeader hdr hwAddrLen hostName bootFile, op.event? = none := by
  unfold dhcpHeader
  split <;> split <;> simp [Op.event?]

theorem dhcpDecode_silent :
    Ensures (dhcpDecode m pd) fun s => ∀ op ∈ s.ops, op.event? = none := by
  refine withHeader_ensures (by simp) fun hdr pd => ?_
  refine ensures_bind fun hwLen => ensures_bind fun host => ensures_bind fun boot => ?_
  refine (dhcpOptionsLoop_silent _ _).bind fun s hs => ensures_pure fun op hop => ?_
  exact (List.mem_append.mp hop).elim (dhcpHeader_silent _ _ _ _ op) (hs op)

theorem setProperties_silent {hdr : Nat} :
    Ensures (setProperties m hdr pd) fun r => ∀ op ∈ r.2.1, op.event? = none := by
  unfold setProperties
  refine ensures_bind fun sport => ensures_bind fun dport => ensures_bind fun b => ?_
  dsimp only
  split
  · split <;> exact ensures_pure (by simp [Op.event?])
  · exact ensures_pure (by simp [Op.event?])

/-- `TCP::decode` pushes events of sessions only. -/
theorem tcpDecode_events :
    Ensures (tcpDecode cfg st e tv m pd) fun r => plainEvents r.2.ops = [] := by
  unfold tcpDecode
  cases pd.retain 20 with
  | none => exact ensures_ok rfl
  | some r =>
    refine setProperties_silent.bind ?_
    rintro ⟨q, ops, ok⟩ hops
    dsimp only at hops ⊢
    have hseg : ∀ op ∈ (if q.length > 0 then [Op.set .tcpSegment (.pkt q.ptr) q.length] else []),
        op.event? = none := by
      split <;> simp [Op.event?]
    split
    · exact ensures_pure (plainEvents_nil hops)
    · split
      · refine ensures_bind fun sport => ensures_bind fun dport => sessionMgmt_only.bind ?_
        rintro ⟨st', ssnOps⟩ hssn
        refine ensures_pure ?_
        simp only [plainEvents_append, plainEvents_nil hops, plainEvents_nil hseg,
          plainEvents_onSession hssn, List.append_nil]
      · refine ensures_pure ?_
        simp only [plainEvents_append, plainEvents_nil hops, plainEvents_nil hseg, List.append_nil]

/-- **The events of a module, but for those of sessions, are decided by its header.** -/
theorem decodeMod_events (h : pd.WF) (hm : m.Has 0 pd.stop) :
    Ensures (decodeMod cfg tv m st e pd mod) fun r => plainEvents r.2.ops = mod.ownEvents m pd := by
  have hret : ∀ {x : Except Fault Step} {evs : List Event},
      Ensures x (fun s => plainEvents s.ops = evs) →
      Ensures (do return (st, ← x)) fun r : TcpState τ × Step => plainEvents r.2.ops = evs := by
    intro x evs hx
    exact hx.bind fun s hs => ensures_pure hs
  have hnone : ∀ {x : Except Fault Step}, Ensures x (fun s => ∀ op ∈ s.ops, op.event? = none) →
      Ensures (do return (st, ← x)) fun r : TcpState τ × Step => plainEvents r.2.ops = [] := by
    intro x hx
    exact hret (hx.mono fun s hs => plainEvents_nil hs)
  have hsilent : ∀ {mod : Mod}, mod = .ethernet ∨ mod = .dot1q ∨ mod = .pppoe ∨ mod = .ipv4 →
      Ensures (decodeMod cfg tv m st e pd mod) fun r => plainEvents r.2.ops = [] :=
    fun hmod => (decodeMod_silent hmod).mono fun r hr => plainEvents_nil hr
  cases mod with
  | arp => exact hret (arpDecode_events h hm)
  | dhcp => exact hnone dhcpDecode_silent
  | dns => exact hret (NameService.decode_events dns_in ⟨rfl, rfl⟩ h hm)
  | dot1q => exact hsilent (by simp)
  | ethernet => exact hsilent (by simp)
  | icmp =>
    refine hnone (withHeader_ensures (by simp) fun hdr pd => ensures_bind fun type => ?_)
    exact ensures_pure (by simp [Op.event?])
  | ipv4 => exact hsilent (by simp)
  | ipv6 =>
    refine hnone (withHeader_ensures (by simp) fun hdr pd => ensures_bind fun src => ?_)
    exact ensures_bind fun dst => ensures_bind fun next => ensures_pure (by simp [Op.event?])
  | mdns => exact hret (NameService.decode_events mdns_in ⟨rfl, rfl⟩ h hm)
  | pppoe => exact hsilent (by simp)
  | tcp => exact tcpDecode_events
  | udp =>
    refine hnone (withHeader_ensures (by simp) fun hdr pd => ensures_bind fun sport => ?_)
    exact ensures_bind fun dport => ensures_pure (by simp [Op.event?])

/-- **But for those of its session, the events of a packet follow from its bytes.** -/
theorem process_events {w : Worker τ} (hw : w.prop.WF) (p : Packet) :
    Returns (w.process cfg p) fun w' =>
      w'.prop.events.filter (!·.ofSession) = p.ownEvents := by
  refine (process_loop cfg w p).mono ?_
  rintro w' ⟨vs, hloop, hsound, -, -, hroute⟩
  have hvisit : ∀ v ∈ vs, plainEvents v.ops = .mod v.mod :: v.mod.ownEvents p.mem v.pd := by
    intro v hv
    obtain ⟨st, e, st', hcall⟩ := hloop.called v hv
    have hs := hsound v hv
    have hown := decodeMod_events hs.wf (by rw [hs.stop]; exact p.has_all) _ hcall
    exact congrArg (Event.mod v.mod :: ·) hown
  have hprop : w'.prop = w.prop.init.exec (vs.flatMap Visit.ops) := hloop.exec_eq
  have hnil : w.prop.init.events = [] := List.take_zero
  rw [hprop, events_exec hw.init.events, hnil, List.nil_append, Packet.ownEvents, ← hroute,
    List.flatMap_map]
  clear hloop hprop hroute
  induction vs with
  | nil => rfl
  | cons v vs ih =>
    obtain ⟨hv, hvs⟩ := List.forall_mem_cons.mp hvisit
    rw [List.flatMap_cons, List.flatMap_cons, ← hv, ← ih (List.forall_mem_cons.mp hsound).2 hvs]
    exact plainEvents_append _ _

end OwnEvents

/-! ## Packets that were cut -/

/-- No IPv4 options were cut: the decoder would go on 20 bytes behind the start of the header. -/
def Packet.OptionsFit (p : Packet) : Prop :=
  ∀ x ∈ p.route, x.1 = .ipv4 → 20 ≤ x.2.length →
    ipv4HdrLen (p.mem.byte x.2.ptr) ≤ x.2.length

instance (p : Packet) : Decidable p.OptionsFit := List.decidableBAll _ _

section Cut

variable {m m' : Mem} {mod : Mod} {pd pd' : Payload}

/-- A header that fits is in both packets. -/
theorem Mod.ownEvents_prefix (hm : Mem.Sub m m') (h : pd.Longer pd') (hhas : m.Has 0 pd.stop) :
    mod.ownEvents m pd <+: mod.ownEvents m' pd' := by
  have hw := h.wf.window
  have hle := h.length
  have hns : ∀ ns : NameService, ns.ownEvents m pd <+: ns.ownEvents m' pd' := by
    intro ns
    unfold NameService.ownEvents
    by_cases hs : 12 ≤ pd.length
    · rw [if_pos hs, if_pos (hs.trans hle), h.ptr, hm.byte hhas (by omega)]
    · rw [if_neg hs]
      exact List.nil_prefix
  cases mod with
  | arp =>
    unfold Mod.ownEvents
    by_cases hs : 8 ≤ pd.length
    · rw [if_pos hs, if_pos (hs.trans hle), h.ptr, hm.word hhas (by omega)]
    · rw [if_neg hs]
      exact List.nil_prefix
  | dns => exact hns _
  | mdns => exact hns _
  | _ => exact List.prefix_refl _

/-- The modules with a successor push no events of their own. -/
theorem ownEvents_of_next {x : Mod × Payload} (h : nextOf m mod pd = some x) (m' : Mem)
    (pd' : Payload) : mod.ownEvents m' pd' = [] := by
  cases mod with
  | arp | dns | mdns => cases h
  | _ => rfl

theorem Payload.Longer.shrink (h : pd.Longer pd') (len : Nat) :
    (pd.shrink len).Longer (pd'.shrink len) := by
  have hle := h.length
  refine ⟨h.wf.shrink len, h.wf_right.shrink len, ?_, ?_⟩
  · rw [Payload.shrink_ptr, Payload.shrink_ptr, h.ptr]
  · rw [Payload.shrink_length, Payload.shrink_length]
    omega

/-- Options that fit are skipped in both packets. -/
theorem ipv4Options_longer (h : pd.Longer pd') {hdrLen : Nat} (hs : hdrLen - 20 ≤ pd.length) :
    (ipv4Options pd hdrLen).pd.Longer (ipv4Options pd' hdrLen).pd := by
  unfold ipv4Options
  split
  · rw [Payload.retain_eq h.wf, if_pos hs, Payload.retain_eq h.wf_right, if_pos (hs.trans h.length)]
    exact h.skip hs
  · exact h

/-- **The next module is the same**, and again it has no fewer bytes. -/
theorem nextOf_longer {next : Mod} {q : Payload} (hm : Mem.Sub m m') (h : pd.Longer pd')
    (hhas : m.Has 0 pd.stop)
    (hfit : mod = .ipv4 → 20 ≤ pd.length → ipv4HdrLen (m.byte pd.ptr) ≤ pd.length)
    (hn : nextOf m mod pd = some (next, q)) :
    ∃ q', nextOf m' mod pd' = some (next, q') ∧ q.Longer q' := by
  have hw := h.wf.window
  have hle := h.length
  have hsome : ∀ {o : Option Mod} {r r' : Payload}, r.Longer r' → o.map (·, r) = some (next, q) →
      ∃ q', o.map (·, r') = some (next, q') ∧ q.Longer q' := by
    intro o r r' hr ho
    obtain ⟨x, rfl, hx⟩ := Option.map_eq_some_iff.mp ho
    obtain ⟨rfl, rfl⟩ := Prod.mk.inj hx
    exact ⟨r', rfl, hr⟩
  cases mod with
  | ethernet =>
    obtain ⟨hs, hn⟩ := Option.ite_none_right_eq_some.mp hn
    have htype := hm.word hhas (i := pd.ptr + 12) (by omega)
    simp only [nextOf, if_pos (hs.trans hle), h.ptr, htype]
    exact hsome (h.skip hs) hn
  | dot1q =>
    obtain ⟨hs, hn⟩ := Option.ite_none_right_eq_some.mp hn
    have htype := hm.word hhas (i := pd.ptr + 2) (by omega)
    simp only [nextOf, if_pos (hs.trans hle), h.ptr, htype]
    exact hsome (h.skip hs) hn
  | pppoe =>
    obtain ⟨hs, hn⟩ := Option.ite_none_right_eq_some.mp hn
    have hproto := hm.word hhas (i := pd.ptr + 6) (by omega)
    simp only [nextOf, if_pos (hs.trans hle), h.ptr, hproto]
    exact hsome (h.skip hs) hn
  | ipv4 =>
    obtain ⟨⟨hs, htotal⟩, hn⟩ := Option.ite_none_right_eq_some.mp hn
    have hfirst := hm.byte hhas (i := pd.ptr) (by omega)
    have hproto := hm.byte hhas (i := pd.ptr + 9) (by omega)
    have hlen := hm.word hhas (i := pd.ptr + 2) (by omega)
    have hopts : ipv4HdrLen (m.byte pd.ptr) - 20 ≤ (pd.skip 20).length :=
      Nat.sub_le_sub_right (hfit rfl hs) 20
    simp only [nextOf, h.ptr, hfirst, hproto, hlen]
    rw [if_pos ⟨hs.trans hle, htotal⟩]
    exact hsome ((ipv4Options_longer (h.skip hs) hopts).shrink _) hn
  | udp =>
    obtain ⟨hs, hn⟩ := Option.ite_none_right_eq_some.mp hn
    have hsport := hm.word hhas (i := pd.ptr) (by omega)
    have hdport := hm.word hhas (i := pd.ptr + 2) (by omega)
    simp only [nextOf, if_pos (hs.trans hle), h.ptr, hsport, hdport]
    exact hsome (h.skip hs) hn
  | arp | dhcp | dns | icmp | ipv6 | mdns | tcp => cases hn

/-- The end of the packet stays where it is. -/
theorem nextOf_stop {next : Mod} {q : Payload} (h : pd.WF)
    (hn : nextOf m mod pd = some (next, q)) : q.stop = pd.stop := by
  have hsome : ∀ {o : Option Mod} {r : Payload}, o.map (·, r) = some (next, q) → q = r := by
    intro o r ho
    obtain ⟨x, -, hx⟩ := Option.map_eq_some_iff.mp ho
    exact (Prod.mk.inj hx).2.symm
  cases mod with
  | ethernet | dot1q | pppoe | udp =>
    rw [hsome (Option.ite_none_right_eq_some.mp hn).2]
    rfl
  | ipv4 =>
    obtain ⟨⟨hs, -⟩, hn⟩ := Option.ite_none_right_eq_some.mp hn
    have hopts := (ipv4Options_calm (h.skip hs) (ipv4HdrLen (m.byte pd.ptr))).stop
    rw [hsome hn, Payload.shrink]
    split <;> exact hopts
  | arp | dhcp | dns | icmp | ipv6 | mdns | tcp => cases hn

/-- **The ways of the two packets**: the events of the shorter one come first. -/
theorem route_events_prefix (hm : Mem.Sub m m') (fuel : Nat) (h : pd.Longer pd')
    (hhas : m.Has 0 pd.stop)
    (hfit : ∀ x ∈ route m fuel mod pd, x.1 = .ipv4 → 20 ≤ x.2.length →
      ipv4HdrLen (m.byte x.2.ptr) ≤ x.2.length) :
    (route m fuel mod pd).flatMap (fun x => .mod x.1 :: x.1.ownEvents m x.2) <+:
      (route m' fuel mod pd').flatMap fun x => .mod x.1 :: x.1.ownEvents m' x.2 := by
  induction fuel generalizing mod pd pd' with
  | zero => exact List.nil_prefix
  | succ fuel ih =>
    have hown : mod.ownEvents m pd <+: mod.ownEvents m' pd' := Mod.ownEvents_prefix hm h hhas
    rw [route] at hfit ⊢
    rw [route, List.flatMap_cons, List.flatMap_cons]
    cases hn : nextOf m mod pd with
    | none =>
      rw [List.flatMap_nil, List.append_nil]
      exact ((List.prefix_cons_inj _).mpr hown).trans (List.prefix_append _ _)
    | some x =>
      obtain ⟨next, q⟩ := x
      rw [hn] at hfit
      obtain ⟨q', hn', hq⟩ := nextOf_longer hm h hhas
        (hfit (mod, pd) List.mem_cons_self) hn
      rw [hn', ownEvents_of_next hn, ownEvents_of_next hn]
      refine (List.prefix_append_right_inj _).mpr (ih hq (nextOf_stop h.wf hn ▸ hhas) ?_)
      exact fun x hx => hfit x (List.mem_cons_of_mem _ hx)

end Cut

/-- **A packet that was cut shows the first events.** Two workers with any settings and any packets
before are given a packet and one that continues it: but for the events of sessions, those of the
first are a prefix of those of the second, when no IPv4 options were cut. -/
theorem cut_events (cfg : TcpConfig τ) (cfg' : TcpConfig τ') (tcp : TcpState τ) (tcp' : TcpState τ')
    (hist hist' : List (Packet × List Key)) {p p' : Packet} (h : p.Before p') (hp : p.OptionsFit) :
    Returns (Worker.run cfg { tcp } hist) fun w => Returns (w.process cfg p) fun v =>
      Returns (Worker.run cfg' { tcp := tcp' } hist') fun w' =>
        Returns (w'.process cfg' p') fun v' =>
          v.prop.events.filter (!·.ofSession) <+: v'.prop.events.filter (!·.ofSession) := by
  refine (run_returns Property.wf_empty hist).mono fun w hw => ?_
  refine (process_events hw p).mono fun v hv => ?_
  refine (run_returns Property.wf_empty hist').mono fun w' hw' => ?_
  refine (process_events hw' p').mono fun v' hv' => ?_
  rw [hv, hv']
  exact route_events_prefix h.sub 6 h.longer p.has_all hp

/-- The same frame, cut behind the first 20 bytes of its IPv4 packet. -/
def cutSyn : Packet := ⟨4096, synPacket.data.take 34, ⟨1, 0⟩, by simp [synPacket, tcpFrame]⟩

theorem cut_events_syn :
    Returns (Worker.run trackingConfig { tcp := newWorker.tcp } []) fun w =>
      Returns (w.process trackingConfig cutSyn) fun v =>
        Returns (Worker.run trackingConfig { tcp := newWorker.tcp } []) fun w' =>
          Returns (w'.process trackingConfig synPacket) fun v' =>
            v.prop.events.filter (!·.ofSession) <+: v'.prop.events.filter (!·.ofSession) :=
  cut_events trackingConfig trackingConfig _ _ [] [] ⟨⟨_, rfl⟩, rfl⟩ (by decide +kernel)

end PacketMachine.Decode
