import PacketMachine.Decode.TcpModule

/-!
# `Decoder::decode` and the use of one `Property` for many packets

Model of `Decoder::decode` (`decoder.cc:157-174`): from Ethernet on, each module names the next. What a
worker does with a packet is `init`, `Payload::reset` and `decode` (`Worker.process`); between packets a
user may read values (`Worker.use`).

* No module names one that comes before it, so at most six are called (`Mod.rank`).
* `Packet.dhcpAt` follows the headers to the one of DHCP, by the bytes alone.

Results:
* **`decodeLoop_returns`**: decoding reads only the packet, ends, and fails no assertion; all its calls
  fit the packet, and the hardware address of DHCP is set exactly where `dhcpAt` says.
* **`process_returns`**: the same for `init`, `reset` and `decode`.
-/

namespace PacketMachine.Decode

open PacketMachine.Lib

variable {τ : Type}

/-! ## The code -/

/-- `modules_[next]->decode(pd, prop)`. -/
def decodeMod (cfg : TcpConfig τ) (tv : Tcp.Timeval) (m : Mem) (st : TcpState τ) (e : Endpoints)
    (pd : Payload) : Mod → Except Fault (TcpState τ × Step)
  | .arp => return (st, ← arpDecode m pd)
  | .dhcp => return (st, ← dhcpDecode m pd)
  | .dns => return (st, ← dns.decode m pd)
  | .dot1q => return (st, ← dot1qDecode m pd)
  | .ethernet => return (st, ← ethernetDecode m pd)
  | .icmp => return (st, ← icmpDecode m pd)
  | .ipv4 => return (st, ← ipv4Decode m pd)
  | .ipv6 => return (st, ← ipv6Decode m pd)
  | .mdns => return (st, ← mdns.decode m pd)
  | .pppoe => return (st, ← pppoeDecode m pd)
  | .tcp => tcpDecode cfg st e tv m pd
  | .udp => return (st, ← udpDecode m pd)

/-- What a worker keeps from packet to packet. -/
structure Worker (τ : Type) where
  tcp : TcpState τ
  prop : Property := {}

/-- `Decoder::decode`. -/
def decodeLoop (cfg : TcpConfig τ) (tv : Tcp.Timeval) (m : Mem) :
    Nat → Mod → Payload → Worker τ → Except Fault (Worker τ)
  | 0, _, _, _ => .error .fuel
  | fuel + 1, mod, pd, w => do
    let q := w.prop.pushEvent (.mod mod)
    let (tcp, s) ← decodeMod cfg tv m w.tcp q.ends pd mod
    let w := { tcp, prop := q.exec s.ops }
    match s.next with
    | none => return w
    | some next => decodeLoop cfg tv m fuel next s.pd w

/-- `prop->init(pkt); pd.reset(pkt); dec->decode(&pd, prop)`. -/
def Worker.process (cfg : TcpConfig τ) (w : Worker τ) (p : Packet) : Except Fault (Worker τ) :=
  decodeLoop cfg p.tv p.mem 6 .ethernet (Payload.reset p) { w with prop := w.prop.init }

/-- Calls of `Property::value`. -/
def Property.reads (m : Mem) (q : Property) (keys : List Key) : Except Fault Property :=
  keys.foldlM (fun q key => return (← q.value m key).1) q

/-- A packet is processed and some of its values are read. -/
def Worker.use (cfg : TcpConfig τ) (w : Worker τ) (u : Packet × List Key) :
    Except Fault (Worker τ) := do
  let w ← w.process cfg u.1
  return { w with prop := ← w.prop.reads u.1.mem u.2 }

/-- The packets that a worker has seen, one after the other. -/
def Worker.run (cfg : TcpConfig τ) (w : Worker τ) (us : List (Packet × List Key)) :
    Except Fault (Worker τ) :=
  us.foldlM (Worker.use cfg) w

theorem Worker.run_cons (cfg : TcpConfig τ) (w : Worker τ) (u : Packet × List Key)
    (us : List (Packet × List Key)) :
    w.run cfg (u :: us) = w.use cfg u >>= fun w' => w'.run cfg us := List.foldlM_cons

theorem Worker.run_of_use {cfg : TcpConfig τ} {w w' : Worker τ} {u : Packet × List Key}
    (h : w.use cfg u = .ok w') (us : List (Packet × List Key)) :
    w.run cfg (u :: us) = w'.run cfg us := by
  rw [Worker.run_cons, h]
  rfl

/-! ## The way to DHCP -/

/-- Where the DHCP header is behind a UDP header at `i`, with `n` bytes from there on. -/
def udpToDhcp (m : Mem) (i n : Nat) : Option Nat :=
  if 8 + 240 ≤ n ∧ udpNext (m.word i) (m.word (i + 2)) = some .dhcp then some (i + 8) else none

/-- The same for an IPv4 header: options that do not fit are not skipped, and a total length that is
too large is cut. -/
def ipv4ToDhcp (m : Mem) (i n : Nat) : Option Nat :=
  let hdrLen := ipv4HdrLen (m.byte i)
  let totalLen := m.word (i + 2)
  if 20 ≤ n ∧ hdrLen ≤ totalLen ∧ m.byte (i + 9) = 17 then
    let skip := if 20 < hdrLen ∧ hdrLen ≤ n then hdrLen else 20
    udpToDhcp m (i + skip) (min (totalLen - hdrLen) (n - skip))
  else none

/-- The same for a PPPoE header. -/
def pppoeToDhcp (m : Mem) (i n : Nat) : Option Nat :=
  if 8 ≤ n ∧ m.word (i + 6) = 0x21 then ipv4ToDhcp m (i + 8) (n - 8) else none

/-- The same for a VLAN tag. -/
def dot1qToDhcp (m : Mem) (i n : Nat) : Option Nat :=
  if n < 4 then none
  else if m.word (i + 2) = 0x0800 then ipv4ToDhcp m (i + 4) (n - 4)
  else if m.word (i + 2) = 0x8864 then pppoeToDhcp m (i + 4) (n - 4)
  else none

/-- The same for an Ethernet header. -/
def ethernetToDhcp (m : Mem) (i n : Nat) : Option Nat :=
  if n < 14 then none
  else if m.word (i + 12) = 0x0800 then ipv4ToDhcp m (i + 14) (n - 14)
  else if m.word (i + 12) = 0x8100 then dot1qToDhcp m (i + 14) (n - 14)
  else if m.word (i + 12) = 0x8864 then pppoeToDhcp m (i + 14) (n - 14)
  else none

/-- **Where the DHCP header of a packet is**, if it has one. -/
def Packet.dhcpAt (p : Packet) : Option Nat := ethernetToDhcp p.mem 0 p.data.length

/-- The same from any module on. -/
def dhcpFrom (m : Mem) (mod : Mod) (pd : Payload) : Option Nat :=
  match mod with
  | .ethernet => ethernetToDhcp m pd.ptr pd.length
  | .dot1q => dot1qToDhcp m pd.ptr pd.length
  | .pppoe => pppoeToDhcp m pd.ptr pd.length
  | .ipv4 => ipv4ToDhcp m pd.ptr pd.length
  | .udp => udpToDhcp m pd.ptr pd.length
  | .dhcp => if 240 ≤ pd.length then some pd.ptr else none
  | _ => none

/-- The range that `DHCP.client_hw_addr` is set to. -/
def hwRange (m : Mem) (d : Nat) : Ptr × Nat := (.pkt (d + 28), (m.byte (d + 2)).toNat)

/-! ## One module -/

/-- The number of modules that may follow. -/
def Mod.rank : Mod → Nat
  | ethernet => 5
  | dot1q => 4
  | pppoe => 3
  | ipv4 | ipv6 => 2
  | udp => 1
  | _ => 0

/-- What a module leaves, with what comes of it. -/
structure Step.Leads (m : Mem) (mod : Mod) (pd : Payload) (s : Step) : Prop where
  fits : s.Fits pd
  first : FirstDataWithin pd.stop s.ops
  data : s.next = none ∨ fills .tcpData s.ops = []
  next : ∀ next, s.next = some next → next.rank < mod.rank ∧ next ≠ .ipv6 ∧
    (next = .tcp → ∀ q : Property, (q.exec s.ops).Paired)
  hwAddr : fills .dhcpClientHwAddr s.ops ++ (s.next.bind (dhcpFrom m · s.pd)).toList.map (hwRange m)
    = (dhcpFrom m mod pd).toList.map (hwRange m)

section Module

variable {m : Mem} {mod : Mod} {pd : Payload} {s : Step}

theorem Step.Calm.leads (hs : s.Calm pd)
    (hnext : ∀ next, s.next = some next → next.rank < mod.rank ∧ next ≠ .ipv6 ∧
      (next = .tcp → ∀ q : Property, (q.exec s.ops).Paired))
    (hroute : s.next.bind (dhcpFrom m · s.pd) = dhcpFrom m mod pd) : s.Leads m mod pd := by
  have hdata : fills .tcpData s.ops = [] := fills_eq_nil fun op hop => (hs.ops op hop).2.1
  refine ⟨hs.fits, ?_, .inr hdata, hnext, ?_⟩
  · intro r hr
    rw [hdata] at hr
    cases hr
  · rw [fills_eq_nil fun op hop => (hs.ops op hop).2.2, hroute]
    rfl

/-- A module without a successor. -/
theorem Step.Calm.leads_none (hs : s.Calm pd) (hn : s.next = none) (hd : dhcpFrom m mod pd = none) :
    s.Leads m mod pd := by
  refine hs.leads (fun next h => ?_) ?_
  · rw [hn] at h
    cases h
  · rw [hn, hd]
    rfl

/-- A module whose successor, when its header fits, is not TCP and ranks below it. -/
theorem Step.Calm.leads_ite {fits : Prop} [Decidable fits] {pd' : Payload} {succ : Option Mod}
    (hs : s.Calm pd) (hnext : if fits then s.pd = pd' ∧ s.next = succ else s.next = none)
    (hmods : ∀ next, succ = some next → next.rank < mod.rank ∧ next ≠ .ipv6 ∧ next ≠ .tcp)
    (hroute : fits → succ.bind (dhcpFrom m · pd') = dhcpFrom m mod pd)
    (hnone : ¬ fits → dhcpFrom m mod pd = none) : s.Leads m mod pd := by
  split at hnext
  · rename_i hfits
    obtain ⟨hpd, hsucc⟩ := hnext
    refine hs.leads (fun next hn => ?_) (by rw [hsucc, hpd, hroute hfits])
    obtain ⟨hrank, h6, htcp⟩ := hmods next (hsucc ▸ hn)
    exact ⟨hrank, h6, fun h => absurd h htcp⟩
  · rename_i hfits
    exact hs.leads_none hnext (hnone hfits)

theorem ethernetDecode_leads (h : pd.WF) (hm : m.Has 0 pd.stop) :
    Returns (ethernetDecode m pd) (Step.Leads m .ethernet pd) := by
  refine (ethernetDecode_returns h hm).mono ?_
  rintro s ⟨hs, hnext⟩
  refine hs.leads_ite hnext (fun next hn => ?_) (fun hlen => ?_) fun hlen => ?_
  · unfold ethernetNext at hn
    split_ifs at hn <;> obtain rfl := Option.some.inj hn <;> simp [Mod.rank]
  · simp only [ethernetNext, dhcpFrom, ethernetToDhcp, if_neg (Nat.not_lt.mpr hlen)]
    split_ifs <;> first | rfl | omega
  · simp only [dhcpFrom, ethernetToDhcp]
    rw [if_pos (Nat.not_le.mp hlen)]

theorem dot1qDecode_leads (h : pd.WF) (hm : m.Has 0 pd.stop) :
    Returns (dot1qDecode m pd) (Step.Leads m .dot1q pd) := by
  refine (dot1qDecode_returns h hm).mono ?_
  rintro s ⟨hs, hnext⟩
  refine hs.leads_ite hnext (fun next hn => ?_) (fun hlen => ?_) fun hlen => ?_
  · unfold dot1qNext at hn
    split_ifs at hn <;> obtain rfl := Option.some.inj hn <;> simp [Mod.rank]
  · simp only [dot1qNext, dhcpFrom, dot1qToDhcp, if_neg (Nat.not_lt.mpr hlen)]
    split_ifs <;> first | rfl | omega
  · simp only [dhcpFrom, dot1qToDhcp]
    rw [if_pos (Nat.not_le.mp hlen)]

theorem pppoeDecode_leads (h : pd.WF) (hm : m.Has 0 pd.stop) :
    Returns (pppoeDecode m pd) (Step.Leads m .pppoe pd) := by
  refine (pppoeDecode_returns h hm).mono ?_
  rintro s ⟨hs, hnext⟩
  refine hs.leads_ite hnext (fun next hn => ?_) (fun hlen => ?_) fun hlen => ?_
  · split_ifs at hn
    obtain rfl := Option.some.inj hn
    simp [Mod.rank]
  · simp only [dhcpFrom, pppoeToDhcp, hlen, true_and]
    split_ifs <;> rfl
  · simp only [dhcpFrom, pppoeToDhcp]
    rw [if_neg (fun hc => hlen hc.1)]

/-- The cursor that `IPv4` hands to the next module. -/
theorem ipv4_window (h : pd.WF) (h20 : 20 ≤ pd.length) (hdrLen len : Nat) :
    let pd' := (ipv4Options (pd.skip 20) hdrLen).pd.shrink len
    let skip := if 20 < hdrLen ∧ hdrLen ≤ pd.length then hdrLen else 20
    pd'.ptr = pd.ptr + skip ∧ pd'.length = min len (pd.length - skip) := by
  have hlen : (pd.skip 20).length = pd.length - 20 := rfl
  dsimp only
  rw [Payload.shrink_ptr, Payload.shrink_length, ipv4Options_pd (h.skip h20), hlen]
  by_cases hc : 20 < hdrLen ∧ hdrLen ≤ pd.length
  · rw [if_pos hc, if_pos (by omega)]
    simp only [Payload.skip]
    omega
  · rw [if_neg hc, if_neg (by omega)]
    exact ⟨rfl, rfl⟩

theorem ipv4Next_cases {proto : UInt8} {next : Mod} (h : ipv4Next proto = some next) :
    next = .icmp ∨ next = .tcp ∨ next = .udp ∧ proto = 17 := by
  unfold ipv4Next at h
  split_ifs at h with _ _ h17
  · exact .inl (Option.some.inj h).symm
  · exact .inr (.inl (Option.some.inj h).symm)
  · exact .inr (.inr ⟨(Option.some.inj h).symm, h17⟩)

theorem ipv4Decode_leads (h : pd.WF) (hm : m.Has 0 pd.stop) :
    Returns (ipv4Decode m pd) (Step.Leads m .ipv4 pd) := by
  refine (ipv4Decode_returns h hm).mono ?_
  rintro s ⟨hs, hpaired, hnext⟩
  split at hnext
  · rename_i hlen
    obtain ⟨h20, hle⟩ := hlen
    obtain ⟨hpd, hnext⟩ := hnext
    obtain ⟨hptr, hlen⟩ := ipv4_window h h20 (ipv4HdrLen (m.byte pd.ptr))
      (m.word (pd.ptr + 2) - ipv4HdrLen (m.byte pd.ptr))
    rw [← hpd] at hptr hlen
    refine hs.leads (fun next hn => ?_) ?_
    · have hp := hpaired (by rw [hn]; simp)
      rw [hnext] at hn
      obtain rfl | rfl | ⟨rfl, -⟩ := ipv4Next_cases hn <;> simp [Mod.rank, hp]
    · rw [hnext, dhcpFrom, ipv4ToDhcp]
      cases hn : ipv4Next (m.byte (pd.ptr + 9)) with
      | none =>
        rw [if_neg]
        · rfl
        · rintro ⟨-, -, h17⟩
          rw [h17] at hn
          cases hn
      | some next =>
        obtain rfl | rfl | ⟨rfl, h17⟩ := ipv4Next_cases hn
        · rw [if_neg (fun hc => by rw [hc.2.2] at hn; cases hn)]
          rfl
        · rw [if_neg (fun hc => by rw [hc.2.2] at hn; cases hn)]
          rfl
        · rw [if_pos ⟨h20, hle, h17⟩]
          dsimp only
          rw [← hptr, ← hlen]
          rfl
  · rename_i hlen
    refine hs.leads_none hnext ?_
    simp only [dhcpFrom, ipv4ToDhcp]
    rw [if_neg (fun hc => hlen ⟨hc.1, hc.2.1⟩)]

theorem udpNext_cases {sport dport : Nat} {next : Mod} (h : udpNext sport dport = some next) :
    next = .dns ∨ next = .mdns ∨ next = .dhcp := by
  unfold udpNext at h
  split_ifs at h <;> obtain rfl := Option.some.inj h <;> simp

theorem udpDecode_leads (h : pd.WF) (hm : m.Has 0 pd.stop) :
    Returns (udpDecode m pd) (Step.Leads m .udp pd) := by
  refine (udpDecode_returns h hm).mono ?_
  rintro s ⟨hs, hnext⟩
  refine hs.leads_ite hnext (fun next hn => ?_) (fun _ => ?_) fun hlen => ?_
  · obtain rfl | rfl | rfl := udpNext_cases hn <;> simp [Mod.rank]
  · rw [dhcpFrom, udpToDhcp]
    cases hn : udpNext (m.word pd.ptr) (m.word (pd.ptr + 2)) with
    | none => simp
    | some next =>
      obtain rfl | rfl | rfl := udpNext_cases hn
      · simp [dhcpFrom]
      · simp [dhcpFrom]
      · have hskip : (pd.skip 8).length = pd.length - 8 := rfl
        simp only [Option.bind_some, dhcpFrom, and_true]
        by_cases hl : 8 + 240 ≤ pd.length
        · rw [if_pos hl, if_pos (by omega)]
          rfl
        · rw [if_neg hl, if_neg (by omega)]
  · simp only [dhcpFrom, udpToDhcp]
    rw [if_neg (by omega)]

theorem dhcpDecode_leads (h : pd.WF) (hm : m.Has 0 pd.stop) :
    Returns (dhcpDecode m pd) (Step.Leads m .dhcp pd) := by
  refine (dhcpDecode_returns h hm).mono ?_
  rintro s ⟨hs, hnext, hdata, hhw⟩
  refine ⟨hs, ?_, .inl hnext, ?_, ?_⟩
  · intro r hr
    rw [hdata] at hr
    cases hr
  · intro next hn
    rw [hnext] at hn
    cases hn
  · rw [hhw, hnext, dhcpFrom]
    split <;> rfl

/-- **One module**, for all that can follow Ethernet. -/
theorem decodeMod_leads {cfg : TcpConfig τ} {tv : Tcp.Timeval} {st : TcpState τ} {e : Endpoints}
    (h : pd.WF) (hm : m.Has 0 pd.stop) (h6 : mod ≠ .ipv6)
    (he : mod = .tcp → e.srcAddr.length = e.dstAddr.length) :
    Returns (decodeMod cfg tv m st e pd mod) fun r => r.2.Leads m mod pd := by
  have hret : ∀ {x : Except Fault Step}, Returns x (Step.Leads m mod pd) →
      Returns (do return (st, ← x)) fun r : TcpState τ × Step => r.2.Leads m mod pd := by
    intro x hx
    exact hx.bind fun s hs => returns_pure.mpr hs
  have hret' : ∀ {x : Except Fault Step}, dhcpFrom m mod pd = none →
      Returns x (fun s => s.Calm pd ∧ s.next = none) →
      Returns (do return (st, ← x)) fun r : TcpState τ × Step => r.2.Leads m mod pd := by
    intro x hd hx
    exact hret (hx.mono fun s hs => hs.1.leads_none hs.2 hd)
  cases mod with
  | arp => exact hret' rfl (arpDecode_returns h hm)
  | dhcp => exact hret (dhcpDecode_leads h hm)
  | dns =>
    exact hret' rfl (NameService.decode_returns h hm (by simp [dns, loose, Param.kind])
      (by simp [dns, loose, Param.kind]))
  | dot1q => exact hret (dot1qDecode_leads h hm)
  | ethernet => exact hret (ethernetDecode_leads h hm)
  | icmp => exact hret' rfl (icmpDecode_returns h hm)
  | ipv4 => exact hret (ipv4Decode_leads h hm)
  | ipv6 => exact absurd rfl h6
  | mdns =>
    exact hret' rfl (NameService.decode_returns h hm (by simp [mdns, loose, Param.kind])
      (by simp [mdns, loose, Param.kind]))
  | pppoe => exact hret (pppoeDecode_leads h hm)
  | tcp =>
    refine (tcpDecode_returns h hm (he rfl)).mono ?_
    rintro ⟨st', s⟩ ⟨hs, hnext, hhw, hfirst⟩
    dsimp only at hnext hhw
    refine ⟨hs, hfirst, .inl hnext, ?_, ?_⟩
    · intro next hn
      rw [hnext] at hn
      cases hn
    · dsimp only
      rw [hhw, hnext]
      rfl
  | udp => exact hret (udpDecode_leads h hm)

/-- Without session management a module makes the same calls whatever came before. -/
theorem decodeMod_off {cfg : TcpConfig τ} {tv : Tcp.Timeval} {st st1 : TcpState τ} {e : Endpoints}
    (hoff : cfg.enableSsnMgmt = false) (h : decodeMod cfg tv m st e pd mod = .ok (st1, s))
    (st' : TcpState τ) (e' : Endpoints) : decodeMod cfg tv m st' e' pd mod = .ok (st', s) := by
  have hret : ∀ {x : Except Fault Step}, (do return (st, ← x)) = Except.ok (st1, s) →
      (do return (st', ← x)) = Except.ok (st', s) := by
    intro x hx
    cases x with
    | error f => cases hx
    | ok s' =>
      cases hx
      rfl
  cases mod with
  | tcp => exact tcpDecode_off hoff h st' e'
  | _ => exact hret h

end Module

/-! ## The loop -/

/-- What decoding a packet of `hi` bytes comes to: the calls, in order. -/
structure Decodes (m : Mem) (hi : Nat) (dhcp : Option Nat) (q q' : Property) (ops : List Op) : Prop where
  exec : q' = q.exec ops
  fits : ∀ op ∈ ops, op.Fits hi
  first : FirstDataWithin hi ops
  hwAddr : fills .dhcpClientHwAddr ops = dhcp.toList.map (hwRange m)

/-- **`Decoder::decode` reads only the packet, ends and fails no assertion.** Without session management
another worker makes the same calls. The measure is the rank of the module. -/
theorem decodeLoop_returns {cfg : TcpConfig τ} {tv : Tcp.Timeval} {m : Mem} :
    ∀ (fuel : Nat) {mod : Mod} {pd : Payload} {w : Worker τ}, mod.rank < fuel → pd.WF →
      m.Has 0 pd.stop → mod ≠ .ipv6 → (mod = .tcp → w.prop.Paired) →
      Returns (decodeLoop cfg tv m fuel mod pd w) fun w' =>
        ∃ ops, Decodes m pd.stop (dhcpFrom m mod pd) w.prop w'.prop ops ∧
          (cfg.enableSsnMgmt = false → ∀ v : Worker τ,
            Returns (decodeLoop cfg tv m fuel mod pd v) fun v' => v'.prop = v.prop.exec ops)
  | 0, _, _, _, hf, _, _, _, _ => absurd hf (Nat.not_lt_zero _)
  | fuel + 1, mod, pd, w, hf, h, hm, h6, ht => by
    obtain ⟨⟨tcp, s⟩, hmod, hs⟩ : Returns (decodeMod cfg tv m w.tcp
        (w.prop.pushEvent (.mod mod)).ends pd mod) fun r => r.2.Leads m mod pd :=
      decodeMod_leads h hm h6 ht
    have hother : cfg.enableSsnMgmt = false → ∀ v : Worker τ,
        decodeMod cfg tv m v.tcp (v.prop.pushEvent (.mod mod)).ends pd mod = .ok (v.tcp, s) :=
      fun hoff v => decodeMod_off hoff hmod v.tcp _
    unfold decodeLoop
    refine Returns.bind_ok hmod ?_
    dsimp only at hs ⊢
    have hevent : Op.Calm pd.stop (.event (.mod mod)) := Op.calm_event _
    split
    · rename_i hnone
      have hhw := hs.hwAddr
      rw [hnone] at hhw
      refine returns_pure.mpr ⟨.event (.mod mod) :: s.ops, ⟨rfl, ?_, hs.first, ?_⟩, fun hoff v => ?_⟩
      · exact List.forall_mem_cons.mpr ⟨hevent.1, hs.fits.ops⟩
      · exact (List.append_nil _).symm.trans hhw
      · refine Returns.bind_ok (hother hoff v) ?_
        rw [hnone]
        exact returns_pure.mpr rfl
    · rename_i next hsome
      obtain ⟨hrank, h6', hpaired⟩ := hs.next next hsome
      have hstop := hs.fits.stop
      refine (decodeLoop_returns fuel (by omega) hs.fits.wf (hstop ▸ hm) h6' fun hn => ?_).mono ?_
      · exact hpaired hn _
      · rintro w' ⟨ops, hops, hsame⟩
        have hdata : fills .tcpData s.ops = [] := hs.data.resolve_left (by simp [hsome])
        have hhw := hs.hwAddr
        rw [hsome] at hhw
        have hexec : ∀ q : Property,
            ((q.pushEvent (.mod mod)).exec s.ops).exec ops
              = q.exec (.event (.mod mod) :: (s.ops ++ ops)) := by
          intro q
          rw [Property.exec_cons, Property.exec_append]
          rfl
        refine ⟨.event (.mod mod) :: (s.ops ++ ops), ⟨?_, ?_, ?_, ?_⟩, fun hoff v => ?_⟩
        · rw [hops.exec, hexec]
        · refine List.forall_mem_cons.mpr ⟨hevent.1, fun op hop => ?_⟩
          exact (List.mem_append.mp hop).elim (hs.fits.ops op) fun hop => hstop ▸ hops.fits op hop
        · intro r hr
          change (fills .tcpData (s.ops ++ ops)).head? = some r at hr
          rw [fills_append, hdata] at hr
          exact hstop ▸ hops.first r hr
        · change fills .dhcpClientHwAddr (s.ops ++ ops) = _
          rw [fills_append, hops.hwAddr]
          exact hhw
        · refine Returns.bind_ok (hother hoff v) ?_
          rw [hsome]
          refine (hsame hoff _).mono fun v' hv' => ?_
          rw [hv', hexec]

/-- **Every packet is decoded.** -/
theorem process_returns (cfg : TcpConfig τ) (w : Worker τ) (p : Packet) :
    Returns (w.process cfg p) fun w' =>
      ∃ ops, Decodes p.mem p.data.length p.dhcpAt w.prop.init w'.prop ops ∧
        (cfg.enableSsnMgmt = false → ∀ v : Worker τ,
          Returns (v.process cfg p) fun v' => v'.prop = v.prop.init.exec ops) := by
  have hrank : Mod.ethernet.rank < 6 := by simp [Mod.rank]
  refine (decodeLoop_returns 6 hrank (Payload.wf_reset p) p.has_all (by simp) (by simp)).mono ?_
  rintro w' ⟨ops, hops, hsame⟩
  exact ⟨ops, hops, fun hoff v => hsame hoff { v with prop := v.prop.init }⟩

end PacketMachine.Decode
