import PacketMachine.Decode.Reading

/-!
# The loop of `Decoder::decode`, and the way of a packet through the modules

`Decoder::decode` (`decoder.cc:164-179`) is a loop without a bound: each module names the next by its
id, and the loop ends at `Module::NONE`. Here the loop is given as it stands, as the relation `Loop`
between its start, the modules it calls (`Visit`) and its end. `decodeLoop` computes it within six
rounds.

* The ids are positions in `modules_`, which is filled in the order of the names in a `std::map`
  (`decoder.cc:53-67`). A module takes the ids of its successors from `lookup_module` in `setup`.
* The bytes alone decide which module follows and at which cursor (`nextOf`), so that they decide the
  whole way (`Packet.route`).

Results:
* `Mod.lookup_name`, `nextOf_setup`: every id that a decoder returns is that of a built-in module, and
  was looked up in its `setup`.
* **`decodeLoop_loop`**, **`process_loop`**: the loop ends, each module ranks below the one before, and
  the modules are those of the route.
-/

namespace PacketMachine.Decode

open PacketMachine.Lib

variable {τ : Type}

/-! ## Names and ids -/

/-- The name that a module is installed under. -/
def Mod.name : Mod → String
  | arp => "ARP"
  | dhcp => "DHCP"
  | dns => "DNS"
  | dot1q => "Dot1Q"
  | ethernet => "Ethernet"
  | icmp => "ICMP"
  | ipv4 => "IPv4"
  | ipv6 => "IPv6"
  | mdns => "MDNS"
  | pppoe => "PPPoE"
  | tcp => "TCP"
  | udp => "UDP"

/-- `modules_`. -/
def modules : List Mod :=
  [.arp, .dhcp, .dns, .dot1q, .ethernet, .icmp, .ipv4, .ipv6, .mdns, .pppoe, .tcp, .udp]

/-- `Decoder::lookup_module`; -1 is `Module::NONE`. -/
def lookupModule (name : String) : Int :=
  match modules.findIdx? (·.name = name) with
  | some i => i
  | none => -1

/-- The `mod_id` that a decoder returns. -/
def modId : Option Mod → Int
  | none => -1
  | some mod => lookupModule mod.name

/-- The assertion in `Decoder::decode`. -/
def ModIdOk (next : Int) : Prop := next = -1 ∨ (0 ≤ next ∧ next < modules.length)

/-- The names that a module looks up in `setup`. -/
def Mod.setup : Mod → List String
  | dot1q => ["IPv4", "ARP", "PPPoE"]
  | ethernet => ["IPv4", "ARP", "PPPoE", "Dot1Q"]
  | ipv4 => ["TCP", "UDP", "ICMP"]
  | ipv6 => ["TCP", "UDP"]
  | pppoe => ["IPv4"]
  | udp => ["DNS", "MDNS", "DHCP"]
  | _ => []

/-- The name of an event: that of its module, and its own behind it when it has one. -/
def Event.name : Event → String
  | mod m => m.name
  | arpRequest => "ARP.request"
  | arpReply => "ARP.reply"
  | dnsQuery => "DNS.query"
  | dnsReply => "DNS.reply"
  | mdnsQuery => "MDNS.query"
  | mdnsReply => "MDNS.reply"
  | tcpNewSession => "TCP.new_session"
  | tcpEstablished => "TCP.established"
  | tcpClosed => "TCP.closed"

/-- The module of an event of `mod_event_`. -/
def Event.module? : Event → Option Mod
  | mod m => some m
  | _ => none

/-- The order of the ids is the order of the names. -/
theorem modules_sorted : (modules.map Mod.name).Pairwise (· < ·) := by decide +kernel

/-- `lookup_module` finds every built-in module, and its id leads back to it. -/
theorem Mod.lookup_name (mod : Mod) :
    ∃ i : Nat, lookupModule mod.name = i ∧ modules[i]? = some mod := by
  cases mod
  case arp => exact ⟨0, rfl, rfl⟩
  case dhcp => exact ⟨1, rfl, rfl⟩
  case dns => exact ⟨2, rfl, rfl⟩
  case dot1q => exact ⟨3, rfl, rfl⟩
  case ethernet => exact ⟨4, rfl, rfl⟩
  case icmp => exact ⟨5, rfl, rfl⟩
  case ipv4 => exact ⟨6, rfl, rfl⟩
  case ipv6 => exact ⟨7, rfl, rfl⟩
  case mdns => exact ⟨8, rfl, rfl⟩
  case pppoe => exact ⟨9, rfl, rfl⟩
  case tcp => exact ⟨10, rfl, rfl⟩
  case udp => exact ⟨11, rfl, rfl⟩

theorem modIdOk (next : Option Mod) : ModIdOk (modId next) := by
  cases next with
  | none => exact .inl rfl
  | some mod =>
    obtain ⟨i, hi, hm⟩ := mod.lookup_name
    have hlt := (List.getElem?_eq_some_iff.mp hm).1
    refine .inr ?_
    rw [modId, hi]
    exact ⟨Int.natCast_nonneg i, by exact_mod_cast hlt⟩

/-! ## The way of a packet -/

/-- The module that follows, and its cursor, by the bytes alone. -/
def nextOf (m : Mem) (mod : Mod) (pd : Payload) : Option (Mod × Payload) :=
  match mod with
  | .ethernet =>
    if 14 ≤ pd.length then (ethernetNext (m.word (pd.ptr + 12))).map (·, pd.skip 14) else none
  | .dot1q =>
    if 4 ≤ pd.length then (dot1qNext (m.word (pd.ptr + 2))).map (·, pd.skip 4) else none
  | .pppoe =>
    if 8 ≤ pd.length then (if m.word (pd.ptr + 6) = 0x21 then some .ipv4 else none).map (·, pd.skip 8)
    else none
  | .ipv4 =>
    let hdrLen := ipv4HdrLen (m.byte pd.ptr)
    let totalLen := m.word (pd.ptr + 2)
    if 20 ≤ pd.length ∧ hdrLen ≤ totalLen then
      (ipv4Next (m.byte (pd.ptr + 9))).map
        (·, (ipv4Options (pd.skip 20) hdrLen).pd.shrink (totalLen - hdrLen))
    else none
  | .udp =>
    if 8 ≤ pd.length then (udpNext (m.word pd.ptr) (m.word (pd.ptr + 2))).map (·, pd.skip 8) else none
  | _ => none

/-- The modules from `mod` on, with their cursors. -/
def route (m : Mem) : Nat → Mod → Payload → List (Mod × Payload)
  | 0, _, _ => []
  | fuel + 1, mod, pd =>
    (mod, pd) :: match nextOf m mod pd with
      | none => []
      | some (next, pd) => route m fuel next pd

/-- **The way of a packet through the modules.** -/
def Packet.route (p : Packet) : List (Mod × Payload) := Decode.route p.mem 6 .ethernet (Payload.reset p)

section Route

variable {cfg : TcpConfig τ} {tv : Tcp.Timeval} {st : TcpState τ} {e : Endpoints} {m : Mem}
  {pd : Payload} {mod : Mod}

/-- What a step says about the next module. -/
def Step.follow (s : Step) : Option (Mod × Payload) := s.next.map (·, s.pd)

theorem Step.follow_ite {s : Step} {c : Prop} [Decidable c] {next : Option Mod} {pd' : Payload}
    (h : if c then s.pd = pd' ∧ s.next = next else s.next = none) :
    s.follow = if c then next.map (·, pd') else none := by
  unfold Step.follow
  split at h
  · rename_i hc
    rw [if_pos hc, h.1, h.2]
  · rename_i hc
    rw [if_neg hc, h]
    rfl

/-- **The bytes decide what follows.** -/
theorem decodeMod_follow (h : pd.WF) (hm : m.Has 0 pd.stop) (h6 : mod ≠ .ipv6)
    (he : mod = .tcp → e.srcAddr.length = e.dstAddr.length) :
    Returns (decodeMod cfg tv m st e pd mod) fun r => r.2.follow = nextOf m mod pd := by
  have hret : ∀ {x : Except Fault Step} {Q : Step → Prop}, Returns x Q →
      (∀ s, Q s → s.follow = nextOf m mod pd) →
      Returns (do return (st, ← x)) fun r : TcpState τ × Step => r.2.follow = nextOf m mod pd := by
    intro x Q hx hQ
    exact hx.bind fun s hs => returns_pure.mpr (hQ s hs)
  cases mod with
  | arp => exact hret (arpDecode_returns h hm) fun s hs => by simp [Step.follow, hs.2, nextOf]
  | dhcp => exact hret (dhcpDecode_returns h hm) fun s hs => by simp [Step.follow, hs.2.1, nextOf]
  | dns =>
    exact hret (NameService.decode_returns h hm (by simp [dns, loose, Param.kind])
      (by simp [dns, loose, Param.kind])) fun s hs => by simp [Step.follow, hs.2, nextOf]
  | dot1q =>
    refine hret (dot1qDecode_returns h hm) ?_
    rintro s ⟨-, hs⟩
    exact Step.follow_ite hs
  | ethernet =>
    refine hret (ethernetDecode_returns h hm) ?_
    rintro s ⟨-, hs⟩
    exact Step.follow_ite hs
  | icmp => exact hret (icmpDecode_returns h hm) fun s hs => by simp [Step.follow, hs.2, nextOf]
  | ipv4 =>
    refine hret (ipv4Decode_returns h hm) ?_
    rintro s ⟨-, -, hs⟩
    exact Step.follow_ite hs
  | ipv6 => exact absurd rfl h6
  | mdns =>
    exact hret (NameService.decode_returns h hm (by simp [mdns, loose, Param.kind])
      (by simp [mdns, loose, Param.kind])) fun s hs => by simp [Step.follow, hs.2, nextOf]
  | pppoe =>
    refine hret (pppoeDecode_returns h hm) ?_
    rintro s ⟨-, hs⟩
    exact Step.follow_ite hs
  | tcp =>
    refine (tcpDecode_returns h hm (he rfl)).mono ?_
    rintro ⟨st', s⟩ ⟨-, hs, -⟩
    simp only at hs
    simp [Step.follow, hs, nextOf]
  | udp =>
    refine hret (udpDecode_returns h hm) ?_
    rintro s ⟨-, hs⟩
    exact Step.follow_ite hs

/-- **The ids that a module returns are those it has looked up in `setup`.** -/
theorem nextOf_setup {next : Mod} {pd' : Payload} (h : nextOf m mod pd = some (next, pd')) :
    next.name ∈ mod.setup := by
  unfold nextOf at h
  split at h
  · split at h
    · obtain ⟨n, hn, hp⟩ := Option.map_eq_some_iff.mp h
      cases hp
      unfold ethernetNext at hn
      split_ifs at hn <;> obtain rfl := Option.some.inj hn <;> simp [Mod.name, Mod.setup]
    · cases h
  · split at h
    · obtain ⟨n, hn, hp⟩ := Option.map_eq_some_iff.mp h
      cases hp
      unfold dot1qNext at hn
      split_ifs at hn <;> obtain rfl := Option.some.inj hn <;> simp [Mod.name, Mod.setup]
    · cases h
  · split at h
    · obtain ⟨n, hn, hp⟩ := Option.map_eq_some_iff.mp h
      cases hp
      split_ifs at hn
      obtain rfl := Option.some.inj hn
      simp [Mod.name, Mod.setup]
    · cases h
  · dsimp only at h
    split at h
    · obtain ⟨n, hn, hp⟩ := Option.map_eq_some_iff.mp h
      cases hp
      obtain rfl | rfl | ⟨rfl, -⟩ := ipv4Next_cases hn <;> simp [Mod.name, Mod.setup]
    · cases h
  · split at h
    · obtain ⟨n, hn, hp⟩ := Option.map_eq_some_iff.mp h
      cases hp
      obtain rfl | rfl | rfl := udpNext_cases hn <;> simp [Mod.name, Mod.setup]
    · cases h
  · cases h

end Route

/-! ## The loop -/

/-- One call of a module: the cursor it is given, and what it leaves. -/
structure Visit where
  mod : Mod
  pd : Payload
  step : Step

/-- The calls on the property during a visit, with the event of the module. -/
def Visit.ops (v : Visit) : List Op := .event (.mod v.mod) :: v.step.ops

/-- **The loop of `Decoder::decode`** from the module `next` on, with the modules it calls. -/
inductive Loop (cfg : TcpConfig τ) (tv : Tcp.Timeval) (m : Mem) :
    Option Mod → Payload → Worker τ → List Visit → Worker τ → Prop
  | done (pd : Payload) (w : Worker τ) : Loop cfg tv m none pd w [] w
  | call {mod : Mod} {pd : Payload} {w w' : Worker τ} {tcp : TcpState τ} {s : Step} {vs : List Visit}
    (hmod : decodeMod cfg tv m w.tcp (w.prop.pushEvent (.mod mod)).ends pd mod = .ok (tcp, s))
    (hrest : Loop cfg tv m s.next s.pd
      { tcp, prop := (w.prop.pushEvent (.mod mod)).exec s.ops } vs w') :
    Loop cfg tv m (some mod) pd w (⟨mod, pd, s⟩ :: vs) w'

/-- What is known of a call of a module: its cursor lies in the packet of `hi` bytes, and it leaves what
it should. -/
structure Visit.Sound (m : Mem) (hi : Nat) (v : Visit) : Prop where
  wf : v.pd.WF
  stop : v.pd.stop = hi
  leads : v.step.Leads m v.mod v.pd
  follow : v.step.follow = nextOf m v.mod v.pd

section Loop

variable {cfg : TcpConfig τ} {tv : Tcp.Timeval} {m : Mem}

/-- The calls of a run of the loop, in order. -/
theorem Loop.exec_eq {next : Option Mod} {pd : Payload} {w w' : Worker τ} {vs : List Visit}
    (h : Loop cfg tv m next pd w vs w') : w'.prop = w.prop.exec (vs.flatMap Visit.ops) := by
  induction h with
  | done pd w => rfl
  | call hmod hrest ih =>
    rw [ih, List.flatMap_cons, Property.exec_append]
    rfl

/-- A run of the loop is the only one from its start. -/
theorem Loop.unique {next : Option Mod} {pd : Payload} {w w' u : Worker τ} {vs us : List Visit}
    (h : Loop cfg tv m next pd w vs w') (h' : Loop cfg tv m next pd w us u) : us = vs ∧ u = w' := by
  induction h generalizing us with
  | done pd w =>
    cases h'
    exact ⟨rfl, rfl⟩
  | @call mod pd w w' tcp s vs hmod hrest ih =>
    cases h' with
    | @call _ _ _ _ tcp' s' us hmod' hrest' =>
      obtain ⟨rfl, rfl⟩ := Prod.mk.inj (Except.ok.inj (hmod.symm.trans hmod'))
      obtain ⟨rfl, rfl⟩ := ih hrest'
      exact ⟨rfl, rfl⟩

/-- **The loop ends within the rank of the module.** -/
theorem decodeLoop_loop : ∀ (fuel : Nat) {mod : Mod} {pd : Payload} {w : Worker τ}, mod.rank < fuel →
    pd.WF → m.Has 0 pd.stop → mod ≠ .ipv6 → (mod = .tcp → w.prop.Paired) →
    Returns (decodeLoop cfg tv m fuel mod pd w) fun w' => ∃ vs,
      Loop cfg tv m (some mod) pd w vs w' ∧
      (∀ v ∈ vs, v.Sound m pd.stop) ∧
      (vs.map fun v => v.mod.rank).Pairwise (· > ·) ∧ (∀ v ∈ vs, v.mod.rank ≤ mod.rank) ∧
      vs.map (fun v => (v.mod, v.pd)) = route m fuel mod pd
  | 0, _, _, _, hf, _, _, _, _ => absurd hf (Nat.not_lt_zero _)
  | fuel + 1, mod, pd, w, hf, h, hm, h6, ht => by
    obtain ⟨⟨tcp, s⟩, hmod, hs⟩ : Returns (decodeMod cfg tv m w.tcp
        (w.prop.pushEvent (.mod mod)).ends pd mod) fun r => r.2.Leads m mod pd :=
      decodeMod_leads h hm h6 ht
    obtain ⟨r, hmod', hfollow⟩ : Returns (decodeMod cfg tv m w.tcp
        (w.prop.pushEvent (.mod mod)).ends pd mod) fun r => r.2.follow = nextOf m mod pd :=
      decodeMod_follow h hm h6 ht
    obtain rfl := Except.ok.inj (hmod.symm.trans hmod')
    have hsound : Visit.Sound m pd.stop ⟨mod, pd, s⟩ := ⟨h, rfl, hs, hfollow⟩
    unfold decodeLoop
    refine Returns.bind_ok hmod ?_
    dsimp only at hs hfollow ⊢
    split
    · rename_i hnone
      have hlast : nextOf m mod pd = none := by rw [← hfollow, Step.follow, hnone]; rfl
      refine returns_pure.mpr ⟨[⟨mod, pd, s⟩], .call hmod (hnone ▸ .done s.pd _), ?_, ?_, ?_, ?_⟩
      · simpa using hsound
      · simp
      · simp
      · simp [route, hlast]
    · rename_i next hsome
      obtain ⟨hrank, h6', hpaired⟩ := hs.next next hsome
      have hstop := hs.fits.stop
      have hnext : nextOf m mod pd = some (next, s.pd) := by rw [← hfollow, Step.follow, hsome]; rfl
      refine (decodeLoop_loop fuel (by omega) hs.fits.wf (hstop ▸ hm) h6' fun hn => hpaired hn _).mono ?_
      rintro w' ⟨vs, hloop, hsounds, hsorted, hle, hroute⟩
      refine ⟨⟨mod, pd, s⟩ :: vs, .call hmod (hsome ▸ hloop), ?_, ?_, ?_, ?_⟩
      · exact List.forall_mem_cons.mpr ⟨hsound, fun v hv => hstop ▸ hsounds v hv⟩
      · rw [List.map_cons, List.pairwise_cons]
        refine ⟨fun n hn => ?_, hsorted⟩
        obtain ⟨v, hv, rfl⟩ := List.mem_map.mp hn
        have := hle v hv
        show mod.rank > v.mod.rank
        omega
      · refine List.forall_mem_cons.mpr ⟨Nat.le_refl _, fun v hv => ?_⟩
        have := hle v hv
        omega
      · simp [route, hnext, hroute]

/-- **Every packet ends the loop**, after the modules of its route. -/
theorem process_loop (cfg : TcpConfig τ) (w : Worker τ) (p : Packet) :
    Returns (w.process cfg p) fun w' => ∃ vs,
      Loop cfg p.tv p.mem (some .ethernet) (Payload.reset p) { w with prop := w.prop.init } vs w' ∧
      (∀ v ∈ vs, v.Sound p.mem p.data.length) ∧ (vs.map fun v => v.mod.rank).Pairwise (· > ·) ∧
      (∀ v ∈ vs, v.mod.rank ≤ 5) ∧ vs.map (fun v => (v.mod, v.pd)) = p.route := by
  have hrank : Mod.ethernet.rank < 6 := by simp [Mod.rank]
  exact decodeLoop_loop 6 hrank (Payload.wf_reset p) p.has_all (by simp) (by simp)

/-- Ranks fall from 5 at most, so no module is called twice and at most six are. -/
theorem ranks_fall {vs : List Visit} (h : (vs.map fun v => v.mod.rank).Pairwise (· > ·))
    (hle : ∀ v ∈ vs, v.mod.rank ≤ 5) : vs.length ≤ 6 ∧ (vs.map Visit.mod).Nodup := by
  have hnd : (vs.map fun v => v.mod.rank).Nodup := h.imp fun hgt => Nat.ne_of_gt hgt
  constructor
  · have hsub : (vs.map fun v => v.mod.rank) ⊆ List.range 6 := by
      intro n hn
      obtain ⟨v, hv, rfl⟩ := List.mem_map.mp hn
      have := hle v hv
      exact List.mem_range.mpr (by omega)
    simpa using (hnd.subperm hsub).length_le
  · have hmap : (vs.map fun v => v.mod.rank) = (vs.map Visit.mod).map Mod.rank := by
      simp [Function.comp_def]
    rw [hmap] at hnd
    exact hnd.of_map

end Loop

end PacketMachine.Decode
