import PacketMachine.Decode.Visit
import PacketMachine.Decode.Reuse

/-!
# The endpoints of a packet

`src_addr`, `dst_addr`, `src_port` and `dst_port` are no values of the pool: they are members of their
own (`property.hpp:104-110`), which the decoders of IP, TCP and UDP overwrite and `Property::init` leaves
alone. The constructor makes the addresses empty and does not set the ports, so that these start with
any number here.

* A call sets at most one of the four (`Op.attr?`), to a value that does not depend on what was there;
  so a list of calls either fixes an attribute or leaves it (`agree_exec`, `keeps_exec`).
* `Packet.HasPorts` says by the bytes alone that the way of a packet leads to a whole header of TCP or
  UDP.

Results:
* `Loop.ports`, `Loop.addrs`: the ports are set exactly for such packets, and with them the addresses.
* **`endpoints_own_iff`**: the four attributes are independent of earlier packets exactly for packets
  with such a header.
-/

namespace PacketMachine.Decode

open PacketMachine.Lib

variable {τ : Type}

/-! ## Attributes after a list of calls -/

/-- Two records that agree on an attribute. -/
def Endpoints.Agree (a : Attr) (e e' : Endpoints) : Prop :=
  match a with
  | .srcAddr => e.srcAddr = e'.srcAddr
  | .dstAddr => e.dstAddr = e'.dstAddr
  | .srcPort => e.srcPort = e'.srcPort
  | .dstPort => e.dstPort = e'.dstPort

section Attributes

variable {a : Attr} {q q' : Property}

theorem Endpoints.agree_refl (e : Endpoints) : e.Agree a e := by
  cases a <;> rfl

theorem Endpoints.eq_of_agree {e e' : Endpoints} (h : ∀ a, e.Agree a e') : e = e' := by
  obtain ⟨sa, da, sp, dp⟩ := e
  obtain ⟨sa', da', sp', dp'⟩ := e'
  obtain rfl : sa = sa' := h .srcAddr
  obtain rfl : da = da' := h .dstAddr
  obtain rfl : sp = sp' := h .srcPort
  obtain rfl : dp = dp' := h .dstPort
  rfl

/-- A call that sets another attribute, or none, leaves this one. -/
theorem Op.keeps {op : Op} (h : op.attr? ≠ some a) : (op.apply q).ends.Agree a q.ends := by
  cases op with
  | srcAddr bytes => cases a <;> first | rfl | exact absurd rfl h
  | dstAddr bytes => cases a <;> first | rfl | exact absurd rfl h
  | srcPort port => cases a <;> first | rfl | exact absurd rfl h
  | dstPort port => cases a <;> first | rfl | exact absurd rfl h
  | _ => exact Endpoints.agree_refl _

/-- A call gives the attribute it sets the same value everywhere, and keeps an agreement. -/
theorem Op.agree {op : Op} (h : op.attr? = some a ∨ q.ends.Agree a q'.ends) :
    (op.apply q).ends.Agree a (op.apply q').ends := by
  cases op with
  | srcAddr bytes => cases a <;> first | rfl | exact h.resolve_left (by simp [Op.attr?])
  | dstAddr bytes => cases a <;> first | rfl | exact h.resolve_left (by simp [Op.attr?])
  | srcPort port => cases a <;> first | rfl | exact h.resolve_left (by simp [Op.attr?])
  | dstPort port => cases a <;> first | rfl | exact h.resolve_left (by simp [Op.attr?])
  | _ => exact h.resolve_left (by simp [Op.attr?])

/-- **What is set does not depend on what was there.** -/
theorem agree_exec (ops : List Op) (h : a ∈ attrs ops ∨ q.ends.Agree a q'.ends) :
    (q.exec ops).ends.Agree a (q'.exec ops).ends := by
  induction ops generalizing q q' with
  | nil => exact h.resolve_left (by simp [attrs])
  | cons op ops ih =>
    rw [Property.exec_cons, Property.exec_cons]
    refine ih ?_
    rcases h with h | h
    · by_cases ha : op.attr? = some a
      · exact .inr (Op.agree (.inl ha))
      · obtain ⟨op', hop, hop'⟩ := List.mem_filterMap.mp h
        obtain rfl | hop := List.mem_cons.mp hop
        · exact absurd hop' ha
        · exact .inl (List.mem_filterMap.mpr ⟨op', hop, hop'⟩)
    · exact .inr (Op.agree (.inr h))

/-- **What is not set stays.** -/
theorem keeps_exec (ops : List Op) (h : a ∉ attrs ops) : (q.exec ops).ends.Agree a q.ends := by
  induction ops generalizing q with
  | nil => exact Endpoints.agree_refl _
  | cons op ops ih =>
    have hop : op.attr? ≠ some a := fun ha => h (List.mem_filterMap.mpr ⟨op, List.mem_cons_self, ha⟩)
    have hops : a ∉ attrs ops := by
      intro ha
      obtain ⟨op', hop', ha⟩ := List.mem_filterMap.mp ha
      exact h (List.mem_filterMap.mpr ⟨op', List.mem_cons_of_mem _ hop', ha⟩)
    have hrest := @ih (op.apply q) hops
    have hhead := Op.keeps (q := q) hop
    rw [Property.exec_cons]
    cases a <;> exact hrest.trans hhead

end Attributes

/-! ## The modules that set them -/

/-- The cursor of TCP or UDP has room for the header. -/
def hasPorts (mod : Mod) (pd : Payload) : Prop :=
  mod = .tcp ∧ 20 ≤ pd.length ∨ mod = .udp ∧ 8 ≤ pd.length

instance (mod : Mod) (pd : Payload) : Decidable (hasPorts mod pd) :=
  inferInstanceAs (Decidable (_ ∨ _))

/-- **The way of the packet leads to a whole header of TCP or UDP.** -/
def Packet.HasPorts (p : Packet) : Prop := ∃ v ∈ p.route, hasPorts v.1 v.2

instance (p : Packet) : Decidable p.HasPorts := inferInstanceAs (Decidable (∃ v ∈ p.route, _))

section Modules

variable {cfg : TcpConfig τ} {tv : Tcp.Timeval} {st : TcpState τ} {e : Endpoints} {m : Mem}
  {pd : Payload} {mod : Mod}

theorem udpDecode_attrs (h : pd.WF) : Ensures (udpDecode m pd) fun s =>
    attrs s.ops = if 8 ≤ pd.length then Mod.attrs .udp else [] := by
  unfold udpDecode withHeader
  rw [Payload.retain_eq h]
  by_cases hs : 8 ≤ pd.length
  · rw [if_pos hs, if_pos hs]
    exact ensures_bind fun sport => ensures_bind fun dport => ensures_pure rfl
  · rw [if_neg hs, if_neg hs]
    exact ensures_ok rfl

theorem setProperties_attrs {hdr : Nat} : Ensures (setProperties m hdr pd) fun r =>
    attrs r.2.1 = Mod.attrs .tcp := by
  unfold setProperties
  refine ensures_bind fun sport => ensures_bind fun dport => ensures_bind fun b => ?_
  dsimp only
  split
  · split <;> exact ensures_pure rfl
  · exact ensures_pure rfl

theorem tcpDecode_attrs (hoff : cfg.enableSsnMgmt = false) (h : pd.WF) :
    Ensures (tcpDecode cfg st e tv m pd) fun r =>
      attrs r.2.ops = if 20 ≤ pd.length then Mod.attrs .tcp else [] := by
  unfold tcpDecode
  rw [Payload.retain_eq h]
  by_cases hs : 20 ≤ pd.length
  · rw [if_pos hs, if_pos hs]
    refine setProperties_attrs.bind ?_
    rintro ⟨pd', ops, ok⟩ hops
    simp only [hoff, Bool.false_eq_true, if_false]
    split
    · exact ensures_pure hops
    · refine ensures_pure ?_
      rw [attrs_append, hops]
      split <;> rfl
  · rw [if_neg hs, if_neg hs]
    exact ensures_ok rfl

/-- `IPv4` sets both addresses when another module follows. -/
theorem ipv4Decode_attrs : Ensures (ipv4Decode m pd) fun s =>
    s.next ≠ none → attrs s.ops = Mod.attrs .ipv4 := by
  unfold ipv4Decode
  refine withHeader_ensures (by simp) fun hdr pd => ensures_bind fun b => ensures_bind fun totalLen => ?_
  dsimp only
  split
  · exact ensures_pure (by simp)
  · refine ensures_bind fun src => ensures_bind fun dst => ensures_bind fun proto => ensures_pure ?_
    intro _
    dsimp only
    unfold ipv4Options
    split
    · split <;> rfl
    · rfl

/-- `UDP` sets the source port to the one of its header. -/
theorem udpDecode_srcPort (h : pd.WF) (hm : m.Has 0 pd.stop) (hlen : 8 ≤ pd.length) :
    Ensures (udpDecode m pd) fun s =>
      ∀ q : Property, (q.exec s.ops).ends.srcPort = UInt16.ofNat (m.word pd.ptr) := by
  have hw := h.window
  unfold udpDecode withHeader
  rw [Payload.retain_eq h, if_pos hlen]
  dsimp only
  rw [Mem.u16_eq hm (by omega) (by omega)]
  refine Ensures.bind (P := fun sport => sport = m.word pd.ptr) (ensures_ok rfl) ?_
  rintro _ rfl
  exact ensures_bind fun dport => ensures_pure fun q => rfl

/-- **Which modules set the ports**, and when. -/
theorem decodeMod_ports (hoff : cfg.enableSsnMgmt = false) (h : pd.WF) (a : Attr)
    (ha : a = .srcPort ∨ a = .dstPort) :
    Ensures (decodeMod cfg tv m st e pd mod) fun r => a ∈ attrs r.2.ops ↔ hasPorts mod pd := by
  have hports : a ∈ Mod.attrs .udp := by
    rcases ha with rfl | rfl <;> simp [Mod.attrs]
  by_cases hm : mod = .tcp ∨ mod = .udp
  · rcases hm with rfl | rfl
    · refine (tcpDecode_attrs hoff h).mono fun r hr => ?_
      rw [hr]
      split
      · rename_i hlen
        exact iff_of_true hports (.inl ⟨rfl, hlen⟩)
      · rename_i hlen
        exact iff_of_false (by simp) (by simp [hasPorts, hlen])
    · refine Ensures.bind (udpDecode_attrs h) fun s hs => ensures_pure ?_
      rw [hs]
      split
      · rename_i hlen
        exact iff_of_true hports (.inr ⟨rfl, hlen⟩)
      · rename_i hlen
        exact iff_of_false (by simp) (by simp [hasPorts, hlen])
  · -- no other module has a port among its attributes
    have hne : a ∉ mod.attrs := by
      rcases ha with rfl | rfl <;> cases mod <;> simp [Mod.attrs] at hm ⊢
    refine (decodeMod_owns hoff).mono fun r hr => iff_of_false (fun ha => hne (hr.ends a ha)) ?_
    rintro (⟨rfl, -⟩ | ⟨rfl, -⟩)
    · exact hm (.inl rfl)
    · exact hm (.inr rfl)

/-- TCP and UDP follow `IPv4` only. -/
theorem nextOf_transport {next : Mod} {pd' : Payload} (h : nextOf m mod pd = some (next, pd'))
    (hn : next = .tcp ∨ next = .udp) : mod = .ipv4 := by
  have hset := nextOf_setup h
  cases mod with
  | ipv4 => rfl
  | ipv6 => cases h
  | _ => rcases hn with rfl | rfl <;> simp [Mod.setup, Mod.name] at hset

end Modules

/-! ## The loop -/

section Loops

variable {cfg : TcpConfig τ} {tv : Tcp.Timeval} {m : Mem} {next : Option Mod} {pd : Payload}
  {w w' : Worker τ} {vs : List Visit} {hi : Nat}

theorem attrs_visits (vs : List Visit) :
    attrs (vs.flatMap Visit.ops) = vs.flatMap fun v => attrs v.step.ops := by
  induction vs with
  | nil => rfl
  | cons v vs ih => rw [List.flatMap_cons, attrs_append, ih]; rfl

/-- **The ports are set exactly when the modules called include TCP or UDP with a whole header.** -/
theorem Loop.ports (hoff : cfg.enableSsnMgmt = false) (h : Loop cfg tv m next pd w vs w')
    (hvs : ∀ v ∈ vs, v.Sound m hi) {a : Attr} (ha : a = .srcPort ∨ a = .dstPort) :
    a ∈ attrs (vs.flatMap Visit.ops) ↔ ∃ v ∈ vs, hasPorts v.mod v.pd := by
  rw [attrs_visits, List.mem_flatMap]
  refine exists_congr fun v => and_congr_right fun hv => ?_
  obtain ⟨st, e, st', hcall⟩ := h.called v hv
  exact decodeMod_ports hoff (hvs v hv).wf a ha _ hcall

/-- **Then the addresses are set as well**, by the module before. -/
theorem Loop.addrs (h : Loop cfg tv m next pd w vs w') (hvs : ∀ v ∈ vs, v.Sound m hi) {u : Visit}
    (hu : u ∈ vs) (hports : hasPorts u.mod u.pd) (hfirst : next ≠ some .tcp ∧ next ≠ some .udp) :
    ∀ a ∈ Mod.attrs .ipv4, a ∈ attrs (vs.flatMap Visit.ops) := by
  intro a ha
  rw [attrs_visits, List.mem_flatMap]
  induction h with
  | done pd w => cases hu
  | @call mod pd w w' tcp s vs hmod hrest ih =>
    obtain ⟨hv, hvs⟩ := List.forall_mem_cons.mp hvs
    rcases List.mem_cons.mp hu with rfl | hu
    · rcases hports with ⟨rfl, -⟩ | ⟨rfl, -⟩
      · exact absurd rfl hfirst.1
      · exact absurd rfl hfirst.2
    · by_cases hnext : s.next = some .tcp ∨ s.next = some .udp
      · have hipv4 : mod = .ipv4 := by
          have hfollow := hv.follow
          rcases hnext with hn | hn
          · rw [Step.follow, hn] at hfollow
            exact nextOf_transport hfollow.symm (.inl rfl)
          · rw [Step.follow, hn] at hfollow
            exact nextOf_transport hfollow.symm (.inr rfl)
        subst hipv4
        have hset : attrs s.ops = Mod.attrs .ipv4 := by
          have hens : Ensures (decodeMod cfg tv m w.tcp (w.prop.pushEvent (.mod .ipv4)).ends pd .ipv4)
              fun r => r.2.next ≠ none → attrs r.2.ops = Mod.attrs .ipv4 :=
            ipv4Decode_attrs.bind fun s hs => ensures_pure hs
          refine hens _ hmod ?_
          rcases hnext with hn | hn <;> simp [hn]
        exact ⟨_, List.mem_cons_self, hset ▸ ha⟩
      · obtain ⟨v, hv, ha⟩ := ih hvs hu ⟨fun hn => hnext (.inl hn), fun hn => hnext (.inr hn)⟩
        exact ⟨v, List.mem_cons_of_mem _ hv, ha⟩

/-- Without session management the modules called, and what they call, do not depend on the worker. -/
theorem Loop.visits_eq (hoff : cfg.enableSsnMgmt = false) (h : Loop cfg tv m next pd w vs w')
    {v v' : Worker τ} {us : List Visit} (h' : Loop cfg tv m next pd v us v') : us = vs := by
  induction h generalizing v us with
  | done pd w =>
    cases h'
    rfl
  | @call mod pd w w' tcp s vs hmod hrest ih =>
    cases h' with
    | @call _ _ _ _ tcp' s' us hmod' hrest' =>
      have hsame := decodeMod_off hoff hmod v.tcp (v.prop.pushEvent (.mod mod)).ends
      obtain ⟨-, rfl⟩ := Prod.mk.inj (Except.ok.inj (hsame.symm.trans hmod'))
      rw [ih hrest']

/-- After a packet of UDP alone, its source port is in the property. -/
theorem run_srcPort (cfg : TcpConfig τ) (w : Worker τ) (p : Packet) (pd : Payload)
    (hroute : p.route.getLast? = some (.udp, pd)) (hlen : 8 ≤ pd.length) :
    Returns (Worker.run cfg w [(p, [])]) fun w' =>
      w'.prop.ends.srcPort = UInt16.ofNat (p.mem.word pd.ptr) := by
  obtain ⟨w', hw', vs, hloop, hvs, -, -, hmap⟩ := process_loop cfg w p
  rw [← hmap, List.getLast?_map] at hroute
  obtain ⟨v, hlast, hv⟩ := Option.map_eq_some_iff.mp hroute
  obtain ⟨hmod, rfl⟩ := Prod.mk.inj hv
  obtain ⟨init, rfl⟩ := List.getLast?_eq_some_iff.mp hlast
  refine ⟨w', ?_, ?_⟩
  · rw [Worker.run_cons, Worker.use, hw']
    rfl
  · obtain ⟨st, e, st', hcall⟩ := hloop.called v (by simp)
    have hsound := hvs v (by simp)
    rw [hmod] at hcall
    -- the calls of the last module are the last ones
    have hexec : w'.prop
        = ((w.prop.init.exec (init.flatMap Visit.ops)).pushEvent (.mod v.mod)).exec v.step.ops := by
      rw [hloop.exec_eq, List.flatMap_append, Property.exec_append, List.flatMap_singleton]
      rfl
    have hens : Ensures (decodeMod cfg p.tv p.mem st e v.pd .udp) fun r =>
        ∀ q : Property, (q.exec r.2.ops).ends.srcPort = UInt16.ofNat (p.mem.word v.pd.ptr) :=
      (udpDecode_srcPort hsound.wf (hsound.stop ▸ p.has_all) hlen).bind fun s hs => ensures_pure hs
    show w'.prop.ends.srcPort = _
    rw [hexec]
    exact hens _ hcall _

/-- **What decoding a packet does to the attributes.** -/
theorem process_attrs (hoff : cfg.enableSsnMgmt = false) (w : Worker τ) (p : Packet) :
    Returns (w.process cfg p) fun w' => ∃ vs,
      Loop cfg p.tv p.mem (some .ethernet) (Payload.reset p) { w with prop := w.prop.init } vs w' ∧
      (∀ a, a = .srcPort ∨ a = .dstPort → (a ∈ attrs (vs.flatMap Visit.ops) ↔ p.HasPorts)) ∧
      (p.HasPorts → ∀ a, a ∈ attrs (vs.flatMap Visit.ops)) := by
  refine (process_loop cfg w p).mono ?_
  rintro w' ⟨vs, hloop, hvs, -, -, hroute⟩
  have hhas : (∃ v ∈ vs, hasPorts v.mod v.pd) ↔ p.HasPorts := by
    unfold Packet.HasPorts
    rw [← hroute]
    simp
  have hports : ∀ a, a = .srcPort ∨ a = .dstPort →
      (a ∈ attrs (vs.flatMap Visit.ops) ↔ p.HasPorts) :=
    fun a ha => (hloop.ports hoff hvs ha).trans hhas
  refine ⟨vs, hloop, hports, fun hp a => ?_⟩
  obtain ⟨u, hu, hup⟩ := hhas.mpr hp
  have haddrs := hloop.addrs hvs hu hup (by simp)
  cases a with
  | srcAddr => exact haddrs _ (by simp [Mod.attrs])
  | dstAddr => exact haddrs _ (by simp [Mod.attrs])
  | srcPort => exact (hports _ (.inl rfl)).mpr hp
  | dstPort => exact (hports _ (.inr rfl)).mpr hp

end Loops

/-! ## Two runs -/

/-- A property as the constructor leaves it: the ports are whatever was in memory. -/
def Property.made (srcPort dstPort : UInt16) : Property := { ends := { srcPort, dstPort } }

theorem wf_made (srcPort dstPort : UInt16) : (Property.made srcPort dstPort).WF := by
  refine ⟨⟨rfl, fun d => Nat.le_refl 0⟩, Nat.le_refl 0, fun h o ho => ?_⟩
  cases ho

/-- A UDP packet from 10.0.0.1 to 10.0.0.2, between the given ports. -/
def udpBetween (sport dport : UInt8) : Packet :=
  ⟨4096, [0xff, 0xff, 0xff, 0xff, 0xff, 0xff, 2, 0, 0, 0, 0, 1, 0x08, 0x00,
    0x45, 0, 0, 28, 0, 0, 0, 0, 64, 17, 0, 0, 10, 0, 0, 1, 10, 0, 0, 2,
    0, sport, 0, dport, 0, 8, 0, 0], ⟨0, 0⟩, by simp⟩

/-- **The endpoints are those of the packet exactly when it has a whole header of TCP or UDP.** Two
workers with any history of packets and reads decode the same packet, and the four attributes are
compared. -/
theorem endpoints_own_iff (cfg : TcpConfig τ) (hoff : cfg.enableSsnMgmt = false)
    (t1 t2 : TcpState τ) (s1 d1 s2 d2 : UInt16) (p : Packet) :
    (∀ h1 h2 : List (Packet × List Key),
      Returns (Worker.run cfg { tcp := t1, prop := .made s1 d1 } h1) fun w1 =>
        Returns (Worker.run cfg { tcp := t2, prop := .made s2 d2 } h2) fun w2 =>
          Returns (w1.process cfg p) fun v1 => Returns (w2.process cfg p) fun v2 =>
            v1.prop.ends = v2.prop.ends) ↔ p.HasPorts := by
  constructor
  · intro h
    by_contra hp
    -- two histories that leave different ports
    obtain ⟨w1, hw1, w2, hw2, v1, hv1, v2, hv2, heq⟩ :=
      h [(udpBetween 1 9, [])] [(udpBetween 2 9, [])]
    obtain ⟨w1', hw1', hp1⟩ := run_srcPort cfg { tcp := t1, prop := .made s1 d1 }
      (udpBetween 1 9) ⟨4096, 34, 42, 8⟩ (by decide +kernel) (by decide +kernel)
    obtain ⟨w2', hw2', hp2⟩ := run_srcPort cfg { tcp := t2, prop := .made s2 d2 }
      (udpBetween 2 9) ⟨4096, 34, 42, 8⟩ (by decide +kernel) (by decide +kernel)
    obtain rfl := Except.ok.inj (hw1.symm.trans hw1')
    obtain rfl := Except.ok.inj (hw2.symm.trans hw2')
    obtain ⟨v1', hv1', vs1, hloop1, hports1, -⟩ := process_attrs hoff w1 p
    obtain ⟨v2', hv2', vs2, hloop2, hports2, -⟩ := process_attrs hoff w2 p
    obtain rfl := Except.ok.inj (hv1.symm.trans hv1')
    obtain rfl := Except.ok.inj (hv2.symm.trans hv2')
    have hk1 : v1.prop.ends.srcPort = w1.prop.ends.srcPort := by
      rw [hloop1.exec_eq]
      exact keeps_exec _ fun ha => hp ((hports1 _ (.inl rfl)).mp ha)
    have hk2 : v2.prop.ends.srcPort = w2.prop.ends.srcPort := by
      rw [hloop2.exec_eq]
      exact keeps_exec _ fun ha => hp ((hports2 _ (.inl rfl)).mp ha)
    rw [heq, hk2, hp2, hp1] at hk1
    exact absurd hk1 (by decide +kernel)
  · intro hp h1 h2
    refine (run_returns (wf_made s1 d1) h1).mono fun w1 _ => ?_
    refine (run_returns (wf_made s2 d2) h2).mono fun w2 _ => ?_
    refine (process_attrs hoff w1 p).mono ?_
    rintro v1 ⟨vs1, hloop1, -, hall⟩
    refine (process_attrs hoff w2 p).mono ?_
    rintro v2 ⟨vs2, hloop2, -, -⟩
    obtain rfl := hloop1.visits_eq hoff hloop2
    rw [hloop1.exec_eq, hloop2.exec_eq]
    exact Endpoints.eq_of_agree fun a => agree_exec _ (.inl (hall hp a))

/-- A packet of UDP is not mistaken for the one before it. -/
theorem endpoints_own_udp :
    (statelessConfig.enableSsnMgmt = false ∧ (udpBetween 1 9).HasPorts) ∧
      ∀ h1 h2 : List (Packet × List Key),
        Returns (Worker.run statelessConfig { tcp := { table := [] }, prop := .made 0 0 } h1) fun w1 =>
          Returns (Worker.run statelessConfig { tcp := { table := [] }, prop := .made 0 0 } h2)
            fun w2 => Returns (w1.process statelessConfig (udpBetween 1 9)) fun v1 =>
              Returns (w2.process statelessConfig (udpBetween 1 9)) fun v2 =>
                v1.prop.ends = v2.prop.ends :=
  have hports : (udpBetween 1 9).HasPorts := by decide +kernel
  ⟨⟨rfl, hports⟩, (endpoints_own_iff statelessConfig rfl { table := [] } { table := [] } 0 0 0 0
    (udpBetween 1 9)).mpr hports⟩

/-- The endpoints that a new worker reports for a packet after a history. -/
def endsAfter (hist : List (Packet × List Key)) (p : Packet) : Except Fault Endpoints := do
  let w ← Worker.run statelessConfig { tcp := { table := [] }, prop := .made 0 0 } hist
  let w ← w.process statelessConfig p
  return w.prop.ends

/-- **An ARP packet has the endpoints of the UDP packet before it.** -/
theorem arp_reports_earlier_endpoints :
    endsAfter [(udpBetween 1 9, [])] arpWhole = .ok ⟨[10, 0, 0, 1], [10, 0, 0, 2], 1, 9⟩ ∧
      endsAfter [(udpBetween 2 9, [])] arpWhole = .ok ⟨[10, 0, 0, 1], [10, 0, 0, 2], 2, 9⟩ ∧
      endsAfter [(udpBetween 1 9, [])] arpWhole ≠ endsAfter [(udpBetween 2 9, [])] arpWhole := by
  decide +kernel

end PacketMachine.Decode
