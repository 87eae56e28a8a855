import PacketMachine.Decode.Keys
import PacketMachine.Decode.Data

/-!
# What a module does when its header is there

The results of `Modules` and `TcpModule` bound what a decoder does on any input. Here the header, its
options included, lies in the window of the cursor, and the calls are given in full.

* `Mem.Holds` says that a byte string lies at a position.
* A module fills its own parameters only (`decodeMod_own`), with session management and without it, so
  that what a user reads of a parameter is decided by the one visit of its module
  (`process_visits`).

Results: `ethernetDecode_eq`, `pppoeDecode_eq`, `ipv4Decode_eq`, `udpDecode_eq`, `tcpDecode_eq` and
`sessionMgmt_eq`.
-/

namespace PacketMachine.Decode

open PacketMachine.Lib

variable {τ : Type}

/-! ## Bytes in memory -/

/-- The bytes at the positions from `i` on. -/
def Mem.Holds (m : Mem) : Nat → List UInt8 → Prop
  | _, [] => True
  | i, b :: bs => m i = some b ∧ m.Holds (i + 1) bs

/-- The `n` bytes from a position on, 0 where there is none. -/
def Mem.block (m : Mem) (i n : Nat) : List UInt8 := (List.range n).map fun k => m.byte (i + k)

/-- A `uint16_t` in network order. -/
def netU16 (n : UInt16) : List UInt8 := [UInt8.ofNat (n.toNat / 256), UInt8.ofNat n.toNat]

/-- A `uint32_t` in network order. -/
def netU32 (n : UInt32) : List UInt8 :=
  [UInt8.ofNat (n.toNat / 2 ^ 24), UInt8.ofNat (n.toNat / 2 ^ 16), UInt8.ofNat (n.toNat / 2 ^ 8),
    UInt8.ofNat n.toNat]

section Holds

variable {m : Mem} {i : Nat} {bs bs' : List UInt8}

theorem length_netU16 (n : UInt16) : (netU16 n).length = 2 := rfl

theorem length_netU32 (n : UInt32) : (netU32 n).length = 4 := rfl

theorem toNat_ofNat_length {bytes : List UInt8} (h : bytes.length < 256) :
    (UInt8.ofNat bytes.length).toNat = bytes.length := by
  rw [UInt8.toNat_ofNat']
  exact Nat.mod_eq_of_lt h

theorem Mem.holds_append :
    m.Holds i (bs ++ bs') ↔ m.Holds i bs ∧ m.Holds (i + bs.length) bs' := by
  induction bs generalizing i with
  | nil => simp [Mem.Holds]
  | cons b bs ih =>
    rw [List.cons_append, Mem.Holds, Mem.Holds, ih, List.length_cons,
      show i + 1 + bs.length = i + (bs.length + 1) by omega, and_assoc]

theorem Mem.Holds.bytes (h : m.Holds i bs) : m.bytes i bs.length = .ok bs := by
  induction bs generalizing i with
  | nil => rfl
  | cons b bs ih =>
    rw [List.length_cons, Mem.bytes, Mem.u8, h.1]
    simp only [bind, Except.bind, ih h.2]
    rfl

/-- The bytes of a packet. -/
theorem Packet.holds (p : Packet) : p.mem.Holds 0 p.data := by
  have h : ∀ (bs : List UInt8) (i : Nat), p.data.drop i = bs → p.mem.Holds i bs := by
    intro bs
    induction bs with
    | nil => exact fun _ _ => trivial
    | cons b bs ih =>
      intro i hi
      refine ⟨?_, ih (i + 1) ?_⟩
      · rw [Packet.mem, ← List.head?_drop, hi]
        rfl
      · rw [← List.tail_drop, hi]
        rfl
  exact h p.data 0 rfl

theorem Mem.Holds.byte {b : UInt8} (h : m.Holds i [b]) : m.byte i = b := by
  rw [Mem.byte, h.1]
  rfl

theorem Mem.Holds.head {b : UInt8} (h : m.Holds i (b :: bs)) :
    m.byte i = b := by
  rw [Mem.byte, h.1]
  rfl

theorem Mem.Holds.has (h : m.Holds i bs) : m.Has i bs.length := by
  induction bs generalizing i with
  | nil =>
    intro k hk hlt
    rw [List.length_nil] at hlt
    omega
  | cons b bs ih =>
    intro k hk hlt
    rw [List.length_cons] at hlt
    rcases Nat.eq_or_lt_of_le hk with rfl | hk
    · rw [h.1]
      rfl
    · exact ih h.2 k hk (by omega)

theorem word_net (n : UInt16) :
    (UInt8.ofNat (n.toNat / 256)).toNat * 256 + (UInt8.ofNat n.toNat).toNat = n.toNat := by
  have hlt := n.toNat_lt
  simp only [UInt8.toNat_ofNat']
  omega

theorem Mem.Holds.word {n : UInt16} (h : m.Holds i (netU16 n)) : m.word i = n.toNat := by
  rw [Mem.word, Mem.byte, Mem.byte, h.1, h.2.1]
  exact word_net n

theorem Mem.Holds.u16 {n : UInt16} (h : m.Holds i (netU16 n)) : m.u16 i = .ok n.toNat := by
  have hhas : m.Has i 2 := h.has
  rw [Mem.u16_eq hhas (Nat.le_refl _) (Nat.le_refl _), h.word]

theorem numberOf_u16 (n : UInt16) : numberOf .big (netU16 n) = n.toNat := by
  have := word_net n
  simpa [numberOf, netU16] using this

theorem numberOf_u32 (n : UInt32) : numberOf .big (netU32 n) = n.toNat := by
  have hlt := n.toNat_lt
  simp only [numberOf, netU32, List.foldl_cons, List.foldl_nil, UInt8.toNat_ofNat']
  omega

theorem Mem.block_succ (m : Mem) (i n : Nat) : m.block i (n + 1) = m.byte i :: m.block (i + 1) n := by
  rw [Mem.block, Mem.block, List.range_succ_eq_map, List.map_cons, List.map_map, Nat.add_zero]
  refine congrArg (m.byte i :: ·) (List.map_congr_left fun k _ => ?_)
  show m.byte (i + (k + 1)) = m.byte (i + 1 + k)
  rw [Nat.add_assoc, Nat.add_comm 1 k]

theorem Mem.bytes_eq {n : Nat} (h : m.Has i n) : m.bytes i n = .ok (m.block i n) := by
  induction n generalizing i with
  | zero => rfl
  | succ n ih =>
    have hrest := ih (show m.Has (i + 1) n from h.sub (by omega) (by omega))
    rw [Mem.bytes, Mem.u8_eq h (Nat.le_refl i) (by omega), Mem.block_succ]
    simp only [bind, Except.bind, hrest]
    rfl

theorem Mem.length_block (m : Mem) (i n : Nat) : (m.block i n).length = n := by
  simp [Mem.block]

end Holds

/-! ## Modules -/

section Modules

variable {m : Mem} {pd : Payload}

theorem withHeader_eq {size : Nat} (h : pd.WF) (hs : size ≤ pd.length)
    (k : Nat → Payload → Except Fault Step) : withHeader pd size k = k pd.ptr (pd.skip size) := by
  rw [withHeader, Payload.retain_eq h, if_pos hs]

theorem ethernetDecode_eq (h : pd.WF) (hm : m.Has 0 pd.stop) (hs : 14 ≤ pd.length) :
    ethernetDecode m pd = .ok {
      pd := pd.skip 14
      ops := [.set .ethernetType (.pkt (pd.ptr + 12)) 2, .set .ethernetSrc (.pkt (pd.ptr + 6)) 6,
        .set .ethernetDst (.pkt pd.ptr) 6]
      next := ethernetNext (m.word (pd.ptr + 12)) } := by
  have hw := h.window
  rw [ethernetDecode, withHeader_eq h hs, Mem.u16_eq hm (by omega) (by omega)]
  rfl

theorem dot1qDecode_eq (h : pd.WF) (hm : m.Has 0 pd.stop) (hs : 4 ≤ pd.length) :
    dot1qDecode m pd = .ok {
      pd := pd.skip 4
      ops := [.set .dot1qType (.pkt (pd.ptr + 2)) 2,
        .cpy .dot1qVlanId (hostU16 (m.word pd.ptr &&& 0x7ff)) .little]
      next := dot1qNext (m.word (pd.ptr + 2)) } := by
  have hw := h.window
  rw [dot1qDecode, withHeader_eq h hs, Mem.u16_eq hm (by omega) (by omega),
    Mem.u16_eq hm (by omega) (by omega)]
  rfl

/-- The window behind the IPv4 header and its options, cut to the total length. -/
def ipv4Inner (m : Mem) (pd : Payload) : Payload :=
  (ipv4Options (pd.skip 20) (ipv4HdrLen (m.byte pd.ptr))).pd.shrink
    (m.word (pd.ptr + 2) - ipv4HdrLen (m.byte pd.ptr))

theorem ipv4Decode_eq (h : pd.WF) (hm : m.Has 0 pd.stop) (hs : 20 ≤ pd.length)
    (htotal : ipv4HdrLen (m.byte pd.ptr) ≤ m.word (pd.ptr + 2)) :
    ipv4Decode m pd = .ok {
      pd := ipv4Inner m pd
      ops := ([.set .ipv4Hdr (.pkt pd.ptr) 20, .srcAddr (m.block (pd.ptr + 12) 4),
          .dstAddr (m.block (pd.ptr + 16) 4), .set .ipv4Src (.pkt (pd.ptr + 12)) 4,
          .set .ipv4Dst (.pkt (pd.ptr + 16)) 4] : List Op)
        ++ (ipv4Options (pd.skip 20) (ipv4HdrLen (m.byte pd.ptr))).ops
        ++ [.set .ipv4Data (.pkt (ipv4Inner m pd).ptr) (ipv4Inner m pd).length]
      next := ipv4Next (m.byte (pd.ptr + 9)) } := by
  have hw := h.window
  rw [ipv4Decode, withHeader_eq h hs, Mem.u8_eq hm (by omega) (by omega),
    Mem.u16_eq hm (by omega) (by omega), Mem.bytes_eq (hm.sub (by omega) (by omega)),
    Mem.bytes_eq (hm.sub (by omega) (by omega)), Mem.u8_eq hm (by omega) (by omega)]
  simp only [bind, Except.bind, if_neg (Nat.not_lt.mpr htotal)]
  rfl

theorem udpDecode_eq (h : pd.WF) (hm : m.Has 0 pd.stop) (hs : 8 ≤ pd.length) :
    udpDecode m pd = .ok {
      pd := pd.skip 8
      ops := [.srcPort (UInt16.ofNat (m.word pd.ptr)), .dstPort (UInt16.ofNat (m.word (pd.ptr + 2))),
        .set .udpHdr (.pkt pd.ptr) 8, .set .udpSrcPort (.pkt pd.ptr) 2,
        .set .udpDstPort (.pkt (pd.ptr + 2)) 2, .set .udpLength (.pkt (pd.ptr + 4)) 2,
        .set .udpChksum (.pkt (pd.ptr + 6)) 2]
      next := udpNext (m.word pd.ptr) (m.word (pd.ptr + 2)) } := by
  have hw := h.window
  rw [udpDecode, withHeader_eq h hs, Mem.u16_eq hm (by omega) (by omega),
    Mem.u16_eq hm (by omega) (by omega)]
  rfl

end Modules

/-! ## TCP -/

/-- The bytes of a TCP header behind the cursor, without its options. -/
def tcpSpan (m : Mem) (pd : Payload) : Nat := 20 + tcpOptLen (m.byte (pd.ptr + 12))

/-- The calls of `TCP::decode` before the session management. -/
def tcpHead (m : Mem) (pd : Payload) : List Op :=
  ([.srcPort (UInt16.ofNat (m.word pd.ptr)), .dstPort (UInt16.ofNat (m.word (pd.ptr + 2))),
      .set .tcpSrcPort (.pkt pd.ptr) 2 .big (Eq.refl true),
      .set .tcpDstPort (.pkt (pd.ptr + 2)) 2 .big (Eq.refl true),
      .set .tcpHdr (.pkt pd.ptr) 20 .big (Eq.refl true)] : List Op)
    ++ (if tcpSpan m pd > 20 then
      [.set .tcpOptdata (.pkt (pd.ptr + 20)) (tcpSpan m pd - 20) .big (Eq.refl true)] else [])
    ++ (if pd.length - tcpSpan m pd > 0 then
      [.set .tcpSegment (.pkt (pd.ptr + tcpSpan m pd)) (pd.length - tcpSpan m pd) .big (Eq.refl true)]
    else [])

/-- The endpoints with the ports of a TCP header. -/
def tcpEnds (m : Mem) (pd : Payload) (e : Endpoints) : Endpoints :=
  { e with srcPort := UInt16.ofNat (m.word pd.ptr), dstPort := UInt16.ofNat (m.word (pd.ptr + 2)) }

/-- The packet as the session sees it. -/
def tcpPacket (m : Mem) (pd : Payload) (e : Endpoints) (tv : Tcp.Timeval) : Tcp.Packet where
  src := ⟨e.srcAddr, e.srcPort⟩
  flags := m.byte (pd.ptr + 13) &&& (Tcp.FIN ||| Tcp.SYN ||| Tcp.RST ||| Tcp.ACK)
  seq := UInt32.ofNat (m.word (pd.ptr + 4) * 65536 + m.word (pd.ptr + 4 + 2))
  ack := UInt32.ofNat (m.word (pd.ptr + 8) * 65536 + m.word (pd.ptr + 8 + 2))
  win := UInt16.ofNat (m.word (pd.ptr + 14))
  data := m.block (pd.ptr + tcpSpan m pd) (pd.length - tcpSpan m pd)
  tv := tv

section Tcp

variable {m : Mem} {pd : Payload} {cfg : TcpConfig τ} {st : TcpState τ} {e : Endpoints}
  {tv : Tcp.Timeval}

theorem setProperties_eq (h : pd.WF) (hm : m.Has 0 pd.stop) (hs : tcpSpan m pd ≤ pd.length) :
    setProperties m pd.ptr (pd.skip 20) = .ok (pd.skip (tcpSpan m pd),
      ([.srcPort (UInt16.ofNat (m.word pd.ptr)), .dstPort (UInt16.ofNat (m.word (pd.ptr + 2))),
        .set .tcpSrcPort (.pkt pd.ptr) 2, .set .tcpDstPort (.pkt (pd.ptr + 2)) 2,
        .set .tcpHdr (.pkt pd.ptr) 20] : List Op)
      ++ (if tcpSpan m pd > 20 then [.set .tcpOptdata (.pkt (pd.ptr + 20)) (tcpSpan m pd - 20)] else []),
      true) := by
  have hw := h.window
  unfold tcpSpan at hs ⊢
  have h20 : 20 ≤ pd.length := by omega
  have hlen : (pd.skip 20).length = pd.length - 20 := rfl
  unfold setProperties
  rw [Mem.u16_eq hm (by omega) (by omega), Mem.u16_eq hm (by omega) (by omega),
    Mem.u8_eq hm (by omega) (by omega)]
  simp only [bind, Except.bind]
  generalize tcpOptLen (m.byte (pd.ptr + 12)) = n at hs ⊢
  by_cases hn : n > 0
  · rw [if_pos hn, if_pos (by omega), Payload.retain_eq (h.skip h20), if_pos (by omega),
      Nat.add_sub_cancel_left]
    simp only [Payload.skip, Nat.add_assoc, Nat.sub_sub]
    rfl
  · obtain rfl : n = 0 := by omega
    rfl

theorem tcpDecode_eq (h : pd.WF) (hm : m.Has 0 pd.stop) (hs : tcpSpan m pd ≤ pd.length) :
    tcpDecode cfg st e tv m pd =
      if cfg.enableSsnMgmt then do
        let r ← sessionMgmt cfg st (tcpEnds m pd e) tv m pd.ptr (pd.ptr + tcpSpan m pd)
          (pd.length - tcpSpan m pd)
        return (r.1, { pd := pd.skip pd.length, ops := tcpHead m pd ++ r.2 })
      else .ok (st, { pd := pd.skip pd.length, ops := tcpHead m pd }) := by
  have hw := h.window
  have h20 : 20 ≤ pd.length := by
    unfold tcpSpan at hs
    omega
  have hlen : (pd.skip (tcpSpan m pd)).length = pd.length - tcpSpan m pd := rfl
  have hptr : (pd.skip (tcpSpan m pd)).ptr = pd.ptr + tcpSpan m pd := rfl
  -- the cursor is at the end, whether or not there is a segment
  have hend : (if pd.length - tcpSpan m pd > 0 then
      (((pd.skip (tcpSpan m pd)).retain (pd.length - tcpSpan m pd)).map Prod.snd).getD
        (pd.skip (tcpSpan m pd)) else pd.skip (tcpSpan m pd)) = pd.skip pd.length := by
    have hskip : (pd.skip (tcpSpan m pd)).skip (pd.length - tcpSpan m pd) = pd.skip pd.length := by
      simp only [Payload.skip, Payload.mk.injEq, true_and]
      omega
    rw [Payload.retain_eq (h.skip hs), if_pos (Nat.le_of_eq hlen.symm)]
    split
    · exact hskip
    · rename_i hz
      rw [← hskip, show pd.length - tcpSpan m pd = 0 by omega]
      rfl
  rw [tcpDecode, Payload.retain_eq h, if_pos h20]
  simp only [setProperties_eq h hm hs, bind, Except.bind, not_true_eq_false, if_false, hlen, hptr, hend,
    Mem.u16_eq hm (Nat.zero_le pd.ptr) (show pd.ptr + 2 ≤ 0 + pd.stop by omega),
    Mem.u16_eq hm (Nat.zero_le (pd.ptr + 2)) (show pd.ptr + 2 + 2 ≤ 0 + pd.stop by omega)]
  rfl

/-- The table when `search_session` is called. -/
def TcpState.upTo (cfg : TcpConfig τ) (st : TcpState τ) (ts : Int) : TcpState τ :=
  { st.advance cfg ts with table := cfg.lru.expire (st.advance cfg ts).table }

/-- `seg_ptr` of `TCP::decode`. -/
def tcpSegPtr (m : Mem) (pd : Payload) : Ptr :=
  if pd.length - tcpSpan m pd > 0 then .pkt (pd.ptr + tcpSpan m pd) else .null

theorem sessionMgmt_eq (h : pd.WF) (hm : m.Has 0 pd.stop) (hs : tcpSpan m pd ≤ pd.length)
    {key : List UInt8} (hkey : makeKey e = .ok key) {found : TcpState τ × Tcp.Session × List Op}
    (hfound : searchSession cfg (st.upTo cfg tv.sec) e key = found) :
    ∃ r, Tcp.decode ⟨found.2.1, []⟩ (tcpPacket m pd e tv) = some r ∧
      sessionMgmt cfg st e tv m pd.ptr (pd.ptr + tcpSpan m pd) (pd.length - tcpSpan m pd)
        = .ok ({ found.1 with table := cfg.lru.set found.1.table key r.ssn },
          found.2.2 ++ [.cpy .tcpId (hostU64 found.2.1.id.toNat)]
            ++ r.out.flatMap (effOps (tcpSegPtr m pd) (pd.length - tcpSpan m pd))) := by
  have hw := h.window
  have h20 : 20 ≤ tcpSpan m pd := Nat.le_add_right _ _
  obtain ⟨r, hr⟩ := Tcp.decode_isSome ⟨found.2.1, []⟩ (tcpPacket m pd e tv)
  refine ⟨r, hr, ?_⟩
  unfold TcpState.upTo at hfound
  unfold tcpPacket at hr
  rw [sessionMgmt, hkey, Mem.u8_eq hm (by omega) (by omega), Mem.u32_eq hm (by omega) (by omega),
    Mem.u32_eq hm (by omega) (by omega), Mem.u16_eq hm (by omega) (by omega),
    Mem.bytes_eq (hm.sub (by omega) (by omega))]
  simp only [bind, Except.bind, hfound, hr]
  rfl

/-- The parameters that the session management fills. -/
def ssnParams : List Param := [.tcpId, .tcpRtt3wh, .tcpData, .tcpTxServer, .tcpTxClient]

theorem sessionMgmt_own {hdr segOff segLen : Nat} :
    Ensures (sessionMgmt cfg st e tv m hdr segOff segLen) fun r => ∀ d ∈ retained r.2, d ∈ ssnParams := by
  unfold sessionMgmt
  dsimp only
  refine ensures_bind fun key => ensures_bind fun flags => ensures_bind fun seq =>
    ensures_bind fun ack => ensures_bind fun win => ensures_bind fun data => ?_
  split
  · exact ensures_error
  · refine ensures_pure fun d hd => ?_
    obtain ⟨op, hop, hd⟩ := List.mem_flatMap.mp hd
    simp only [List.mem_append, List.mem_singleton, List.mem_flatMap] at hop
    rcases hop with (hop | rfl) | ⟨eff, -, hop⟩
    · unfold searchSession at hop
      split at hop
      · cases hop
      · obtain rfl := List.mem_singleton.mp hop
        cases hd
    · obtain rfl := List.mem_singleton.mp hd
      simp [ssnParams]
    · unfold effOps at hop
      split at hop
      all_goals first
        | (obtain rfl := List.mem_singleton.mp hop
           simp only [Op.retains, List.mem_singleton, List.not_mem_nil] at hd
           try (subst hd; simp [ssnParams]))
        | cases hop

theorem tcpDecode_own : Ensures (tcpDecode cfg st e tv m pd) fun r =>
    ∀ d ∈ retained r.2.ops, d.mod = .tcp := by
  have hseg : ∀ (ptr : Ptr) (n : Nat), ∀ d ∈ retained (if n > 0 then [Op.set .tcpSegment ptr n] else []),
      d.mod = .tcp := by
    intro ptr n d hd
    split at hd
    · obtain rfl : d = .tcpSegment := by simpa [retained, Op.retains] using hd
      rfl
    · cases hd
  have hssn : ∀ d ∈ ssnParams, d.mod = .tcp := by decide
  unfold tcpDecode
  split
  · exact ensures_ok (by simp [retained])
  · refine setProperties_owns.bind ?_
    rintro ⟨pd', ops, ok⟩ ⟨hops, -⟩
    dsimp only
    split
    · exact ensures_pure hops.own
    · split
      · refine ensures_bind fun sport => ensures_bind fun dport => sessionMgmt_own.bind ?_
        rintro ⟨st', ssnOps⟩ hown
        refine ensures_pure fun d hd => ?_
        rw [retained_append, retained_append, List.mem_append, List.mem_append] at hd
        rcases hd with (hd | hd) | hd
        · exact hops.own d hd
        · exact hseg _ _ d hd
        · exact hssn d (hown d hd)
      · refine ensures_pure fun d hd => ?_
        rw [retained_append, List.mem_append] at hd
        exact hd.elim (hops.own d) (hseg _ _ d)

/-- **A module fills its own parameters only.** -/
theorem decodeMod_own {mod : Mod} : Ensures (decodeMod cfg tv m st e pd mod) fun r =>
    ∀ d ∈ retained r.2.ops, d.mod = mod := by
  by_cases h : mod = .tcp
  · subst h
    exact tcpDecode_own
  · rw [decodeMod_of_ne h]
    exact (decodeMod_owns rfl).mono fun r hr => hr.own

end Tcp

/-! ## The visit that decides a parameter -/

section Visits

theorem Op.call?_retains {d : Param} {op : Op} {f : Cell → Cell} (h : op.call? d = some f) :
    d ∈ op.retains := by
  cases op with
  | set d' ptr len e _ =>
    simp only [Op.call?, Option.ite_none_right_eq_some] at h
    simp [Op.retains, h.1]
  | cpy d' bytes e _ =>
    simp only [Op.call?, Option.ite_none_right_eq_some] at h
    simp [Op.retains, h.1]
  | _ => cases h

theorem setCalls_eq_nil {d : Param} {ops : List Op} (h : d ∉ retained ops) : setCalls d ops = [] := by
  refine List.filterMap_eq_nil_iff.mpr fun op hop => ?_
  by_contra hne
  obtain ⟨f, hf⟩ := Option.ne_none_iff_exists'.mp hne
  exact h (List.mem_flatMap.mpr ⟨op, hop, Op.call?_retains hf⟩)

/-- Among visits of different modules, one decides what a parameter is set to. -/
theorem setCalls_visits {vs : List Visit} (hnd : (vs.map Visit.mod).Nodup)
    (hown : ∀ v ∈ vs, ∀ d ∈ retained v.step.ops, d.mod = v.mod) {v : Visit} (hv : v ∈ vs) {d : Param}
    (hd : d.mod = v.mod) : setCalls d (vs.flatMap Visit.ops) = setCalls d v.step.ops := by
  induction vs with
  | nil => cases hv
  | cons u vs ih =>
    obtain ⟨hu, hvs⟩ := List.forall_mem_cons.mp hown
    rw [List.map_cons, List.nodup_cons] at hnd
    have hops : ∀ u : Visit, setCalls d u.ops = setCalls d u.step.ops := fun u => rfl
    rw [List.flatMap_cons, setCalls_append, hops]
    rcases List.mem_cons.mp hv with rfl | hv
    · have hrest : setCalls d (vs.flatMap Visit.ops) = [] := by
        refine setCalls_eq_nil fun hmem => ?_
        rw [retained_visits] at hmem
        obtain ⟨w, hw, hmem⟩ := List.mem_flatMap.mp hmem
        exact hnd.1 (hd ▸ hvs w hw d hmem ▸ List.mem_map_of_mem hw)
      rw [hrest, List.append_nil]
    · have hne : d ∉ retained u.step.ops := fun hmem =>
        hnd.1 (hu d hmem ▸ hd ▸ List.mem_map_of_mem hv)
      rw [setCalls_eq_nil hne, List.nil_append, ih hnd.2 hvs hv]

variable {cfg : TcpConfig τ} {tv : Tcp.Timeval} {m : Mem} {start : Option Mod} {pd : Payload}
  {w w' : Worker τ} {vs : List Visit}

theorem Loop.head {mod : Mod} (h : Loop cfg tv m (some mod) pd w vs w') :
    ∃ v ∈ vs, v.mod = mod ∧ v.pd = pd := by
  cases h with
  | call hmod hrest => exact ⟨_, List.mem_cons_self, rfl, rfl⟩

/-- The module that a visit names is visited, at the cursor it leaves. -/
theorem Loop.next (h : Loop cfg tv m start pd w vs w') {v : Visit} (hv : v ∈ vs) {mod : Mod}
    (hn : v.step.next = some mod) : ∃ u ∈ vs, u.mod = mod ∧ u.pd = v.step.pd := by
  induction h with
  | done pd w => cases hv
  | @call _ pd w w' tcp s vs hmod hrest ih =>
    obtain ⟨u, hu, hup⟩ : ∃ u ∈ vs, u.mod = mod ∧ u.pd = v.step.pd := by
      rcases List.mem_cons.mp hv with rfl | hv
      · rw [show s.next = some mod from hn] at hrest
        exact hrest.head
      · exact ih hv
    exact ⟨u, List.mem_cons_of_mem _ hu, hup⟩

/-- **What decoding a packet comes to**: the visits follow the bytes, each is a call of its module, and
it decides the parameters of this module. -/
structure Visited (cfg : TcpConfig τ) (p : Packet) (vs : List Visit) : Prop where
  first : ∃ v ∈ vs, v.mod = .ethernet ∧ v.pd = Payload.reset p
  next : ∀ v ∈ vs, ∀ mod pd, nextOf p.mem v.mod v.pd = some (mod, pd) → ∃ u ∈ vs, u.mod = mod ∧ u.pd = pd
  wf : ∀ v ∈ vs, v.pd.WF ∧ p.mem.Has 0 v.pd.stop
  called : ∀ v ∈ vs, ∃ st e st', decodeMod cfg p.tv p.mem st e v.pd v.mod = .ok (st', v.step)
  calls : ∀ v ∈ vs, ∀ d, d.mod = v.mod → setCalls d (vs.flatMap Visit.ops) = setCalls d v.step.ops

theorem process_visited (cfg : TcpConfig τ) (w : Worker τ) (p : Packet) :
    Returns (w.process cfg p) fun w' => ∃ vs, w'.prop = w.prop.init.exec (vs.flatMap Visit.ops) ∧
      Visited cfg p vs := by
  refine (process_loop cfg w p).mono ?_
  rintro w' ⟨vs, hloop, hsound, hsorted, hle, -⟩
  have hown : ∀ v ∈ vs, ∀ d ∈ retained v.step.ops, d.mod = v.mod := by
    intro v hv
    obtain ⟨st, e, st', hcall⟩ := hloop.called v hv
    exact decodeMod_own _ hcall
  refine ⟨vs, hloop.exec_eq, hloop.head, fun v hv mod pd hn => ?_, fun v hv => ?_, hloop.called,
    fun v hv d hd => setCalls_visits (ranks_fall hsorted hle).2 hown hv hd⟩
  · have hfollow := (hsound v hv).follow.trans hn
    obtain ⟨mod', hmod, heq⟩ := Option.map_eq_some_iff.mp hfollow
    obtain ⟨rfl, rfl⟩ := Prod.mk.inj heq
    exact hloop.next hv hmod
  · exact ⟨(hsound v hv).wf, (hsound v hv).stop ▸ p.has_all⟩

end Visits

end PacketMachine.Decode
