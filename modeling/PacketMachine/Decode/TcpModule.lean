import PacketMachine.Decode.Modules

/-!
# The TCP module

Model of `TCP::decode` with `set_properties`, `make_key` and `search_session` (`modules/tcp.cc:430-460`,
`575-645`). The session behind a key is the `Tcp.Session` of this development.

* `tb::LruHash` is not part of the repository and is a parameter. It holds pointers to sessions; `set`
  stands for the changes that `Session::decode` makes through such a pointer.
* What a session does to the property is the record of `Tcp.decode`, entry by entry (`effOps`).

Results:
* **`decode_first_data`**: the first value of `TCP.data` that a packet leads to is its own segment.
* **`tcpDecode_returns`**: the decoder reads only the packet, and no assertion fails when both addresses
  have the same length.
-/

namespace PacketMachine.Decode

open PacketMachine.Lib

variable {τ : Type}

/-! ## The code -/

/-- `tb::LruHash<Session*>`, with the key as a byte string. `expire` takes out all expired entries. -/
structure LruHash (τ : Type) where
  step : τ → Int → τ
  expire : τ → τ
  get : τ → List UInt8 → Option Tcp.Session
  put : τ → Int → List UInt8 → Tcp.Session → τ
  set : τ → List UInt8 → Tcp.Session → τ

/-- Such a table, as a list of the sessions with their remaining time. -/
def listHash : LruHash (List (Int × List UInt8 × Tcp.Session)) where
  step t tick := t.map fun e => (e.1 - tick, e.2)
  expire t := t.filter fun e => 0 < e.1
  get t key := (t.find? fun e => e.2.1 == key).map fun e => e.2.2
  put t tick key ssn := (tick, key, ssn) :: t
  set t key ssn := t.map fun e => if e.2.1 == key then (e.1, key, ssn) else e

/-- The configuration of the module. -/
structure TcpConfig (τ : Type) where
  enableSsnMgmt : Bool
  ssnTimeout : Int
  lru : LruHash τ

/-- The members of the module that change. -/
structure TcpState (τ : Type) where
  table : τ
  ssnCount : UInt64 := 0
  currTs : Int := 0
  initTs : Bool := false

/-- `optlen`, a `size_t`: it wraps when the offset is less than the header. -/
def tcpOptLen (b : UInt8) : Nat := (((b &&& 0xf0) >>> 2).toUInt64 - 20).toNat

/-- `TCP::set_properties`: the cursor, the calls and the result. -/
def setProperties (m : Mem) (hdr : Nat) (pd : Payload) : Except Fault (Payload × List Op × Bool) := do
  let sport ← m.u16 hdr
  let dport ← m.u16 (hdr + 2)
  let ops := [.srcPort (UInt16.ofNat sport), .dstPort (UInt16.ofNat dport),
    .set .tcpSrcPort (.pkt hdr) 2, .set .tcpDstPort (.pkt (hdr + 2)) 2, .set .tcpHdr (.pkt hdr) 20]
  let optLen := tcpOptLen (← m.u8 (hdr + 12))
  if optLen > 0 then
    match pd.retain optLen with
    | none => return (pd, ops, false)
    | some (opt, pd) => return (pd, ops ++ [.set .tcpOptdata (.pkt opt) optLen], true)
  else return (pd, ops, true)

/-- `memcmp` of two byte strings of the same length. -/
def memcmp : List UInt8 → List UInt8 → Ordering
  | a :: as, b :: bs => if a < b then .lt else if b < a then .gt else memcmp as bs
  | _, _ => .eq

/-- `Session::make_key`: the greater endpoint first, so that both directions have one key. -/
def makeKey (e : Endpoints) : Except Fault (List UInt8) :=
  if e.srcAddr.length = e.dstAddr.length then
    let src := e.srcAddr ++ hostU16 e.srcPort.toNat
    let dst := e.dstAddr ++ hostU16 e.dstPort.toNat
    let rc := memcmp e.srcAddr e.dstAddr
    .ok (if rc = .gt ∨ rc = .eq ∧ e.srcPort > e.dstPort then src ++ dst else dst ++ src)
  else .error (.assertion "src_len == dst_len")

/-- The clock of the table. -/
def TcpState.advance (cfg : TcpConfig τ) (st : TcpState τ) (ts : Int) : TcpState τ :=
  if st.currTs < ts then
    { st with
      currTs := ts
      initTs := true
      table := if st.initTs then cfg.lru.step st.table (ts - st.currTs) else st.table }
  else st

/-- `TCP::search_session`. -/
def searchSession (cfg : TcpConfig τ) (st : TcpState τ) (e : Endpoints) (key : List UInt8) :
    TcpState τ × Tcp.Session × List Op :=
  match cfg.lru.get st.table key with
  | some ssn => (st, ssn, [])
  | none =>
    let id := st.ssnCount + 1
    let ssn := Tcp.Session.new ⟨e.srcAddr, e.srcPort⟩ ⟨e.dstAddr, e.dstPort⟩ id
    ({ st with ssnCount := id, table := cfg.lru.put st.table cfg.ssnTimeout key ssn }, ssn,
      [.event .tcpNewSession])

/-- The bytes of a `uint64_t` of the (little-endian) host. -/
def hostU64 (n : Nat) : List UInt8 := hostU32 n ++ hostU32 (n / 2 ^ 32)

/-- The calls behind an entry of the record of a session. -/
def effOps (segPtr : Ptr) (segLen : Nat) : Tcp.Eff → List Op
  | .pushEvent .established => [.event .tcpEstablished]
  | .pushEvent .closed => [.event .tcpClosed]
  | .rtt3wh us => [.cpy .tcpRtt3wh (hostU32 us.toNat) .little]
  | .data (.seg _) => [.set .tcpData segPtr segLen]
  | .data (.buf data) => [.set .tcpData (.ext data) data.length]
  | .txServer n => [.cpy .tcpTxServer (hostU32 n.toNat) .little]
  | .txClient n => [.cpy .tcpTxClient (hostU32 n.toNat) .little]
  | _ => []

/-- The session management of `TCP::decode`. -/
def sessionMgmt (cfg : TcpConfig τ) (st : TcpState τ) (e : Endpoints) (tv : Tcp.Timeval) (m : Mem)
    (hdr segOff segLen : Nat) : Except Fault (TcpState τ × List Op) := do
  let st := st.advance cfg tv.sec
  let st := { st with table := cfg.lru.expire st.table }
  let key ← makeKey e
  let (st, ssn, newOps) := searchSession cfg st e key
  let flags := (← m.u8 (hdr + 13)) &&& (Tcp.FIN ||| Tcp.SYN ||| Tcp.RST ||| Tcp.ACK)
  let seq ← m.u32 (hdr + 4)
  let ack ← m.u32 (hdr + 8)
  let win ← m.u16 (hdr + 14)
  let data ← m.bytes segOff segLen
  match Tcp.decode ⟨ssn, []⟩ {
    src := ⟨e.srcAddr, e.srcPort⟩
    flags, data, tv
    seq := UInt32.ofNat seq
    ack := UInt32.ofNat ack
    win := UInt16.ofNat win } with
  | none => .error .fuel
  | some r =>
    -- `seg_ptr` is `nullptr` when there is no segment
    let segPtr := if segLen > 0 then Ptr.pkt segOff else .null
    return ({ st with table := cfg.lru.set st.table key r.ssn },
      newOps ++ [.cpy .tcpId (hostU64 ssn.id.toNat)] ++ r.out.flatMap (effOps segPtr segLen))

/-- `TCP::decode`. `e` are the endpoints that the property has, the ports of which `set_properties` has
just set. -/
def tcpDecode (cfg : TcpConfig τ) (st : TcpState τ) (e : Endpoints) (tv : Tcp.Timeval) (m : Mem)
    (pd : Payload) : Except Fault (TcpState τ × Step) :=
  match pd.retain 20 with
  | none => .ok (st, { pd })
  | some (hdr, pd) => do
    let (pd, ops, ok) ← setProperties m hdr pd
    if ¬ ok then return (st, { pd, ops })
    else
      let segLen := pd.length
      let segOff := pd.ptr
      let segOps := if segLen > 0 then [.set .tcpSegment (.pkt segOff) segLen] else []
      let pd := if segLen > 0 then ((pd.retain segLen).map Prod.snd).getD pd else pd
      if cfg.enableSsnMgmt then
        let sport ← m.u16 hdr
        let dport ← m.u16 (hdr + 2)
        let e := { e with srcPort := UInt16.ofNat sport, dstPort := UInt16.ofNat dport }
        let (st, ssnOps) ← sessionMgmt cfg st e tv m hdr segOff segLen
        return (st, { pd, ops := ops ++ segOps ++ ssnOps })
      else return (st, { pd, ops := ops ++ segOps })

/-! ## The first value of `TCP.data` -/

/-- What a record says about `TCP.data`. -/
def dataRefs (out : List Tcp.Eff) : List Tcp.DataRef :=
  out.filterMap fun
    | .data ref => some ref
    | _ => none

section FirstData

open Tcp

theorem dataRefs_append (out out' : List Eff) :
    dataRefs (out ++ out') = dataRefs out ++ dataRefs out' :=
  List.filterMap_append

theorem foldlM_grows {f : State → Segment → Option State}
    (hf : ∀ s tgt s', f s tgt = some s' → ∃ es, s'.out = s.out ++ es) (chain : List Segment)
    {s s' : State} (h : chain.foldlM f s = some s') : ∃ es, s'.out = s.out ++ es := by
  induction chain generalizing s with
  | nil =>
    obtain rfl := Option.some.inj h
    exact ⟨[], by simp⟩
  | cons tgt chain ih =>
    rw [List.foldlM_cons] at h
    obtain ⟨s1, h1, h2⟩ := Option.bind_eq_some_iff.mp h
    obtain ⟨e1, he1⟩ := hf s tgt s1 h1
    obtain ⟨e2, he2⟩ := ih h2
    exact ⟨e1 ++ e2, by rw [he2, he1, List.append_assoc]⟩

theorem keep_out (c : Call) (seg : Segment) (st : State) : (keep c seg st).out = st.out := by
  unfold keep
  dsimp only
  split <;> rfl

/-- A call of `decode_stream` refuses the segment, or adds to what `accept` leaves. -/
theorem decodeStream_cases {fuel : Nat} {c : Call} {seg : Segment} {st st' : State}
    (hf : ∀ s tgt s', decodeStream fuel c tgt s = some s' → ∃ es, s'.out = s.out ++ es)
    (h : decodeStream (fuel + 1) c seg st = some st') :
    ((st.ssn.stream c.sender).send seg.seq seg.data.length).2 = false ∧ st' = keep c seg st ∨
      ((st.ssn.stream c.sender).send seg.seq seg.data.length).2 = true ∧
        ∃ es, st'.out = (accept c seg st).out ++ es := by
  unfold decodeStream at h
  split at h
  · rename_i hs
    exact .inl ⟨hs, (Option.some.inj h).symm⟩
  · rename_i hs
    have hs : ((st.ssn.stream c.sender).send seg.seq seg.data.length).2 = true := by simpa using hs
    dsimp only at h
    split at h
    · obtain rfl := Option.some.inj h
      exact .inr ⟨hs, [], by simp⟩
    · obtain ⟨es, hes⟩ := foldlM_grows hf _ h
      exact .inr ⟨hs, es, hes⟩

theorem decodeStream_grows (fuel : Nat) {c : Call} {seg : Segment} {st st' : State}
    (h : decodeStream fuel c seg st = some st') : ∃ es, st'.out = st.out ++ es := by
  induction fuel generalizing seg st st' with
  | zero => cases h
  | succ fuel ih =>
    obtain ⟨-, rfl⟩ | ⟨-, es, hes⟩ := decodeStream_cases (fun _ _ _ hs => ih hs) h
    · exact ⟨[], by simp [keep_out]⟩
    · by_cases hm : st.ssn.Moves seg.flags c.sender
      · obtain ⟨us, hacc⟩ := accept_move hm
        obtain ⟨ref, hout⟩ := hacc.out
        exact ⟨_, by rw [hes, hout, List.append_assoc]⟩
      · obtain ⟨ref, hout⟩ := (accept_stay hm).out
        exact ⟨_, by rw [hes, hout, List.append_assoc]⟩

theorem dataRefs_pushEvents (new : Status) (st : State) :
    dataRefs (pushEvents new st).out = dataRefs st.out ∧ (pushEvents new st).ssn = st.ssn := by
  unfold pushEvents
  split
  · exact ⟨by simp [State.emit, dataRefs], rfl⟩
  · split
    · exact ⟨by simp [State.emit, dataRefs], rfl⟩
    · exact ⟨rfl, rfl⟩

/-- `trans_state` touches neither `TCP.data` nor `buf_`. -/
theorem dataRefs_transState (flags : UInt8) (sender : Side) (seq : UInt32) (segLen : Nat)
    (tv : Timeval) (st : State) :
    dataRefs (transState flags sender seq segLen tv st).1.out = dataRefs st.out ∧
      (transState flags sender seq segLen tv st).1.ssn.buf = st.ssn.buf := by
  by_cases hm : st.ssn.Moves flags sender
  · have mv := transState_of_moves hm seq segLen tv
    refine ⟨?_, mv.buf⟩
    rw [mv.out, dataRefs_append]
    cases st.ssn.status <;> simp [Status.moveMarks, dataRefs]
  · rw [transState_of_not_moves hm]
    exact ⟨rfl, rfl⟩

/-- A segment that is accepted while there is no `buf_` sets `TCP.data` once, to itself. -/
theorem accept_dataRefs {c : Call} {seg : Segment} {st : State} (hb : st.ssn.buf = none) :
    dataRefs (accept c seg st).out = dataRefs st.out ++ [.seg seg.data] := by
  have hsent : dataRefs (sent c seg st).out = dataRefs st.out ∧ (sent c seg st).ssn.buf = none := by
    simp [sent, State.emit, State.setStream, dataRefs, hb]
  obtain ⟨htr, htb⟩ := dataRefs_transState seg.flags c.sender seg.seq seg.data.length c.tv
    (sent c seg st)
  obtain ⟨hpr, hps⟩ := dataRefs_pushEvents
    (transState seg.flags c.sender seg.seq seg.data.length c.tv (sent c seg st)).2
    (transState seg.flags c.sender seg.seq seg.data.length c.tv (sent c seg st)).1
  change dataRefs (setData seg.data (pushEvents
    (transState seg.flags c.sender seg.seq seg.data.length c.tv (sent c seg st)).2
    (transState seg.flags c.sender seg.seq seg.data.length c.tv (sent c seg st)).1)).out = _
  unfold setData
  rw [hps, htb, hsent.2]
  simp only [State.emit, dataRefs_append, hpr, htr, hsent.1]
  rfl

/-- The session accepts the segment of the packet. -/
def Accepts (ssn : Session) (p : Tcp.Packet) : Prop :=
  ((ssn.stream (ssn.sideOf p)).send p.seq p.data.length).2 = true

instance (ssn : Session) (p : Tcp.Packet) : Decidable (Accepts ssn p) :=
  inferInstanceAs (Decidable (_ = true))

/-- **The first value of `TCP.data` for a packet is the segment of the packet**, if it is accepted:
`decode` starts without `buf_`. -/
theorem decode_first_data {ssn : Session} {p : Tcp.Packet} {r : State}
    (h : Tcp.decode ⟨ssn, []⟩ p = some r) :
    if Accepts ssn p then ∃ refs, dataRefs r.out = .seg p.data :: refs else dataRefs r.out = [] := by
  obtain ⟨st', h', rfl⟩ := Option.map_eq_some_iff.mp h
  have htx : dataRefs (txCounters st').out = dataRefs st'.out := by
    simp [txCounters, State.emit, dataRefs]
  rw [htx]
  obtain ⟨hs, rfl⟩ | ⟨hs, es, hes⟩ := decodeStream_cases (fun _ _ _ hs => decodeStream_grows _ hs) h'
  · have hno : ¬ Accepts ssn p := fun ha => absurd (hs.symm.trans ha) (by simp)
    rw [if_neg hno, keep_out]
    rfl
  · rw [if_pos (show Accepts ssn p from hs)]
    refine ⟨dataRefs es, ?_⟩
    rw [hes, dataRefs_append, accept_dataRefs rfl]
    rfl

end FirstData

/-! ## Safety and ranges -/

/-- The range behind an entry for `TCP.data`. -/
def refRange (segPtr : Ptr) (segLen : Nat) : Tcp.DataRef → Ptr × Nat
  | .seg _ => (segPtr, segLen)
  | .buf data => (.ext data, data.length)

/-- The first value of `TCP.data`, if there is one, lies in the packet. -/
def FirstDataWithin (hi : Nat) (ops : List Op) : Prop :=
  ∀ r, (fills .tcpData ops).head? = some r → r.1.Within 0 hi r.2

section Safety

variable {m : Mem} {pd : Payload} {hi : Nat}

theorem effOps_fits {segPtr : Ptr} (hp : segPtr ≠ .own) (segLen : Nat) (e : Tcp.Eff) :
    ∀ op ∈ effOps segPtr segLen e, op.Fits hi ∧ op.filled .dhcpClientHwAddr = none := by
  intro op hop
  unfold effOps at hop
  split at hop
  all_goals first
    | (obtain rfl := List.mem_singleton.mp hop
       simp [Op.Fits, Op.Within, Op.Whole, Op.filled, loose, Param.kind, hp])
    | cases hop

theorem fills_effOps (segPtr : Ptr) (segLen : Nat) (out : List Tcp.Eff) :
    fills .tcpData (out.flatMap (effOps segPtr segLen))
      = (dataRefs out).map (refRange segPtr segLen) := by
  induction out with
  | nil => rfl
  | cons e out ih =>
    rw [List.flatMap_cons, fills_append, ih]
    cases e with
    | data ref => cases ref <;> rfl
    | pushEvent ev => cases ev <;> rfl
    | _ => rfl

theorem setProperties_returns {hdr : Nat} (h : pd.WF) (hm : m.Has 0 pd.stop)
    (hh : hdr + 20 ≤ pd.stop) :
    Returns (setProperties m hdr pd) fun r =>
      r.1.WF ∧ r.1.stop = pd.stop ∧ ∀ op ∈ r.2.1, op.Calm pd.stop := by
  have hw := h.window
  have hops : ∀ sport dport : UInt16, ∀ op ∈ [Op.srcPort sport, .dstPort dport,
      .set .tcpSrcPort (.pkt hdr) 2, .set .tcpDstPort (.pkt (hdr + 2)) 2, .set .tcpHdr (.pkt hdr) 20],
      op.Calm pd.stop := by
    simp [Op.calm_set, Param.kind, Param.extent]
    omega
  unfold setProperties
  refine .bind_ok (Mem.u16_eq hm (by omega) (by omega)) ?_
  refine .bind_ok (Mem.u16_eq hm (by omega) (by omega)) ?_
  refine .bind_ok (Mem.u8_eq hm (by omega) (by omega)) ?_
  generalize tcpOptLen (m.byte (hdr + 12)) = optLen
  dsimp only
  split
  · rw [Payload.retain_eq h]
    by_cases hs : optLen ≤ pd.length
    · rw [if_pos hs]
      refine returns_pure.mpr ⟨h.skip hs, rfl, fun op hop => ?_⟩
      obtain hop | hop := List.mem_append.mp hop
      · exact hops _ _ op hop
      · obtain rfl := List.mem_singleton.mp hop
        simp [Op.calm_set, Param.kind, loose]
        omega
    · rw [if_neg hs]
      exact returns_pure.mpr ⟨h, rfl, hops _ _⟩
  · exact returns_pure.mpr ⟨h, rfl, hops _ _⟩

theorem searchSession_ops (hi : Nat) (cfg : TcpConfig τ) (st : TcpState τ) (e : Endpoints)
    (key : List UInt8) :
    ∀ op ∈ (searchSession cfg st e key).2.2, op.Calm hi := by
  unfold searchSession
  split <;> simp

/-- The session management fails no assertion when the addresses have one length. -/
theorem sessionMgmt_returns {cfg : TcpConfig τ} {st : TcpState τ} {e : Endpoints} {tv : Tcp.Timeval}
    {hdr segOff segLen : Nat} (hm : m.Has 0 hi) (hh : hdr + 20 ≤ hi) (hs : segOff + segLen ≤ hi)
    (he : e.srcAddr.length = e.dstAddr.length) :
    Returns (sessionMgmt cfg st e tv m hdr segOff segLen) fun r =>
      (∀ op ∈ r.2, op.Fits hi ∧ op.filled .dhcpClientHwAddr = none) ∧ FirstDataWithin hi r.2 := by
  obtain ⟨key, hkey⟩ : ∃ key, makeKey e = .ok key := by
    unfold makeKey
    rw [if_pos he]
    exact ⟨_, rfl⟩
  unfold sessionMgmt
  refine .bind_ok hkey ?_
  have hnew := searchSession_ops hi cfg
    { st.advance cfg tv.sec with table := cfg.lru.expire (st.advance cfg tv.sec).table } e key
  generalize searchSession cfg _ e key = found at hnew ⊢
  obtain ⟨st', ssn, newOps⟩ := found
  dsimp only at hnew ⊢
  refine .bind_ok (Mem.u8_eq hm (by omega) (by omega)) ?_
  refine .bind_ok (Mem.u32_eq hm (by omega) (by omega)) ?_
  refine .bind_ok (Mem.u32_eq hm (by omega) (by omega)) ?_
  refine .bind_ok (Mem.u16_eq hm (by omega) (by omega)) ?_
  refine (Mem.bytes_returns (hm.sub (Nat.zero_le _) (by omega))).bind fun data _ => ?_
  split
  · rename_i hnone
    obtain ⟨r, hr⟩ := Tcp.decode_isSome _ _
    rw [hr] at hnone
    cases hnone
  · rename_i r hr
    refine returns_pure.mpr ⟨fun op hop => ?_, ?_⟩
    · simp only [List.mem_append, List.mem_singleton, List.mem_flatMap] at hop
      obtain (hop | rfl) | ⟨eff, -, hop⟩ := hop
      · exact ⟨(hnew op hop).1, (hnew op hop).2.2⟩
      · simp [Op.Fits, Op.Within, Op.Whole, Op.filled, Param.kind]
      · exact effOps_fits (by split <;> simp) _ eff op hop
    · intro x hx
      rw [fills_append, fills_append, fills_effOps, fills_eq_nil fun op hop => (hnew op hop).2.1] at hx
      have hd := decode_first_data hr
      split at hd
      · obtain ⟨refs, hd⟩ := hd
        rw [hd] at hx
        obtain rfl := Option.some.inj hx
        simp only [refRange]
        split
        · exact ⟨Nat.zero_le _, hs⟩
        · simp only [Ptr.Within]
          omega
      · rw [hd] at hx
        cases hx

/-- **`TCP::decode`**: the decoder reads only the packet and leaves the first `TCP.data` in it. -/
theorem tcpDecode_returns {cfg : TcpConfig τ} {st : TcpState τ} {e : Endpoints} {tv : Tcp.Timeval}
    (h : pd.WF) (hm : m.Has 0 pd.stop) (he : e.srcAddr.length = e.dstAddr.length) :
    Returns (tcpDecode cfg st e tv m pd) fun r => r.2.Fits pd ∧ r.2.next = none ∧
      fills .dhcpClientHwAddr r.2.ops = [] ∧ FirstDataWithin pd.stop r.2.ops := by
  have hw := h.window
  have hquiet : ∀ {ops : List Op}, (∀ op ∈ ops, op.Calm pd.stop) →
      fills .dhcpClientHwAddr ops = [] ∧ fills .tcpData ops = [] := fun hops =>
    ⟨fills_eq_nil fun op hop => (hops op hop).2.2, fills_eq_nil fun op hop => (hops op hop).2.1⟩
  unfold tcpDecode
  rw [Payload.retain_eq h]
  by_cases h20 : 20 ≤ pd.length
  · rw [if_pos h20]
    refine (setProperties_returns (h.skip h20) hm (by simp only [Payload.skip]; omega)).bind ?_
    rintro ⟨pd', ops, ok⟩ ⟨hwf, hstop, hops⟩
    dsimp only at hwf hstop hops ⊢
    change pd'.stop = pd.stop at hstop
    split
    · refine returns_pure.mpr ⟨⟨hwf, hstop, fun op hop => (hops op hop).1⟩, rfl, (hquiet hops).1, ?_⟩
      intro r hr
      rw [(hquiet hops).2] at hr
      cases hr
    · have hw' := hwf.window
      rw [hstop] at hw'
      -- the header and segment calls are calm, and the cursor is behind the segment
      have hcalm : ∀ op ∈ ops ++ (if pd'.length > 0 then
          [Op.set .tcpSegment (.pkt pd'.ptr) pd'.length] else []), op.Calm pd.stop := by
        intro op hop
        obtain hop | hop := List.mem_append.mp hop
        · exact hops op hop
        · split at hop
          · obtain rfl := List.mem_singleton.mp hop
            simpa [Op.calm_set, Param.kind, loose] using hw'
          · cases hop
      have hpd : ∀ pd'', pd'' = (if pd'.length > 0 then
          ((pd'.retain pd'.length).map Prod.snd).getD pd' else pd') →
            pd''.WF ∧ pd''.stop = pd.stop := by
        rintro pd'' rfl
        rw [Payload.retain_eq hwf, if_pos (Nat.le_refl _)]
        split
        · exact ⟨hwf.skip (Nat.le_refl _), hstop⟩
        · exact ⟨hwf, hstop⟩
      obtain ⟨hwf', hstop'⟩ := hpd _ rfl
      split
      · refine .bind_ok (Mem.u16_eq hm (by omega) (by omega)) ?_
        refine .bind_ok (Mem.u16_eq hm (by omega) (by omega)) ?_
        refine Returns.bind (sessionMgmt_returns hm (show pd.ptr + 20 ≤ pd.stop by omega) hw' ?_) ?_
        · exact he
        rintro ⟨st', ssnOps⟩ ⟨hssn, hfirst⟩
        refine returns_pure.mpr ⟨⟨hwf', hstop', fun op hop => ?_⟩, rfl, ?_, ?_⟩
        · exact (List.mem_append.mp hop).elim (fun hop => (hcalm op hop).1) fun hop => (hssn op hop).1
        · rw [fills_append, (hquiet hcalm).1, fills_eq_nil fun op hop => (hssn op hop).2]
          rfl
        · intro r hr
          rw [fills_append, (hquiet hcalm).2] at hr
          exact hfirst r hr
      · refine returns_pure.mpr ⟨⟨hwf', hstop', fun op hop => (hcalm op hop).1⟩, rfl,
          (hquiet hcalm).1, ?_⟩
        intro r hr
        rw [(hquiet hcalm).2] at hr
        cases hr
  · rw [if_neg h20]
    refine returns_ok.mpr ⟨(Step.calm_nil h).fits, rfl, rfl, ?_⟩
    rintro r ⟨⟩

/-- **Without session management the calls depend on the packet alone.** -/
theorem tcpDecode_off {cfg : TcpConfig τ} {tv : Tcp.Timeval} {st st1 : TcpState τ} {e : Endpoints}
    {s : Step} (hoff : cfg.enableSsnMgmt = false) (h : tcpDecode cfg st e tv m pd = .ok (st1, s))
    (st' : TcpState τ) (e' : Endpoints) : tcpDecode cfg st' e' tv m pd = .ok (st', s) := by
  unfold tcpDecode at h ⊢
  split at h
  · cases h
    rfl
  · rename_i hdr pd' _
    simp only [hoff, Bool.false_eq_true, if_false] at h ⊢
    cases hp : setProperties m hdr pd' with
    | error f =>
      rw [hp] at h
      cases h
    | ok r =>
      obtain ⟨pd1, ops, ok⟩ := r
      rw [hp] at h
      cases ok <;> cases h <;> rfl

end Safety

end PacketMachine.Decode
