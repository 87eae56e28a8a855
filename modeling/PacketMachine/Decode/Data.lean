import PacketMachine.Decode.Read
import PacketMachine.Decode.TcpModule
import PacketMachine.Tcp.Direction

/-!
# `TCP.data` of a packet that fills a gap

When a segment is accepted, `decode_stream` retains a value for `TCP.data`. The first one of a packet is
set to its own segment. When stored segments follow, `buf_` is made, and each of them that is accepted
retains a further value, set to all that is in `buf_` so far (`modules/tcp.cc:368-394`).
`Property::value` returns the first value, so that a reader never sees `buf_`.

* `Config.Lone` is about one step of the replay machine: it accepts no stored segment with payload. `buf_`
  is there exactly while stored segments are delivered.

Results:
* `drained_nil_iff`: the segments accepted behind the first bring no byte exactly when every step is such.
* **`data_whole_iff`**: `TCP.data` is all that was accepted for the packet exactly then; it is absent when
  the packet is not accepted.
-/

namespace PacketMachine.Tcp

/-- The bytes of the segments that were accepted, behind the first of them. -/
def drained (out : List Eff) : List UInt8 := ((acceptedLog out).drop 1).flatMap fun a => a.2.data

/-- The next step does not accept a stored segment with payload. -/
def Config.Lone (cfg : Config) : Prop :=
  ∀ c seg w, cfg.work = .deliver c seg :: w → cfg.st.ssn.buf ≠ none → seg.data ≠ [] →
    ((cfg.st.ssn.stream c.sender).send seg.seq seg.data.length).2 = false

/-- A packet is about to be processed. -/
def Session.start (ssn : Session) (p : Packet) : Config :=
  ⟨dropBuf ⟨ssn, []⟩, State.jobs ⟨ssn, []⟩ p⟩

/-- What holds while a packet is processed: without `buf_` at most the first job is a delivery, and it is
the one of the packet. -/
structure Config.Replaying (cfg : Config) : Prop where
  tail : cfg.st.ssn.buf = none → ∀ c seg, .deliver c seg ∉ cfg.work.tail
  own : cfg.st.ssn.buf = none → acceptedLog cfg.st.out ≠ [] → ∀ c seg, .deliver c seg ∉ cfg.work
  stored : cfg.st.ssn.buf ≠ none → acceptedLog cfg.st.out ≠ []
  drain : ∀ c seg, .drain c seg ∈ cfg.work → acceptedLog cfg.st.out ≠ []

section Replay

variable {st : State} {j : Job} {w : List Job}

/-- `accept` makes no `buf_` and deletes none. -/
theorem accept_buf (c : Call) (seg : Segment) (st : State) :
    (accept c seg st).ssn.buf = none ↔ st.ssn.buf = none := by
  have hset : ∀ (data : List UInt8) (st : State),
      (setData data st).ssn.buf = none ↔ st.ssn.buf = none := by
    intro data st
    unfold setData
    cases h : st.ssn.buf <;> simp [State.emit, h]
  unfold accept
  dsimp only
  rw [hset, (Decode.dataRefs_pushEvents _ _).2, (Decode.dataRefs_transState _ _ _ _ _ _).2]
  simp [State.setStream, State.emit]

theorem keep_buf (c : Call) (seg : Segment) (st : State) : (keep c seg st).ssn.buf = st.ssn.buf := by
  unfold keep
  dsimp only
  split <;> rfl

theorem acceptedLog_txCounters (st : State) : acceptedLog (txCounters st).out = acceptedLog st.out := by
  simp [acceptedLog, txCounters, State.emit]

/-- One job keeps it. -/
theorem Config.Replaying.perform (h : Config.Replaying ⟨st, j :: w⟩) :
    Config.Replaying ⟨(j.perform st).1, (j.perform st).2 ++ w⟩ := by
  have htail : st.ssn.buf = none → ∀ c seg, .deliver c seg ∉ w := h.tail
  have hrest : st.ssn.buf = none → ∀ c seg, .deliver c seg ∉ w.tail :=
    fun hb c seg hm => htail hb c seg (List.mem_of_mem_tail hm)
  have hdrain : ∀ c seg, .drain c seg ∈ w → acceptedLog st.out ≠ [] :=
    fun c seg hm => h.drain c seg (List.mem_cons_of_mem _ hm)
  refine perform_cases st j (Q := fun st' new => Config.Replaying ⟨st', new ++ w⟩) ?_ ?_ ?_ ?_ ?_
  · rintro c seg rfl -
    have hout : (keep c seg st).out = st.out := Decode.keep_out c seg st
    have hbuf : (keep c seg st).ssn.buf = st.ssn.buf := keep_buf c seg st
    have hlog : acceptedLog (keep c seg st).out = acceptedLog st.out := by rw [hout]
    refine ⟨fun hb => hrest (hbuf.symm.trans hb), fun hb _ => htail (hbuf.symm.trans hb),
      fun hb => ?_, fun c seg hm => ?_⟩
    · exact hlog ▸ h.stored (hbuf ▸ hb)
    · exact hlog ▸ hdrain c seg hm
  · rintro c seg rfl -
    have hne : acceptedLog (accept c seg st).out ≠ [] := by simp [acceptedLog_accept]
    have hbuf := accept_buf c seg st
    refine ⟨fun hb => htail (hbuf.mp hb), fun hb _ c' seg' hm => ?_, fun _ => hne, fun _ _ _ => hne⟩
    rcases List.mem_cons.mp hm with hm | hm
    · cases hm
    · exact htail (hbuf.mp hb) c' seg' hm
  · rintro c seg rfl -
    exact ⟨hrest, fun hb _ => htail hb, h.stored, hdrain⟩
  · rintro c seg chain rfl -
    -- now `buf_` is there
    have hne : acceptedLog st.out ≠ [] := h.drain c seg List.mem_cons_self
    refine ⟨fun hb => ?_, fun hb => ?_, fun _ => hne, fun _ _ _ => hne⟩
    · cases hb
    · cases hb
  · rintro rfl
    have hlog := acceptedLog_txCounters st
    refine ⟨hrest, fun hb _ => htail hb, fun hb => ?_, fun c seg hm => ?_⟩
    · exact hlog ▸ h.stored hb
    · exact hlog ▸ hdrain c seg hm

theorem replaying_start (ssn : Session) (p : Packet) : (ssn.start p).Replaying := by
  refine ⟨fun _ c seg => ?_, fun _ hne => absurd rfl hne, fun hb => absurd rfl hb, fun c seg hm => ?_⟩
  · simp [Session.start, State.jobs]
  · simp [Session.start, State.jobs] at hm

/-- What one job adds to the bytes behind the first segment. -/
theorem drained_perform (h : Config.Replaying ⟨st, j :: w⟩) :
    drained (j.perform st).1.out = drained st.out ∨
      ∃ c seg, j = .deliver c seg ∧ st.ssn.buf ≠ none ∧
        ((st.ssn.stream c.sender).send seg.seq seg.data.length).2 = true ∧
        drained (j.perform st).1.out = drained st.out ++ seg.data := by
  refine perform_cases st j (Q := fun st' _ => drained st'.out = drained st.out ∨ ∃ c seg,
    j = .deliver c seg ∧ st.ssn.buf ≠ none ∧
      ((st.ssn.stream c.sender).send seg.seq seg.data.length).2 = true ∧
      drained st'.out = drained st.out ++ seg.data) ?_ ?_ ?_ ?_ ?_
  · rintro c seg - -
    exact .inl (by rw [Decode.keep_out])
  · rintro c seg rfl hsend
    cases hlog : acceptedLog st.out with
    | nil => exact .inl (by simp [drained, acceptedLog_accept, hlog])
    | cons a log =>
      have hb : st.ssn.buf ≠ none := fun hb =>
        h.own hb (by simp [hlog]) c seg List.mem_cons_self
      exact .inr ⟨c, seg, rfl, hb, hsend, by simp [drained, acceptedLog_accept, hlog]⟩
  · exact fun c seg _ _ => .inl rfl
  · exact fun c seg chain _ _ => .inl rfl
  · rintro -
    exact .inl (by rw [drained, acceptedLog_txCounters]; rfl)

end Replay

section Packet

variable {cfg : Config}

/-- Work that is begun leads on to the end. -/
theorem Works.onward {start : Config} {st : State} (h : Works start cfg)
    (hend : Works start ⟨st, []⟩) : Works cfg ⟨st, []⟩ := by
  obtain ⟨k, hk⟩ := h
  obtain ⟨n, hn⟩ := hend
  rcases Nat.le_total k n with hle | hle
  · refine ⟨n - k, ?_⟩
    rw [← Nat.add_sub_cancel' hle, List.replicate_add, Lib.exec_append, hk] at hn
    exact hn
  · rw [← Nat.add_sub_cancel' hle, List.replicate_add, Lib.exec_append, hn] at hk
    cases hkn : k - n with
    | zero =>
      rw [hkn] at hk
      obtain rfl := Option.some.inj hk
      exact .refl _
    | succ i =>
      rw [hkn] at hk
      cases hk

theorem Works.replaying {ssn : Session} {p : Packet} (h : Works (ssn.start p) cfg) : cfg.Replaying :=
  h.keeps (I := Config.Replaying) (fun _ _ _ hr => hr.perform) (replaying_start ssn p)

/-- **The stored segments bring no byte exactly when no step accepts one that has some.** -/
theorem drained_nil_iff {ssn : Session} {p : Packet} {st : State}
    (h : Works (ssn.start p) ⟨st, []⟩) :
    drained st.out = [] ↔ ∀ cfg, Works (ssn.start p) cfg → cfg.Lone := by
  constructor
  · rintro hnil ⟨s, work⟩ hcfg c seg w (rfl : work = _) hb hdata
    by_contra hsend
    -- the bytes of this segment would be there at the end
    have hgrow : ∀ {a b : Config}, Works (ssn.start p) a → Works a b →
        drained a.st.out <+: drained b.st.out := by
      intro a b ha hab
      refine (hab.keeps (I := fun c => Works (ssn.start p) c ∧ drained a.st.out <+: drained c.st.out)
        ?_ ⟨ha, List.prefix_refl _⟩).2
      rintro s j w ⟨hs, hpre⟩
      refine ⟨hs.trans (.one rfl), hpre.trans ?_⟩
      obtain he | ⟨c, seg, -, -, -, he⟩ := drained_perform hs.replaying
      · rw [he]
      · rw [he]
        exact List.prefix_append _ _
    have hstep : Works ⟨s, .deliver c seg :: w⟩ ⟨accept c seg s, .drain c seg :: w⟩ :=
      .one (perform_deliver_accepted hsend)
    have hpre := hgrow (hcfg.trans hstep) ((hcfg.trans hstep).onward h)
    have hlog : acceptedLog s.out ≠ [] := hcfg.replaying.stored hb
    rw [hnil, List.prefix_nil] at hpre
    have hadd : drained (accept c seg s).out = drained s.out ++ seg.data := by
      unfold drained
      rw [acceptedLog_accept, List.drop_append_of_le_length (List.length_pos_iff.mpr hlog)]
      simp
    exact hdata (List.append_eq_nil_iff.mp (hadd.symm.trans hpre)).2
  · intro hlone
    refine (h.keeps (I := fun c => Works (ssn.start p) c ∧ drained c.st.out = []) ?_
      ⟨.refl _, rfl⟩).2
    rintro s j w ⟨hs, hnil⟩
    refine ⟨hs.trans (.one rfl), ?_⟩
    obtain he | ⟨c, seg, rfl, hb, hsend, he⟩ := drained_perform hs.replaying
    · rw [he]
      exact hnil
    · have hdata : seg.data = [] := by
        by_contra hne
        have := hlone _ hs c seg w rfl hb hne
        rw [hsend] at this
        cases this
      rw [he, hnil, hdata]
      rfl

end Packet

end PacketMachine.Tcp

namespace PacketMachine.Decode

open PacketMachine.Lib Tcp

/-- `seg_ptr` of `TCP::decode`: it is `nullptr` when there is no segment. -/
def segmentPtr (segOff : Nat) (p : Tcp.Packet) : Ptr :=
  if 0 < p.data.length then .pkt segOff else .null

section Reader

variable {q : Property} {m : Mem} {ssn : Session} {p : Tcp.Packet} {r : State}

theorem setCalls_append (d : Param) (ops ops' : List Op) :
    setCalls d (ops ++ ops') = setCalls d ops ++ setCalls d ops' :=
  List.filterMap_append

/-- The calls for `TCP.data`, from the record of a session. -/
theorem setCalls_effOps (segPtr : Ptr) (segLen : Nat) (out : List Eff) :
    setCalls .tcpData (out.flatMap (effOps segPtr segLen))
      = (dataRefs out).map fun ref c =>
        c.set (refRange segPtr segLen ref).1 (refRange segPtr segLen ref).2 := by
  induction out with
  | nil => rfl
  | cons e out ih =>
    rw [List.flatMap_cons, setCalls_append, ih]
    cases e with
    | data ref => cases ref <;> rfl
    | pushEvent ev => cases ev <;> rfl
    | _ => rfl

/-- What is accepted for a packet starts with its own segment, if this is accepted. -/
theorem decode_log (h : Tcp.decode ⟨ssn, []⟩ p = some r) :
    if Accepts ssn p then
      ∃ log, acceptedLog r.out = (ssn.sideOf p, p.segment (ssn.sideOf p)) :: log
    else acceptedLog r.out = [] := by
  obtain ⟨st', h', rfl⟩ := Option.map_eq_some_iff.mp h
  rw [acceptedLog_txCounters]
  obtain ⟨hs, rfl⟩ | ⟨hs, es, hes⟩ := decodeStream_cases (fun _ _ _ hs => decodeStream_grows _ hs) h'
  · have hno : ¬ Accepts ssn p := fun ha => absurd (hs.symm.trans ha) (by simp)
    rw [if_neg hno, keep_out]
    rfl
  · rw [if_pos (show Accepts ssn p from hs)]
    refine ⟨acceptedLog es, ?_⟩
    rw [hes, acceptedLog, List.filterMap_append]
    exact congrArg (· ++ acceptedLog es) (acceptedLog_accept _ _ _)

/-- **`TCP.data` shows the segment of the packet**, and is absent when the packet is not accepted. -/
theorem data_content (hw : q.WF) (hc : q.count .tcpData = 0) {segOff : Nat}
    (hseg : m.bytes segOff p.data.length = .ok p.data) (h : Tcp.decode ⟨ssn, []⟩ p = some r) :
    (q.exec (r.out.flatMap (effOps (segmentPtr segOff p) p.data.length))).content m (.param .tcpData)
      = .ok (if Accepts ssn p then some p.data else none) := by
  have hfirst := decode_first_data h
  have hcalls := setCalls_effOps (segmentPtr segOff p) p.data.length r.out
  split at hfirst
  · rename_i ha
    obtain ⟨refs, hrefs⟩ := hfirst
    rw [hrefs, List.map_cons] at hcalls
    have hown : segmentPtr segOff p ≠ .own := by
      unfold segmentPtr
      split <;> simp
    have hbytes : (({} : Cell).set (segmentPtr segOff p) p.data.length).bytes m = .ok p.data := by
      unfold segmentPtr
      split
      · exact hseg
      · rename_i hlen
        have hnil : p.data = [] := List.eq_nil_of_length_eq_zero (by omega)
        rw [hnil]
        rfl
    rw [(shows_call rfl hw hc hcalls fun c => Cell.same_set _ _ _ hown).content_eq, if_pos ha]
    show (do return some (← (({} : Cell).set (segmentPtr segOff p) p.data.length).bytes m)) = _
    rw [hbytes]
    rfl
  · rename_i ha
    rw [hfirst] at hcalls
    rw [(shows_absent rfl hw hc hcalls).content_eq, if_neg ha]
    rfl

/-- **`TCP.data` is all that became contiguous exactly when no step of the packet accepts a stored
segment with payload**; and it is absent when the packet is not accepted. The packet is any packet and
the session in any state; `TCP.data` was not yet retained for the packet, whose segment is at
`segOff`. -/
theorem data_whole_iff (ssn : Session) (p : Tcp.Packet) (hw : q.WF) (hc : q.count .tcpData = 0)
    {segOff : Nat} (hseg : m.bytes segOff p.data.length = .ok p.data) :
    ∃ r, Tcp.decode ⟨ssn, []⟩ p = some r ∧
      ((q.exec (r.out.flatMap (effOps (segmentPtr segOff p) p.data.length))).content m (.param .tcpData)
          = .ok (if Accepts ssn p then some ((acceptedLog r.out).flatMap fun a => a.2.data) else none)
        ↔ ∀ cfg, Works (ssn.start p) cfg → cfg.Lone) := by
  obtain ⟨r, hr⟩ := decode_isSome ⟨ssn, []⟩ p
  refine ⟨r, hr, ?_⟩
  rw [data_content hw hc hseg hr, ← drained_nil_iff (works_decode hr)]
  have hlog := decode_log hr
  split at hlog
  · rename_i ha
    obtain ⟨log, hlog⟩ := hlog
    have hall : (acceptedLog r.out).flatMap (fun a => a.2.data) = p.data ++ drained r.out := by
      rw [drained, hlog]
      rfl
    rw [if_pos ha, if_pos ha, hall]
    simp
  · rename_i ha
    rw [if_neg ha, if_neg ha, drained, hlog]
    simp

end Reader

/-- The memory that holds the segment of a packet alone. -/
def segmentMem (p : Tcp.Packet) : Mem := fun i => p.data[i]?

/-- Two bytes of a client, while a segment behind the next gap is stored. -/
theorem data_whole_gap : ∃ st,
    run (State.new hostC hostS 1) (handshake ++ [pkt hostC ACK 105 [5]]) = some st ∧
      (({} : Property).WF ∧ ({} : Property).count .tcpData = 0) ∧
      ∃ r, Tcp.decode ⟨st.ssn, []⟩ (pkt hostC ACK 101 [1, 2]) = some r ∧
        ((({} : Property).exec
            (r.out.flatMap (effOps (segmentPtr 0 (pkt hostC ACK 101 [1, 2])) 2))).content
              (segmentMem (pkt hostC ACK 101 [1, 2])) (.param .tcpData)
          = .ok (if Accepts st.ssn (pkt hostC ACK 101 [1, 2]) then
              some ((acceptedLog r.out).flatMap fun a => a.2.data) else none)
          ↔ ∀ cfg, Works (st.ssn.start (pkt hostC ACK 101 [1, 2])) cfg → cfg.Lone) := by
  obtain ⟨st, hst⟩ := run_isSome (State.new hostC hostS 1) (handshake ++ [pkt hostC ACK 105 [5]])
  exact ⟨st, hst, ⟨Property.wf_empty, rfl⟩,
    data_whole_iff st.ssn (pkt hostC ACK 101 [1, 2]) Property.wf_empty rfl rfl⟩

/-- What `TCP.data` shows for a packet after others, and what was accepted for it. -/
def dataAfter (ps : List Tcp.Packet) (p : Tcp.Packet) :
    Option (Except Fault (Option (List UInt8)) × List UInt8) := do
  let st ← run (State.new hostC hostS 1) ps
  let r ← Tcp.decode ⟨st.ssn, []⟩ p
  return ((({} : Property).exec (r.out.flatMap (effOps (segmentPtr 0 p) p.data.length))).content
    (segmentMem p) (.param .tcpData), (acceptedLog r.out).flatMap fun a => a.2.data)

/-- **A packet that fills a gap shows its own two bytes of the four that were accepted.** -/
theorem data_misses_stored :
    dataAfter (handshake ++ [pkt hostC ACK 103 [3, 4]]) (pkt hostC ACK 101 [1, 2])
      = some (.ok (some [1, 2]), [1, 2, 3, 4]) := by
  decide +kernel

end PacketMachine.Decode
