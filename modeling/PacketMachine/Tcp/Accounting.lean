import PacketMachine.Tcp.Direction

/-!
# Accounting: the sequence space and the transfer counters

The next sequence number that a stream expects is `base_seq_ + next_seq_`. `Stream::send` adds the
payload of a segment to it, `set_base_seq` the `SYN`, and `trans_state` (`tcp.cc:304-322`) the `FIN`,
but only where the `FIN` also moves the status: in `ESTABLISHED`, and in `CLOSING` for the side that
did not close first. A `FIN` that is accepted during the handshake is not counted, and the stream
stays one number behind. `FinInTime` is the condition on the state in which a segment is accepted
that says when this goes right.

`tx_size_` counts the bytes of a direction, for `TCP.tx_server` and `TCP.tx_client`. The constructor
sets it to 0, and nothing adds to it.

Results:
* `expected_trans`: the next number after an accepted segment.
* **`sequence_accounting`**: in a run all segments are accounted for exactly when each `FIN` comes in
  time. `fin_in_handshake` is a run in which one does not.
* `counters_run`: both counters are filled once for each packet, with 0.
-/

namespace PacketMachine.Tcp

open PacketMachine.Lib

/-! ## The next sequence number -/

/-- `base_seq_ + next_seq_`. -/
def Stream.expected (x : Stream) : UInt32 := x.baseSeq + x.nextSeq

/-- A `FIN` of the side is among the accepted segments. -/
def FinSeen (sd : Side) (out : List Eff) : Prop :=
  ∃ a ∈ acceptedLog out, a.1 = sd ∧ 0 < a.2.flags &&& FIN

instance (sd : Side) (out : List Eff) : Decidable (FinSeen sd out) := by
  unfold FinSeen
  infer_instance

/-- The state that `trans_state` leaves for an accepted segment. -/
def trans (c : Call) (seg : Segment) (st : State) : State :=
  (transState seg.flags c.sender seg.seq seg.data.length c.tv (sent c seg st)).1

/-- The segment, accepted for `c.sender`, is accounted for: the next number is that of the segment,
and its payload, and one for the `SYN` that sets the base or for the first `FIN`. -/
structure Accounted (c : Call) (seg : Segment) (st : State) : Prop where
  opening : st.out.count (.baseSeq c.sender) < (trans c seg st).out.count (.baseSeq c.sender) →
    ((trans c seg st).ssn.stream c.sender).expected
      = seg.seq + UInt32.ofNat seg.data.length + 1
  later : (st.ssn.stream c.sender).hasBaseSeq = true → seg.flags &&& SYN = 0 →
    ((trans c seg st).ssn.stream c.sender).expected
      = seg.seq + UInt32.ofNat seg.data.length
        + if 0 < seg.flags &&& FIN ∧ ¬ FinSeen c.sender st.out then 1 else 0

/-- A `FIN` of `sd` is the first one where `trans_state` counts it, and only there. -/
def FirstWhereCounted (sd : Side) (st : State) : Prop :=
  match st.ssn.status with
  | .none | .synSent | .synackSent => FinSeen sd st.out
  | .established => ¬ FinSeen sd st.out
  | .closing => st.ssn.closing ≠ some sd → ¬ FinSeen sd st.out
  | .closed => True

/-- A `FIN` that is accepted behind the opening of its direction comes in time. -/
def FinInTime (c : Call) (seg : Segment) (st : State) : Prop :=
  (st.ssn.stream c.sender).hasBaseSeq = true → seg.flags &&& SYN = 0 → 0 < seg.flags &&& FIN →
    FirstWhereCounted c.sender st

/-- `trans_state` counts the `FIN`. -/
def CountsFin (c : Call) (seg : Segment) (st : State) : Prop :=
  st.ssn.Moves seg.flags c.sender ∧ (st.ssn.status = .established ∨ st.ssn.status = .closing)

instance (c : Call) (seg : Segment) (st : State) : Decidable (CountsFin c seg st) := by
  unfold CountsFin
  infer_instance

/-! ## One accepted segment -/

section Step

variable {c : Call} {seg : Segment} {st : State}

@[simp] theorem status_sent : (sent c seg st).ssn.status = st.ssn.status := by
  simp [sent, State.setStream, State.emit]

@[simp] theorem stream_sent : (sent c seg st).ssn.stream c.sender
    = ((st.ssn.stream c.sender).send seg.seq seg.data.length).1 := by
  simp [sent, State.setStream, State.emit]

@[simp] theorem moves_sent {flags : UInt8} {sd : Side} :
    (sent c seg st).ssn.Moves flags sd ↔ st.ssn.Moves flags sd := by
  simp [Session.Moves, sent, State.setStream, State.emit]

/-- What `trans_state` makes of the stream of the sender. -/
theorem stream_trans : (trans c seg st).ssn.stream c.sender
    = if st.ssn.Moves seg.flags c.sender then
        st.ssn.status.moveStream seg.seq seg.data.length
          ((st.ssn.stream c.sender).send seg.seq seg.data.length).1
      else ((st.ssn.stream c.sender).send seg.seq seg.data.length).1 := by
  unfold trans
  split
  · rename_i h
    have hmoved := transState_of_moves (moves_sent.mpr h : (sent c seg st).ssn.Moves _ _) seg.seq
      seg.data.length c.tv
    rw [hmoved.stream, status_sent, stream_sent]
  · rename_i h
    rw [transState_of_not_moves (mt moves_sent.mp h), stream_sent]

/-- In sequence, `Stream::send` takes the stream behind the payload. -/
theorem expected_send {x : Stream} {seq : UInt32} {n : Nat} (hb : x.hasBaseSeq = true)
    (h : (x.send seq n).2 = true) : (x.send seq n).1.expected = seq + UInt32.ofNat n := by
  by_cases he : x.nextSeq = seq - x.baseSeq
  · rw [Stream.send_of_eq hb he]
    simp only [Stream.expected, he]
    grind
  · rw [Stream.send_of_ne hb he] at h
    cases h

theorem expected_setBaseSeq (x : Stream) (seq : UInt32) (n : Nat) :
    (x.setBaseSeq seq n).expected = seq + UInt32.ofNat n + 1 := by
  simp only [Stream.setBaseSeq, Stream.expected, UInt32.ofNat_add]
  grind

theorem expected_incSeq (x : Stream) : x.incSeq.expected = x.expected + 1 := by
  simp only [Stream.incSeq, Stream.expected]
  grind

/-- Without a `SYN` the base stays. -/
theorem not_opening_of_not_syn (h : st.ssn.Moves seg.flags c.sender)
    (hsyn : seg.flags &&& SYN = 0) : st.ssn.status ≠ .none ∧ st.ssn.status ≠ .synSent := by
  unfold Session.Moves at h
  constructor <;> intro hs <;> simp only [hs] at h <;> rw [h.1] at hsyn <;> exact absurd hsyn (by decide)

/-- **The next number after a segment** that is accepted behind the opening of its direction. -/
theorem expected_trans (hb : (st.ssn.stream c.sender).hasBaseSeq = true)
    (hsend : ((st.ssn.stream c.sender).send seg.seq seg.data.length).2 = true)
    (hsyn : seg.flags &&& SYN = 0) :
    ((trans c seg st).ssn.stream c.sender).expected
      = seg.seq + UInt32.ofNat seg.data.length + if CountsFin c seg st then 1 else 0 := by
  rw [stream_trans]
  by_cases hm : st.ssn.Moves seg.flags c.sender
  · obtain ⟨hnone, hsynSent⟩ := not_opening_of_not_syn hm hsyn
    have hclosed := hm.ne_closed
    rw [if_pos hm]
    by_cases hc : CountsFin c seg st
    · rw [if_pos hc, ← expected_send hb hsend]
      rcases hc.2 with hs | hs <;> rw [hs] <;> exact expected_incSeq _
    · have hs : st.ssn.status = .synackSent := by
        cases hs : st.ssn.status <;> simp_all [CountsFin]
      rw [if_neg hc, hs, ← expected_send hb hsend]
      simp [Status.moveStream]
  · rw [if_neg hm, if_neg fun hc => hm hc.1, expected_send hb hsend]
    simp

/-- Only a move calls `set_base_seq`. -/
theorem opening_accounted
    (h : st.out.count (.baseSeq c.sender) < (trans c seg st).out.count (.baseSeq c.sender)) :
    ((trans c seg st).ssn.stream c.sender).expected
      = seg.seq + UInt32.ofNat seg.data.length + 1 := by
  have hsent : (sent c seg st).out.count (.baseSeq c.sender) = st.out.count (.baseSeq c.sender) := by
    simp [sent, State.setStream, State.emit]
  by_cases hm : st.ssn.Moves seg.flags c.sender
  · have hout := (transState_of_moves (moves_sent.mpr hm : (sent c seg st).ssn.Moves _ _) seg.seq
      seg.data.length c.tv).out
    rw [trans, hout, List.count_append, hsent, status_sent] at h
    rw [stream_trans, if_pos hm]
    cases hs : st.ssn.status <;> rw [hs] at h
    case none => exact expected_setBaseSeq ..
    case synSent => exact expected_setBaseSeq ..
    all_goals simp [Status.moveMarks, Status.next] at h
  · rw [trans, transState_of_not_moves (mt moves_sent.mp hm), hsent] at h
    exact absurd h (Nat.lt_irrefl _)

end Step

/-! ## Where the `FIN`s of a session are -/

/-- The side that closes has sent a `FIN`, and of a closed session both have. -/
structure FinsSeen (st : State) : Prop where
  closing : st.ssn.status = .closing → ∃ sd, st.ssn.closing = some sd ∧ FinSeen sd st.out
  closed : st.ssn.status = .closed → ∀ sd, FinSeen sd st.out

theorem FinSeen.accept {sd : Side} {st : State} (h : FinSeen sd st.out) (c : Call) (seg : Segment) :
    FinSeen sd (accept c seg st).out := by
  obtain ⟨a, ha, hsd, hf⟩ := h
  exact ⟨a, by rw [acceptedLog_accept]; exact List.mem_append_left _ ha, hsd, hf⟩

theorem finSeen_accept {c : Call} {seg : Segment} (hf : 0 < seg.flags &&& FIN) (st : State) :
    FinSeen c.sender (accept c seg st).out :=
  ⟨(c.sender, seg), by rw [acceptedLog_accept]; simp, rfl, hf⟩

theorem FinsSeen.accept {st : State} (h : FinsSeen st) (c : Call) (seg : Segment) :
    FinsSeen (accept c seg st) := by
  by_cases hm : st.ssn.Moves seg.flags c.sender
  · obtain ⟨us, ha⟩ := accept_move hm
    unfold Session.Moves at hm
    constructor <;> intro hs <;> rw [ha.status] at hs
    · have hst : st.ssn.status = .established := by
        cases hst : st.ssn.status <;> rw [hst] at hs <;> simp_all [Status.next]
      rw [hst] at hm
      exact ⟨c.sender, by rw [ha.closing, if_pos hst], finSeen_accept hm st⟩
    · intro sd
      cases hst : st.ssn.status <;> rw [hst] at hs <;> simp only [hst, Status.next,
        reduceCtorEq] at hs hm
      -- the sender closes as the second
      obtain ⟨sd', hcl, hseen⟩ := h.closing hst
      by_cases hsd : sd = c.sender
      · exact hsd ▸ finSeen_accept hm.1 st
      · have hne : sd' ≠ c.sender := fun e => hm.2 (e ▸ hcl)
        rw [Side.eq_peer_of_ne hsd, ← Side.eq_peer_of_ne hne]
        exact hseen.accept c seg
  · have ha := accept_stay hm
    refine ⟨fun hs => ?_, fun hs sd => ?_⟩
    · obtain ⟨sd, hcl, hseen⟩ := h.closing (ha.status ▸ hs)
      exact ⟨sd, ha.closing.trans hcl, hseen.accept c seg⟩
    · exact (h.closed (ha.status ▸ hs) sd).accept c seg

theorem finsSeen_perform {st : State} (h : FinsSeen st) (j : Job) : FinsSeen (j.perform st).1 := by
  refine perform_cases st j (Q := fun st' _ => FinsSeen st') ?_ ?_ ?_ ?_ ?_
  · intro c seg _ _
    simp only [keep, Stream.inWindow, if_true]
    exact ⟨h.closing, h.closed⟩
  · intro c seg _ _
    exact h.accept c seg
  · intro c seg _ _
    exact h
  · intro c seg chain _ _
    exact ⟨h.closing, h.closed⟩
  · intro _
    have hlog : acceptedLog (txCounters st).out = acceptedLog st.out := by
      simp [acceptedLog, txCounters, State.emit]
    have hseen : ∀ sd, FinSeen sd (txCounters st).out ↔ FinSeen sd st.out := by
      intro sd
      simp only [FinSeen, hlog]
    refine ⟨fun hs => ?_, fun hs sd => (hseen sd).mpr (h.closed hs sd)⟩
    obtain ⟨sd, hcl, hf⟩ := h.closing hs
    exact ⟨sd, hcl, (hseen sd).mpr hf⟩

theorem finsSeen_visits {src dst : Endpoint} {ssnId : UInt64} {ps : List Packet} {cfg : Config}
    (h : Visits (State.new src dst ssnId) ps cfg) : FinsSeen cfg.st := by
  obtain ⟨tr, -, hx⟩ := h
  refine exec_invariant (I := fun c : Config => FinsSeen c.st) ⟨by rintro ⟨⟩, by rintro ⟨⟩⟩ ?_ hx
  intro cfg l cfg' hI hs
  obtain ⟨st, p, rfl, rfl, rfl⟩ | ⟨st, j, w, rfl, rfl, rfl⟩ := step_cases hs
  · exact ⟨hI.closing, hI.closed⟩
  · exact finsSeen_perform hI j

/-! ## The accounting of a run -/

/-- **One acceptance** is accounted for exactly when its `FIN` is in time. -/
theorem accounted_iff {c : Call} {seg : Segment} {st : State} (hfins : FinsSeen st)
    (hsend : ((st.ssn.stream c.sender).send seg.seq seg.data.length).2 = true) :
    Accounted c seg st ↔ FinInTime c seg st := by
  have hcount : (st.ssn.stream c.sender).hasBaseSeq = true → seg.flags &&& SYN = 0 →
      (((trans c seg st).ssn.stream c.sender).expected
        = seg.seq + UInt32.ofNat seg.data.length
          + (if 0 < seg.flags &&& FIN ∧ ¬ FinSeen c.sender st.out then 1 else 0)
      ↔ (CountsFin c seg st ↔ 0 < seg.flags &&& FIN ∧ ¬ FinSeen c.sender st.out)) := by
    intro hb hsyn
    rw [expected_trans hb hsend hsyn, UInt32.add_right_inj]
    split <;> split <;> simp_all
  have hfin : (CountsFin c seg st ↔ 0 < seg.flags &&& FIN ∧ ¬ FinSeen c.sender st.out) ↔
      (0 < seg.flags &&& FIN → FirstWhereCounted c.sender st) := by
    unfold CountsFin Session.Moves FirstWhereCounted
    cases hs : st.ssn.status <;> simp only [reduceCtorEq, or_false, or_true, and_false, and_true]
    case closing =>
      -- the side that closes has sent its `FIN`
      obtain ⟨sd, hcl, hseen⟩ := hfins.closing hs
      have hown : st.ssn.closing = some c.sender → FinSeen c.sender st.out := by
        rw [hcl]
        rintro ⟨⟩
        exact hseen
      tauto
    case closed =>
      have := hfins.closed hs c.sender
      tauto
    all_goals tauto
  constructor
  · intro h hb hsyn
    exact hfin.mp ((hcount hb hsyn).mp (h.later hb hsyn))
  · intro h
    exact ⟨opening_accounted, fun hb hsyn => (hcount hb hsyn).mpr (hfin.mpr (h hb hsyn))⟩

/-- **Sequence-space accounting.** In every run of a new session all accepted segments are accounted
for exactly when every `FIN` comes in time. -/
theorem sequence_accounting (src dst : Endpoint) (ssnId : UInt64) (ps : List Packet) :
    (∀ c seg st w, Visits (State.new src dst ssnId) ps ⟨st, .deliver c seg :: w⟩ →
      ((st.ssn.stream c.sender).send seg.seq seg.data.length).2 = true → Accounted c seg st) ↔
    (∀ c seg st w, Visits (State.new src dst ssnId) ps ⟨st, .deliver c seg :: w⟩ →
      ((st.ssn.stream c.sender).send seg.seq seg.data.length).2 = true → FinInTime c seg st) := by
  constructor
  · intro h c seg st w hv hsend
    exact (accounted_iff (finsSeen_visits hv) hsend).mp (h c seg st w hv hsend)
  · intro h c seg st w hv hsend
    exact (accounted_iff (finsSeen_visits hv) hsend).mpr (h c seg st w hv hsend)

/-- The run that takes one more packet. -/
theorem visits_packet {st₀ st : State} {ps : List Packet} (h : run st₀ ps = some st) (p : Packet) :
    Visits st₀ (ps ++ [p]) ⟨dropBuf st, st.jobs p⟩ := by
  obtain ⟨tr, rfl, hx⟩ := exec_run h
  refine ⟨tr ++ [.packet p], by rw [packetsOf_append]; exact List.prefix_refl _, ?_⟩
  rw [exec_snoc, hx]
  rfl

/-- The client closes with the segment that should complete the handshake. -/
theorem fin_in_handshake :
    ∃ ps c seg st w, Visits (State.new hostC hostS 1) ps ⟨st, .deliver c seg :: w⟩ ∧
      ((st.ssn.stream c.sender).send seg.seq seg.data.length).2 = true ∧ ¬ Accounted c seg st := by
  have hrun : ((run (State.new hostC hostS 1) [pkt hostC SYN 100, pkt hostS (SYN ||| ACK) 500]).map
      fun st => (decide ((st.ssn.sideOf (pkt hostC (FIN ||| ACK) 101)) = .client),
        decide (((dropBuf st).ssn.client.send 101 0).2 = true),
        decide ((dropBuf st).ssn.client.hasBaseSeq = true ∧ (FIN ||| ACK) &&& SYN = 0),
        decide (((trans ⟨.client, 0, 0, ⟨0, 0⟩⟩ ⟨101, FIN ||| ACK, [], .client⟩
          (dropBuf st)).ssn.client).expected = 101),
        decide (0 < (FIN ||| ACK) &&& FIN ∧ ¬ FinSeen .client (dropBuf st).out)))
      = some (true, true, true, true, true) := by decide
  obtain ⟨st, hst, h⟩ := Option.map_eq_some_iff.mp hrun
  simp only [Prod.mk.injEq, decide_eq_true_eq] at h
  obtain ⟨hside, hsend, hb, hexp, hfin⟩ := h
  have hv := visits_packet hst (pkt hostC (FIN ||| ACK) 101)
  rw [State.jobs, hside] at hv
  refine ⟨_, _, _, _, _, hv, hsend, fun hacc => ?_⟩
  have hone : (if 0 < (FIN ||| ACK) &&& FIN ∧ ¬ FinSeen .client (dropBuf st).out then 1 else 0)
      = (1 : UInt32) := if_pos hfin
  have hlater : (101 : UInt32) = 101 + UInt32.ofNat 0 + 1 := by
    rw [← hone, ← hexp]
    exact (hacc.later hb.1 hb.2).trans (by rw [hexp]; rfl)
  exact absurd hlater (by decide)

/-! ## The transfer counters -/

/-- The payload bytes of the segments that were accepted for a side. -/
def acceptedBytes (sd : Side) (out : List Eff) : Nat :=
  (((acceptedLog out).filter fun a => a.1 = sd).map fun a => a.2.data.length).sum

/-- The entries that fill a counter. -/
def Eff.isCounter : Eff → Bool
  | .txServer _ | .txClient _ => true
  | _ => false

def counters (out : List Eff) : List Eff := out.filter Eff.isCounter

@[simp] theorem counters_append (l l' : List Eff) : counters (l ++ l') = counters l ++ counters l' :=
  List.filter_append ..

/-- No direction has counted a byte. -/
def Session.Uncounted (s : Session) : Prop := s.client.txSize = 0 ∧ s.server.txSize = 0

theorem uncounted_iff {s : Session} : s.Uncounted ↔ ∀ sd, (s.stream sd).txSize = 0 := by
  constructor
  · rintro h sd
    cases sd
    · exact h.1
    · exact h.2
  · exact fun h => ⟨h .client, h .server⟩

@[simp] theorem Stream.txSize_send (x : Stream) (seq : UInt32) (n : Nat) :
    (x.send seq n).1.txSize = x.txSize := by
  unfold Stream.send
  split
  · rfl
  · split <;> rfl

@[simp] theorem Status.txSize_moveStream (s : Status) (seq : UInt32) (n : Nat) (x : Stream) :
    (s.moveStream seq n x).txSize = x.txSize := by
  cases s <;> rfl

theorem uncounted_accept {st : State} (h : st.ssn.Uncounted) (c : Call) (seg : Segment) :
    (accept c seg st).ssn.Uncounted := by
  rw [uncounted_iff] at h ⊢
  intro sd
  by_cases hsd : sd = c.sender
  · subst hsd
    by_cases hm : st.ssn.Moves seg.flags c.sender
    · obtain ⟨_, ha⟩ := accept_move hm
      rw [ha.stream, Status.txSize_moveStream, Stream.txSize_send]
      exact h _
    · rw [(accept_stay hm).stream, Stream.txSize_send]
      exact h _
  · obtain rfl := Side.eq_peer_of_ne hsd
    by_cases hm : st.ssn.Moves seg.flags c.sender
    · obtain ⟨_, ha⟩ := accept_move hm
      rw [ha.peer]
      exact h _
    · rw [(accept_stay hm).peer]
      exact h _

theorem counters_accept (c : Call) (seg : Segment) (st : State) :
    ∃ l, (accept c seg st).out = st.out ++ l ∧ counters l = [] := by
  by_cases hm : st.ssn.Moves seg.flags c.sender
  · obtain ⟨us, ha⟩ := accept_move hm
    obtain ⟨ref, hout⟩ := ha.out
    refine ⟨_, hout, ?_⟩
    cases st.ssn.status <;> rfl
  · obtain ⟨ref, hout⟩ := (accept_stay hm).out
    exact ⟨_, hout, rfl⟩

/-- What holds while `decode_stream` works on a packet, which began with the record `out`. -/
structure Uncounting (out : List Eff) (cfg : Config) : Prop where
  ssn : cfg.st.ssn.Uncounted
  out : ∃ l, cfg.st.out = out ++ l ∧ counters l = []
  work : .finish ∉ cfg.work

theorem uncounting_perform {out : List Eff} {st : State} {j : Job} {w : List Job}
    (h : Uncounting out ⟨st, j :: w⟩) :
    Uncounting out ⟨(j.perform st).1, (j.perform st).2 ++ w⟩ := by
  obtain ⟨hssn, ⟨l, hl, hnone⟩, hwork⟩ := h
  have hw : .finish ∉ w := fun hm => hwork (List.mem_cons_of_mem j hm)
  refine perform_cases st j (Q := fun st' new => Uncounting out ⟨st', new ++ w⟩) ?_ ?_ ?_ ?_ ?_
  · rintro c seg rfl _
    simp only [keep, Stream.inWindow, if_true]
    exact ⟨hssn, ⟨l, hl, hnone⟩, hw⟩
  · rintro c seg rfl _
    obtain ⟨l', hl', hnone'⟩ := counters_accept c seg st
    refine ⟨uncounted_accept hssn c seg, ⟨l ++ l', ?_, ?_⟩, by simpa using hw⟩
    · rw [hl', hl, List.append_assoc]
    · rw [counters_append, hnone, hnone']
      rfl
  · rintro c seg rfl _
    exact ⟨hssn, ⟨l, hl, hnone⟩, hw⟩
  · rintro c seg chain rfl _
    exact ⟨hssn, ⟨l, hl, hnone⟩, by simpa using hw⟩
  · rintro rfl
    exact absurd (List.mem_cons_self ..) hwork

/-- **A packet fills both counters once, with 0.** -/
theorem counters_decode {st st' : State} {p : Packet} (h0 : st.ssn.Uncounted)
    (h : decode st p = some st') :
    st'.ssn.Uncounted ∧ ∃ l, st'.out = st.out ++ l ∧ counters l = [.txServer 0, .txClient 0] := by
  obtain ⟨st₁, h₁, rfl⟩ := Option.map_eq_some_iff.mp h
  have hstart : Uncounting st.out
      ⟨dropBuf st, [.deliver (p.call (st.ssn.sideOf p)) (p.segment (st.ssn.sideOf p))]⟩ :=
    ⟨h0, ⟨[], by simp [dropBuf], rfl⟩, by simp⟩
  obtain ⟨hssn, ⟨l, hl, hnone⟩, -⟩ := (works_decodeStream _ _ _ [] h₁).keeps
    (I := Uncounting st.out) (fun _ _ _ hI => uncounting_perform hI) hstart
  refine ⟨hssn, l ++ [.txServer st₁.ssn.client.txSize.toUInt32,
    .txClient st₁.ssn.server.txSize.toUInt32], ?_, ?_⟩
  · rw [← List.append_assoc]
    exact congrArg (· ++ _) hl
  · rw [counters_append, hnone, show st₁.ssn.client.txSize = 0 from hssn.1,
      show st₁.ssn.server.txSize = 0 from hssn.2]
    rfl

/-- **So does every packet of a run.** -/
theorem counters_run {src dst : Endpoint} {ssnId : UInt64} {ps : List Packet} {st st' : State}
    {p : Packet} (h : run (State.new src dst ssnId) ps = some st) (hp : decode st p = some st') :
    ∃ l, st'.out = st.out ++ l ∧ counters l = [.txServer 0, .txClient 0] := by
  suffices hun : ∀ (ps : List Packet) {s st : State}, s.ssn.Uncounted → run s ps = some st →
      st.ssn.Uncounted from
    (counters_decode (hun ps ⟨rfl, rfl⟩ h) hp).2
  intro ps
  induction ps with
  | nil =>
    intro s st hs h
    obtain rfl := Option.some.inj h
    exact hs
  | cons q ps ih =>
    intro s st hs h
    obtain ⟨s₁, h₁, h₂⟩ := Option.bind_eq_some_iff.mp h
    exact ih (counters_decode hs h₁).1 h₂

end PacketMachine.Tcp
