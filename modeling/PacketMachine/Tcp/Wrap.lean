import PacketMachine.Tcp.LifeCycle

/-!
# Sequence numbers count from the base

A session keeps absolute sequence numbers in two places only: `base_seq_` of a stream that has one,
and the `seq` of each segment. Everything it compares, stores under a key or reports is relative to a
base. `shift` adds one constant, modulo 2^32, to all the absolute numbers of a state, and each
function of the source commutes with it.

Results:
* `decodeStream_shift`, `run_shift`: a shifted run of a shifted state is the run, shifted.
* **`wraparound_invisible`**: a constant added to the sequence numbers of all the packets changes
  nothing that can be observed of a new session.
-/

namespace PacketMachine.Tcp

section Shift

variable (d : UInt32)

/-! ## The shift -/

/-- A stream without a base holds no sequence number. -/
def Stream.shift (x : Stream) : Stream :=
  { x with baseSeq := if x.hasBaseSeq then x.baseSeq + d else x.baseSeq }

def Segment.shift (seg : Segment) : Segment := { seg with seq := seg.seq + d }

/-- The keys are relative, and stay. -/
def SegMap.shift (m : SegMap) : SegMap where
  entries := m.entries.map (.map id fun _ => List.map (Segment.shift d))
  nodupKeys := by
    rw [List.NodupKeys, List.map₂_keys]
    exact m.nodupKeys

def Session.shift (s : Session) : Session :=
  { s with
    client := s.client.shift d
    server := s.server.shift d
    segMap := s.segMap.shift d }

/-- Of the entries of a record only an acceptance tells a sequence number. -/
def Eff.shift : Eff → Eff
  | .accepted sd seg => .accepted sd (seg.shift d)
  | e => e

def State.shift (st : State) : State := ⟨st.ssn.shift d, st.out.map (Eff.shift d)⟩

def Packet.shift (p : Packet) : Packet := { p with seq := p.seq + d }

/-! ## Streams -/

variable {d}

/-- The relative number of a segment does not depend on the shift. -/
theorem toRelSeq_shift {x : Stream} (h : x.hasBaseSeq = true) (seq : UInt32) :
    (x.shift d).toRelSeq (seq + d) = x.toRelSeq seq := by
  simp only [Stream.toRelSeq, Stream.shift, h, if_true]
  grind

theorem send_shift (x : Stream) (seq : UInt32) (n : Nat) :
    (x.shift d).send (seq + d) n = ((x.send seq n).1.shift d, (x.send seq n).2) := by
  cases hb : x.hasBaseSeq with
  | false => simp [Stream.send, Stream.shift, hb]
  | true =>
    have hrel := toRelSeq_shift (d := d) hb seq
    have hb' : (x.shift d).hasBaseSeq = true := hb
    unfold Stream.toRelSeq at hrel
    by_cases h : x.nextSeq = seq - x.baseSeq
    · rw [Stream.send_of_eq hb' (by rw [hrel]; exact h), Stream.send_of_eq hb h]
      rfl
    · rw [Stream.send_of_ne hb' (by rw [hrel]; exact h), Stream.send_of_ne hb h]

theorem setBaseSeq_shift (x : Stream) (seq : UInt32) (n : Nat) :
    (x.shift d).setBaseSeq (seq + d) n = (x.setBaseSeq seq n).shift d := by
  simp [Stream.setBaseSeq, Stream.shift]

theorem incSeq_shift (x : Stream) : (x.shift d).incSeq = x.incSeq.shift d := rfl

theorem recv_shift (x : Stream) (ack : UInt32) (win : UInt16) :
    (x.shift d).recv ack win = (x.recv ack win).shift d := rfl

/-! ## The store -/

@[simp] theorem SegMap.lookup_shift (m : SegMap) (k : UInt32) :
    (m.shift d).lookup k = (m.lookup k).map (List.map (Segment.shift d)) :=
  List.dlookup_map₂ k

theorem kerase_shift (l : List (Sigma fun _ : UInt32 => List Segment)) (k : UInt32) :
    (l.map (.map id fun _ => List.map (Segment.shift d)) :
        List (Sigma fun _ : UInt32 => List Segment)).kerase k
      = (l.kerase k).map (.map id fun _ => List.map (Segment.shift d)) := by
  induction l with
  | nil => rfl
  | cons e l ih =>
    obtain ⟨k₁, v⟩ := e
    simp only [List.map_cons, Sigma.map, id]
    by_cases h : k = k₁
    · subst h
      simp [List.kerase_cons_eq]
    · rw [List.kerase_cons_ne (by simpa using h), List.kerase_cons_ne (by simpa using h), ih]
      rfl

theorem SegMap.erase_shift (m : SegMap) (k : UInt32) :
    (m.shift d).erase k = SegMap.shift d (m.erase k) :=
  AList.ext (kerase_shift m.entries k)

theorem SegMap.insert_shift (m : SegMap) (k : UInt32) (chain : List Segment) :
    (m.shift d).insert k (chain.map (Segment.shift d)) = SegMap.shift d (m.insert k chain) := by
  refine AList.ext ?_
  simp only [SegMap.shift, AList.entries_insert, List.map_cons, kerase_shift]
  rfl

theorem SegMap.store_shift (m : SegMap) (k : UInt32) (seg : Segment) :
    (m.shift d).store k (seg.shift d) = (m.store k seg).shift d := by
  unfold SegMap.store
  rw [SegMap.lookup_shift]
  cases m.lookup k with
  | none => exact m.insert_shift k [seg]
  | some chain =>
    have h := m.insert_shift (d := d) k (chain ++ [seg])
    rwa [List.map_append] at h

theorem SegMap.count_shift (m : SegMap) : (m.shift d).count = m.count := by
  simp [SegMap.count, SegMap.shift, Function.comp_def, Sigma.map]

/-! ## `trans_state` and `decode_stream` -/

@[simp] theorem stream_shift (st : State) (sd : Side) :
    (st.shift d).ssn.stream sd = (st.ssn.stream sd).shift d := by
  cases sd <;> rfl

@[simp] theorem setStream_shift (st : State) (sd : Side) (x : Stream) :
    (st.shift d).setStream sd (x.shift d) = (st.setStream sd x).shift d := by
  cases sd <;> rfl

theorem emit_shift (st : State) (es : List Eff) :
    (st.shift d).emit (es.map (Eff.shift d)) = (st.emit es).shift d := by
  simp [State.emit, State.shift]

theorem setStatus_shift (st : State) (s : Status) :
    (st.shift d).setStatus s = (st.setStatus s).shift d := by
  simp [State.setStatus, State.shift, Session.shift, Eff.shift]

theorem state_setBaseSeq_shift (st : State) (sd : Side) (seq : UInt32) (n : Nat) :
    (st.shift d).setBaseSeq sd (seq + d) n = (st.setBaseSeq sd seq n).shift d := by
  unfold State.setBaseSeq
  rw [← emit_shift, ← setStream_shift, ← setBaseSeq_shift, ← stream_shift]
  rfl

theorem state_incSeq_shift (st : State) (sd : Side) :
    (st.shift d).incSeq sd = (st.incSeq sd).shift d := by
  unfold State.incSeq
  rw [← setStream_shift, ← incSeq_shift, ← stream_shift]

theorem transState_shift (flags : UInt8) (sender : Side) (seq : UInt32) (n : Nat) (tv : Timeval)
    (st : State) :
    transState flags sender (seq + d) n tv (st.shift d)
      = ((transState flags sender seq n tv st).1.shift d,
          (transState flags sender seq n tv st).2) := by
  have hstatus : (st.shift d).ssn.status = st.ssn.status := rfl
  have hclosing : (st.shift d).ssn.closing = st.ssn.closing := rfl
  unfold transState
  rw [hstatus, hclosing]
  cases st.ssn.status <;> simp only <;> split <;>
    simp only [setStatus_shift, ← state_setBaseSeq_shift, ← state_incSeq_shift] <;> rfl

theorem pushEvents_shift (new : Status) (st : State) :
    pushEvents new (st.shift d) = (pushEvents new st).shift d := by
  unfold pushEvents
  split
  · exact emit_shift st [.pushEvent .established, .rtt3wh st.ssn.tsRtt.micros]
  · split
    · exact emit_shift st [.pushEvent .closed]
    · rfl

theorem setData_shift (data : List UInt8) (st : State) :
    setData data (st.shift d) = (setData data st).shift d := by
  have hbuf : (st.shift d).ssn.buf = st.ssn.buf := rfl
  unfold setData
  rw [hbuf]
  cases st.ssn.buf with
  | none => exact emit_shift st [.data (.seg data)]
  | some b => simp [State.shift, Session.shift, Eff.shift]

theorem accept_shift (c : Call) (seg : Segment) (st : State) :
    accept c (seg.shift d) (st.shift d) = (accept c seg st).shift d := by
  have hsend := send_shift (d := d) (st.ssn.stream c.sender) seg.seq seg.data.length
  have hacc : ∀ st : State, (st.shift d).emit [.accepted c.sender (seg.shift d)]
      = (st.emit [.accepted c.sender seg]).shift d :=
    fun st => emit_shift st [.accepted c.sender seg]
  unfold accept
  simp only [Segment.shift] at hsend hacc ⊢
  rw [stream_shift, hsend, setStream_shift, hacc, stream_shift, recv_shift, setStream_shift,
    transState_shift, pushEvents_shift, setData_shift]

theorem takeChain_shift (key : UInt32) (seg : Segment) (st : State) :
    takeChain key (seg.shift d) (st.shift d) = (takeChain key seg st).shift d := by
  simp only [takeChain, State.shift, Session.shift, SegMap.erase_shift]
  rfl

/-- A segment is kept only when `Stream::send` has refused it, which takes a base. -/
theorem keep_shift {c : Call} {seg : Segment} {st : State}
    (h : ((st.ssn.stream c.sender).send seg.seq seg.data.length).2 = false) :
    keep c (seg.shift d) (st.shift d) = (keep c seg st).shift d := by
  have hb : (st.ssn.stream c.sender).hasBaseSeq = true := by
    by_contra hb
    rw [Stream.send, if_pos (by simpa using hb)] at h
    cases h
  have hrel : ((st.shift d).ssn.stream c.sender).toRelSeq (seg.shift d).seq
      = (st.ssn.stream c.sender).toRelSeq seg.seq := by
    rw [stream_shift]
    exact toRelSeq_shift hb seg.seq
  simp only [keep, Stream.inWindow, if_true, hrel]
  simp only [State.shift, Session.shift, ← SegMap.store_shift]

/-- **`decode_stream` commutes with the shift**, also where it recurses. -/
theorem decodeStream_shift (fuel : Nat) (c : Call) :
    ∀ (seg : Segment) (st : State), decodeStream fuel c (seg.shift d) (st.shift d)
      = (decodeStream fuel c seg st).map (State.shift d) := by
  induction fuel with
  | zero => intro seg st; rfl
  | succ fuel ih =>
    have hchain : ∀ (chain : List Segment) (st : State),
        (chain.map (Segment.shift d)).foldlM (fun st tgt => decodeStream fuel c tgt st) (st.shift d)
          = (chain.foldlM (fun st tgt => decodeStream fuel c tgt st) st).map (State.shift d) := by
      intro chain
      induction chain with
      | nil => intro st; rfl
      | cons tgt chain ihc =>
        intro st
        simp only [List.map_cons, List.foldlM_cons, ih]
        cases decodeStream fuel c tgt st with
        | none => rfl
        | some st₁ => exact ihc st₁
    intro seg st
    have hsend : (((st.shift d).ssn.stream c.sender).send (seg.shift d).seq
        (seg.shift d).data.length).2
        = ((st.ssn.stream c.sender).send seg.seq seg.data.length).2 := by
      rw [stream_shift, show (seg.shift d).seq = seg.seq + d from rfl, send_shift]
      rfl
    have hnext : ∀ st : State, ((st.shift d).ssn.stream c.sender).nextSeq
        = (st.ssn.stream c.sender).nextSeq := by
      intro st
      rw [stream_shift]
      rfl
    have hlookup : ∀ (st : State) (k : UInt32), (st.shift d).ssn.segMap.lookup k
        = (st.ssn.segMap.lookup k).map (List.map (Segment.shift d)) :=
      fun st k => st.ssn.segMap.lookup_shift k
    unfold decodeStream
    rw [hsend]
    split
    · rename_i h
      rw [keep_shift h]
      rfl
    · simp only
      rw [accept_shift, hnext, hlookup]
      cases (accept c seg st).ssn.segMap.lookup ((accept c seg st).ssn.stream c.sender).nextSeq with
      | none => rfl
      | some chain =>
        simp only [Option.map_some, takeChain_shift]
        exact hchain chain _

theorem decode_shift (st : State) (p : Packet) :
    decode (st.shift d) (p.shift d) = (decode st p).map (State.shift d) := by
  have hside : (st.shift d).ssn.sideOf (p.shift d) = st.ssn.sideOf p := rfl
  have hcount : (st.shift d).ssn.segMap.count = st.ssn.segMap.count := st.ssn.segMap.count_shift
  have hstream := decodeStream_shift (d := d) (st.ssn.segMap.count + 1)
    (p.call (st.ssn.sideOf p)) (p.segment (st.ssn.sideOf p)) (dropBuf st)
  have htx : txCounters ∘ State.shift d = State.shift d ∘ txCounters := by
    funext st
    exact emit_shift st [.txServer st.ssn.client.txSize.toUInt32,
      .txClient st.ssn.server.txSize.toUInt32]
  unfold decode
  rw [hside, hcount]
  show (decodeStream _ _ _ ((dropBuf st).shift d)).map txCounters = _
  rw [show ((p.shift d).segment (st.ssn.sideOf p))
    = (p.segment (st.ssn.sideOf p)).shift d from rfl]
  show (decodeStream _ (p.call (st.ssn.sideOf p)) _ ((dropBuf st).shift d)).map txCounters = _
  rw [hstream, Option.map_map, Option.map_map, htx]

/-- **A shifted run is the run, shifted.** -/
theorem run_shift (st : State) (ps : List Packet) :
    run (st.shift d) (ps.map (Packet.shift d)) = (run st ps).map (State.shift d) := by
  induction ps generalizing st with
  | nil => rfl
  | cons p ps ih =>
    simp only [run, List.map_cons, List.foldlM_cons, decode_shift]
    cases decode st p with
    | none => rfl
    | some st₁ => exact ih st₁

end Shift

/-! ## What can be observed -/

/-- What `TCP.data` was set to, in order. -/
def dataRefs (out : List Eff) : List DataRef :=
  out.filterMap fun
    | .data ref => some ref
    | _ => none

/-- Nothing observable tells the second state from the first, the sequence numbers of which are
smaller by `d`. -/
structure SameButSeq (d : UInt32) (st st' : State) : Prop where
  accepted : acceptedLog st'.out = (acceptedLog st.out).map fun a => (a.1, a.2.shift d)
  events : events st'.out = events st.out
  data : dataRefs st'.out = dataRefs st.out
  status : st'.ssn.status = st.ssn.status
  nextSeq : ∀ sd, (st'.ssn.stream sd).nextSeq = (st.ssn.stream sd).nextSeq
  keys : ∀ k, k ∈ st'.ssn.segMap ↔ k ∈ st.ssn.segMap
  payloads : ∀ k, (st'.ssn.segMap.chain k).map Segment.data = (st.ssn.segMap.chain k).map Segment.data

theorem filterMap_shift {α : Type} (d : UInt32) (f : Eff → Option α) (out : List Eff)
    (hf : ∀ e, f (e.shift d) = f e) : (out.map (Eff.shift d)).filterMap f = out.filterMap f := by
  rw [List.filterMap_map]
  congr 1
  funext e
  exact hf e

theorem sameButSeq_shift (d : UInt32) (st : State) : SameButSeq d st (st.shift d) where
  accepted := by
    simp only [acceptedLog, State.shift, List.filterMap_map, List.map_filterMap]
    congr 1
    funext e
    cases e <;> rfl
  events := filterMap_shift d _ _ fun e => by cases e <;> rfl
  data := filterMap_shift d _ _ fun e => by cases e <;> rfl
  status := rfl
  nextSeq sd := by
    cases sd <;> rfl
  keys k := by
    have hkeys : (st.shift d).ssn.segMap.keys = st.ssn.segMap.keys := List.map₂_keys _ _
    rw [AList.mem_keys, AList.mem_keys, hkeys]
  payloads k := by
    have hl : (st.shift d).ssn.segMap.lookup k
        = (st.ssn.segMap.lookup k).map (List.map (Segment.shift d)) := SegMap.lookup_shift _ k
    simp only [SegMap.chain, hl]
    cases st.ssn.segMap.lookup k with
    | none => rfl
    | some chain => simp [Function.comp_def, Segment.shift]

/-- **Wraparound is invisible.** After any packets given to a new session, the session is the same
but for the absolute sequence numbers when a constant is added to the sequence number of each. -/
theorem wraparound_invisible (d : UInt32) (src dst : Endpoint) (ssnId : UInt64)
    (ps : List Packet) :
    ∃ st st', run (State.new src dst ssnId) ps = some st ∧
      run (State.new src dst ssnId) (ps.map (Packet.shift d)) = some st' ∧
      SameButSeq d st st' := by
  obtain ⟨st, h⟩ := run_isSome (State.new src dst ssnId) ps
  refine ⟨st, st.shift d, h, ?_, sameButSeq_shift d st⟩
  have hnew : (State.new src dst ssnId).shift d = State.new src dst ssnId := rfl
  rw [← hnew, run_shift, h]
  rfl

end PacketMachine.Tcp
