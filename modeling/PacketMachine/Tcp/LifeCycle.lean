import PacketMachine.Tcp.Replay

/-!
# The life cycle of a session

`trans_state` (`tcp.cc:276-331`) runs for every accepted segment, also for those that
`decode_stream` replays. Which status it left, which bases it set and which events followed is one
fixed list (`history`), of which a session has gone through the part that its status says
(`marks_run`).

Results:
* **`life_cycle`**: over the whole life of a session the status goes up one step at a time, each
  event is pushed at most once and `TCP.closed` only after `TCP.established`, each base is set at most
  once, and nothing is pushed after `TCP.closed`.
* `run_handshake`: the session after a clean three-way handshake.
-/

namespace PacketMachine.Tcp

/-! ## The record of a session -/

/-- A new session with an empty record. -/
def State.new (src dst : Endpoint) (ssnId : UInt64) : State := ⟨Session.new src dst ssnId, []⟩

/-- The values `status_` was assigned, in order. -/
def statuses (out : List Eff) : List Status :=
  out.filterMap fun
    | .status s => some s
    | _ => none

/-- The events that were pushed, in order. -/
def events (out : List Eff) : List Event :=
  out.filterMap fun
    | .pushEvent ev => some ev
    | _ => none

/-- The entries that tell of the life cycle. -/
def Eff.isMark : Eff → Bool
  | .status _ | .baseSeq _ | .pushEvent _ => true
  | _ => false

def marks (out : List Eff) : List Eff := out.filter Eff.isMark

@[simp] theorem marks_append (l l' : List Eff) : marks (l ++ l') = marks l ++ marks l' :=
  List.filter_append ..

@[simp] theorem events_append (l l' : List Eff) : events (l ++ l') = events l ++ events l' :=
  List.filterMap_append

theorem statuses_marks (out : List Eff) : statuses (marks out) = statuses out := by
  unfold statuses marks
  rw [List.filterMap_filter]
  congr 1
  funext e
  cases e <;> rfl

theorem events_marks (out : List Eff) : events (marks out) = events out := by
  unfold events marks
  rw [List.filterMap_filter]
  congr 1
  funext e
  cases e <;> rfl

theorem count_baseSeq_marks (out : List Eff) (sd : Side) :
    (marks out).count (.baseSeq sd) = out.count (.baseSeq sd) := by
  unfold marks
  exact List.count_filter rfl

/-- The position in the life cycle. -/
def Status.rank : Status → Nat
  | none => 0
  | synSent => 1
  | synackSent => 2
  | established => 3
  | closing => 4
  | closed => 5

/-- What a session has left in its record when it has come to a status. -/
def history : Status → List Eff
  | .none => []
  | .synSent => [.status .synSent, .baseSeq .client]
  | .synackSent => [.status .synSent, .baseSeq .client, .status .synackSent, .baseSeq .server]
  | .established =>
    [.status .synSent, .baseSeq .client, .status .synackSent, .baseSeq .server,
      .status .established, .pushEvent .established]
  | .closing =>
    [.status .synSent, .baseSeq .client, .status .synackSent, .baseSeq .server,
      .status .established, .pushEvent .established, .status .closing]
  | .closed =>
    [.status .synSent, .baseSeq .client, .status .synackSent, .baseSeq .server,
      .status .established, .pushEvent .established, .status .closing,
      .status .closed, .pushEvent .closed]

/-! ## What a step adds to it -/

/-- A move adds to the record what separates the histories of the two statuses. -/
theorem history_next {s : Session} {flags : UInt8} {sender : Side} (h : s.Moves flags sender)
    (us : UInt32) :
    history s.status.next
      = history s.status ++ marks (s.status.moveMarks sender ++ s.status.moveEvents us) := by
  unfold Session.Moves at h
  cases hs : s.status <;> simp only [hs] at h
  case none => rw [h.2]; rfl
  case synSent => rw [h.2]; rfl
  all_goals rfl

/-- **One step.** The record only grows, and its marks stay the history of the status. -/
structure Grows (st st' : State) : Prop where
  out : ∃ l, st'.out = st.out ++ l
  marks : marks st.out = history st.ssn.status → marks st'.out = history st'.ssn.status
  rank : st.ssn.status.rank ≤ st'.ssn.status.rank

theorem Grows.refl (st : State) : Grows st st := ⟨⟨[], by simp⟩, id, Nat.le_refl _⟩

theorem Grows.trans {a b c : State} (hab : Grows a b) (hbc : Grows b c) : Grows a c := by
  obtain ⟨l, hl⟩ := hab.out
  obtain ⟨l', hl'⟩ := hbc.out
  exact ⟨⟨l ++ l', by rw [hl', hl, List.append_assoc]⟩, fun h => hbc.marks (hab.marks h),
    Nat.le_trans hab.rank hbc.rank⟩

theorem Status.rank_le_next (s : Status) : s.rank ≤ s.next.rank := by
  cases s <;> decide

theorem grows_accept (c : Call) (seg : Segment) (st : State) : Grows st (accept c seg st) := by
  by_cases h : st.ssn.Moves seg.flags c.sender
  · obtain ⟨us, ha⟩ := accept_move h
    obtain ⟨ref, hout⟩ := ha.out
    refine ⟨⟨_, hout⟩, fun hm => ?_, ?_⟩
    · rw [hout, ha.status, history_next h us, ← hm]
      simp [marks, Eff.isMark]
    · rw [ha.status]
      exact st.ssn.status.rank_le_next
  · have ha := accept_stay h
    obtain ⟨ref, hout⟩ := ha.out
    refine ⟨⟨_, hout⟩, fun hm => ?_, ?_⟩
    · rw [hout, ha.status, ← hm]
      simp [marks, Eff.isMark]
    · rw [ha.status]

theorem grows_perform (st : State) (j : Job) : Grows st (j.perform st).1 := by
  refine perform_cases st j (Q := fun st' _ => Grows st st') ?_ ?_ ?_ ?_ ?_
  · intro c seg _ _
    exact ⟨⟨[], by simp [keep, Stream.inWindow]⟩, fun h => by simpa [keep, Stream.inWindow] using h,
      Nat.le_of_eq (by simp [keep, Stream.inWindow])⟩
  · intro c seg _ _
    exact grows_accept c seg st
  · intro c seg _ _
    exact .refl st
  · intro c seg chain _ _
    exact ⟨⟨[], by simp [takeChain]⟩, id, Nat.le_refl _⟩
  · intro _
    refine ⟨⟨_, rfl⟩, fun h => ?_, Nat.le_refl _⟩
    simp only [txCounters, State.emit, marks_append, h]
    simp [marks, Eff.isMark]

/-- **A run only adds to the record**, and keeps it the history of the status. -/
theorem grows_run {st st' : State} {ps : List Packet} (h : run st ps = some st') : Grows st st' := by
  refine run_induct (P := fun _ => True) (J := fun _ c => Grows st c.st) (fun _ _ => trivial)
    (.refl st) ?_ ?_ h
  · intro qs s p _ _ hJ
    exact hJ.trans ⟨⟨[], by simp [dropBuf]⟩, id, Nat.le_refl _⟩
  · intro qs s j w _ hJ
    exact hJ.trans (grows_perform s j)

theorem marks_run {src dst : Endpoint} {ssnId : UInt64} {ps : List Packet} {st : State}
    (h : run (State.new src dst ssnId) ps = some st) : marks st.out = history st.ssn.status :=
  (grows_run h).marks rfl

/-! ## The life cycle -/

/-- What holds of the record and the status over the whole life of a session. -/
structure LifeCycle (st : State) : Prop where
  /-- Each assignment of `status_` goes up one step. -/
  steps : (Status.none :: statuses st.out).IsChain fun a b => b.rank = a.rank + 1
  /-- `status_` is what was assigned last. -/
  last : (Status.none :: statuses st.out).getLast? = some st.ssn.status
  /-- Each event is pushed at most once, and `TCP.closed` only after `TCP.established`. -/
  events : events st.out <+: [.established, .closed]
  /-- Each base is set at most once. -/
  base : ∀ sd, st.out.count (.baseSeq sd) ≤ 1
  /-- After `CLOSED` only the event of that move follows. -/
  closed : ∀ l l', st.out = l ++ .status .closed :: l' → Tcp.events l' = [.closed]

/-- The tail of `history s` after the entry `CLOSED`. -/
theorem history_after_closed {s : Status} {l l' : List Eff}
    (h : history s = l ++ .status .closed :: l') : events l' = [.closed] := by
  have hget : (history s)[l.length]? = some (.status .closed) := by simp [h]
  have hdrop : (history s).drop (l.length + 1) = l' := by simp [h]
  have hlt : l.length < (history s).length := by simp [h]
  have key : ∀ i < (history s).length, (history s)[i]? = some (.status .closed) →
      events ((history s).drop (i + 1)) = [.closed] := by
    cases s <;> decide
  rw [← hdrop]
  exact key l.length hlt hget

theorem lifeCycle_of_marks {st : State} (h : marks st.out = history st.ssn.status) :
    LifeCycle st := by
  have hs : statuses st.out = statuses (history st.ssn.status) := by rw [← h, statuses_marks]
  have he : events st.out = events (history st.ssn.status) := by rw [← h, events_marks]
  constructor
  · rw [hs]
    cases st.ssn.status <;> decide
  · rw [hs]
    cases st.ssn.status <;> decide
  · rw [he]
    cases st.ssn.status <;> decide
  · intro sd
    rw [← count_baseSeq_marks, h]
    cases sd <;> cases st.ssn.status <;> decide
  · intro l l' hl
    rw [← events_marks]
    apply history_after_closed (s := st.ssn.status) (l := marks l)
    rw [← h, hl, marks_append]
    rfl

/-- **The life cycle of every session.** It holds after any packets `ps`; and whatever packets `qs`
follow, the status does not go back, and nothing is pushed when it was `CLOSED`. -/
theorem life_cycle (src dst : Endpoint) (ssnId : UInt64) (ps : List Packet) :
    ∃ st, run (State.new src dst ssnId) ps = some st ∧ LifeCycle st ∧
      ∀ qs, ∃ st' l, run st qs = some st' ∧ st'.out = st.out ++ l ∧ LifeCycle st' ∧
        st.ssn.status.rank ≤ st'.ssn.status.rank ∧
        (st.ssn.status = .closed → events l = []) := by
  obtain ⟨st, hst⟩ := run_isSome (State.new src dst ssnId) ps
  have hm := marks_run hst
  refine ⟨st, hst, lifeCycle_of_marks hm, fun qs => ?_⟩
  obtain ⟨st', hst'⟩ := run_isSome st qs
  have hg := grows_run hst'
  obtain ⟨l, hl⟩ := hg.out
  refine ⟨st', l, hst', hl, lifeCycle_of_marks (hg.marks hm), hg.rank, fun hc => ?_⟩
  -- `TCP.closed` is in the record already, and the events of the longer one are no more than these
  have hpre := (lifeCycle_of_marks (hg.marks hm)).events
  have he : events st.out = [.established, .closed] := by
    rw [← events_marks, hm, hc]
    rfl
  rw [hl, events_append, he] at hpre
  obtain ⟨r, hr⟩ := hpre
  simp only [List.cons_append, List.nil_append, List.cons.injEq, true_and,
    List.append_eq_nil_iff] at hr
  exact hr.1

/-! ## The handshake -/

/-- A clean three-way handshake: `SYN` and `ACK` of the client carry no data. -/
structure Handshake (src dst : Endpoint) (syn synack ack : Packet) : Prop where
  ne : src ≠ dst
  syn_src : syn.src = src
  syn_flags : syn.flags = SYN
  syn_data : syn.data = []
  synack_src : synack.src = dst
  synack_flags : synack.flags = SYN ||| ACK
  ack_src : ack.src = src
  ack_flags : ack.flags = ACK
  ack_seq : ack.seq = syn.seq + 1
  ack_data : ack.data = []

/-- The session that a clean handshake leaves, `isn` being the sequence number of the `SYN`. -/
structure Opened (src : Endpoint) (isn : UInt32) (s : Session) : Prop where
  status : s.status = .established
  closing : s.closing = none
  segMap : s.segMap = ∅
  endpoint : s.client.endpoint = src
  clientBase : s.client.hasBaseSeq = true ∧ s.client.baseSeq = isn
  clientNext : s.client.nextSeq = 1
  serverBase : s.server.hasBaseSeq = true

/-- A packet that moves a session whose `seg_map_` is empty. -/
theorem decode_move (st : State) (p : Packet) (sd : Side) (hsd : st.ssn.sideOf p = sd)
    (hmap : st.ssn.segMap = ∅) (hsend : ((st.ssn.stream sd).send p.seq p.data.length).2 = true)
    (hm : st.ssn.Moves p.flags sd) :
    ∃ st', decode st p = some st' ∧ st'.ssn.segMap = ∅ ∧
      st'.ssn.status = st.ssn.status.next ∧
      st'.ssn.closing = (if st.ssn.status = .established then some sd else st.ssn.closing) ∧
      st'.ssn.stream sd = st.ssn.status.moveStream p.seq p.data.length
        ((st.ssn.stream sd).send p.seq p.data.length).1 ∧
      st'.ssn.stream sd.peer = (st.ssn.stream sd.peer).recv p.ack p.win := by
  have hstream : ∀ sd, (dropBuf st).ssn.stream sd = st.ssn.stream sd := by
    intro sd; cases sd <;> rfl
  obtain ⟨us, ha⟩ : ∃ us, Accepted (p.call sd) (p.segment sd) (dropBuf st) _ _ _ _
      (_ ++ Status.moveEvents us _) := accept_move hm
  have hmap' : (accept (p.call sd) (p.segment sd) (dropBuf st)).ssn.segMap = ∅ := by
    rw [accept_segMap]; exact hmap
  refine ⟨txCounters (accept (p.call sd) (p.segment sd) (dropBuf st)), ?_, hmap', ha.status,
    ha.closing, ?_, ?_⟩
  · have hok : ¬ (((dropBuf st).ssn.stream sd).send p.seq p.data.length).2 = false := by
      rw [hstream, hsend]; simp
    unfold decode decodeStream
    simp only [hsd, Packet.segment, Packet.call] at hok hmap' ⊢
    rw [if_neg hok, hmap']
    simp
  · rw [← hstream]; exact ha.stream
  · rw [← hstream]; exact ha.peer

/-- **A clean handshake opens the session.** -/
theorem run_handshake {src dst : Endpoint} {syn synack ack : Packet}
    (h : Handshake src dst syn synack ack) (ssnId : UInt64) :
    ∃ st, run (State.new src dst ssnId) [syn, synack, ack] = some st ∧
      Opened src syn.seq st.ssn := by
  obtain ⟨st₁, h₁, hmap₁, hst₁, hcl₁, hc₁, hs₁⟩ :=
    decode_move (State.new src dst ssnId) syn .client
      (by simp [Session.sideOf, State.new, Session.new, h.syn_src]) rfl rfl
      ⟨h.syn_flags, rfl⟩
  have hep₁ : st₁.ssn.client.endpoint = src := by
    rw [show st₁.ssn.client = _ from hc₁]
    rfl
  have hsend₁ : ((st₁.ssn.stream .server).send synack.seq synack.data.length).2 = true := by
    rw [show st₁.ssn.stream .server = _ from hs₁]
    rfl
  obtain ⟨st₂, h₂, hmap₂, hst₂, hcl₂, hs₂, hc₂⟩ :=
    decode_move st₁ synack .server
      (by simp [Session.sideOf, hep₁, h.synack_src, h.ne]) hmap₁ hsend₁ (by
        rw [Session.Moves, hst₁]
        exact ⟨h.synack_flags, rfl⟩)
  have hc₂' : st₂.ssn.client = (st₁.ssn.client).recv synack.ack synack.win := hc₂
  have hep₂ : st₂.ssn.client.endpoint = src := by rw [hc₂']; exact hep₁
  have hclient : st₂.ssn.client.hasBaseSeq = true ∧ st₂.ssn.client.baseSeq = syn.seq ∧
      st₂.ssn.client.nextSeq = 1 := by
    rw [hc₂', show st₁.ssn.client = _ from hc₁, h.syn_data]
    exact ⟨rfl, rfl, rfl⟩
  have hsend₂ : (st₂.ssn.client.send ack.seq ack.data.length)
      = ({ st₂.ssn.client with nextSeq := 1 }, true) := by
    have hseq : st₂.ssn.client.nextSeq = ack.seq - st₂.ssn.client.baseSeq := by
      rw [hclient.2.1, hclient.2.2, h.ack_seq, UInt32.add_comm, UInt32.add_sub_cancel]
    rw [Stream.send_of_eq hclient.1 hseq, hclient.2.2, h.ack_data]
    rfl
  obtain ⟨st₃, h₃, hmap₃, hst₃, hcl₃, hc₃, hs₃⟩ :=
    decode_move st₂ ack .client
      (by simp [Session.sideOf, hep₂, h.ack_src]) hmap₂ (by
        rw [show st₂.ssn.stream .client = st₂.ssn.client from rfl, hsend₂]) (by
        rw [Session.Moves, hst₂, hst₁]
        exact ⟨h.ack_flags, rfl⟩)
  have hc₃' : st₃.ssn.client = { st₂.ssn.client with nextSeq := 1 } := by
    rw [show st₃.ssn.client = _ from hc₃, hst₂, hst₁,
      show st₂.ssn.stream .client = st₂.ssn.client from rfl, hsend₂]
    rfl
  have hs₃' : st₃.ssn.server = st₂.ssn.server.recv ack.ack ack.win := hs₃
  have hbase : st₂.ssn.server.hasBaseSeq = true := by
    rw [show st₂.ssn.server = _ from hs₂, hst₁]
    rfl
  refine ⟨st₃, by simp [run, h₁, h₂, h₃], ?_⟩
  constructor
  · rw [hst₃, hst₂, hst₁]
    rfl
  · rw [hcl₃, hcl₂, hcl₁, hst₂, hst₁]
    rfl
  · exact hmap₃
  · rw [hc₃']
    exact hep₂
  · rw [hc₃']
    exact ⟨hclient.1, hclient.2.1⟩
  · rw [hc₃']
  · rw [hs₃']
    exact hbase

end PacketMachine.Tcp
