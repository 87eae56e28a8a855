import PacketMachine.Tcp.LifeCycle

/-!
# No segment is lost or doubled

`decode_stream` moves segments: from the packet into `seg_map_`, out of `seg_map_` in whole chains,
back into it one by one under other keys, and to `Stream::send`, which accepts them. Over the work
list of `Replay`, the segments of a configuration are those stored, those accepted since a given
moment, and those that are still to be delivered. A job moves segments from one of these places to
another, so that their multiset stays.

Results:
* `perform_segments`: one job keeps the segments of a configuration.
* **`segments_conserved`**: `decode` returns, and what is stored afterwards together with what was
  accepted is what was stored before together with the segment of the packet.
-/

namespace PacketMachine.Tcp

open PacketMachine.Lib

/-- What `decode_stream` is given of a segment. -/
def Segment.content (seg : Segment) : UInt32 × UInt8 × List UInt8 := (seg.seq, seg.flags, seg.data)

/-! ## The stored segments -/

section Store

variable (m : SegMap) (k : UInt32) (seg : Segment)

/-- The segments of all the chains. -/
def SegMap.segments : Multiset Segment := (m.entries.map fun e => (e.2 : Multiset Segment)).sum

/-- A chain leaves with its segments. -/
theorem SegMap.segments_erase : SegMap.segments (m.erase k) + m.chain k = m.segments := by
  suffices h : ∀ l : List (Sigma fun _ : UInt32 => List Segment), l.NodupKeys →
      ((l.kerase k).map fun e => (e.2 : Multiset Segment)).sum
          + (((l.dlookup k).getD [] : List Segment) : Multiset Segment)
        = (l.map fun e => (e.2 : Multiset Segment)).sum from h m.entries m.nodupKeys
  intro l
  induction l with
  | nil => intro _; rfl
  | cons e l ih =>
    intro hnd
    obtain ⟨k₁, v⟩ := e
    rw [List.nodupKeys_cons] at hnd
    by_cases hk : k = k₁
    · subst hk
      simp [List.kerase_cons_eq, add_comm]
    · rw [List.kerase_cons_ne hk, List.dlookup_cons_ne _ _ hk]
      simp only [List.map_cons, List.sum_cons]
      rw [add_assoc, ih hnd.2]

theorem SegMap.segments_insert (chain : List Segment) :
    SegMap.segments (m.insert k chain) = chain + SegMap.segments (m.erase k) := by
  simp [SegMap.segments, AList.entries_insert, AList.erase]

/-- A stored segment is added, whatever chain it is appended to. -/
theorem SegMap.segments_store : (m.store k seg).segments = m.segments + {seg} := by
  have hchain : m.store k seg = m.insert k (m.chain k ++ [seg]) := by
    unfold SegMap.store SegMap.chain
    cases h : m.lookup k <;> rfl
  rw [hchain, SegMap.segments_insert, ← m.segments_erase k, ← Multiset.coe_add,
    Multiset.coe_singleton]
  abel

end Store

/-! ## The segments of a configuration -/

/-- The segments that a job will deliver. -/
def Job.segments : Job → Multiset Segment
  | deliver _ seg => {seg}
  | drain _ _ => 0
  | finish => 0

/-- The segments of a work list. -/
def pending (work : List Job) : Multiset Segment := (work.map Job.segments).sum

@[simp] theorem pending_nil : pending [] = 0 := rfl

@[simp] theorem pending_cons (j : Job) (work : List Job) :
    pending (j :: work) = j.segments + pending work := rfl

@[simp] theorem pending_append (work work' : List Job) :
    pending (work ++ work') = pending work + pending work' := by
  simp [pending]

@[simp] theorem pending_deliver (c : Call) (chain : List Segment) :
    pending (chain.map (.deliver c)) = chain := by
  induction chain with
  | nil => rfl
  | cons seg chain ih =>
    rw [List.map_cons, pending_cons, ih, Job.segments, Multiset.singleton_add, Multiset.cons_coe]

/-- The segments of the acceptances in a record. -/
def acceptedSegments (out : List Eff) : Multiset Segment := (acceptedLog out).map Prod.snd

theorem acceptedSegments_accept (c : Call) (seg : Segment) (st : State) :
    acceptedSegments (accept c seg st).out = acceptedSegments st.out + {seg} := by
  simp [acceptedSegments, acceptedLog_accept, ← Multiset.coe_add]

/-- Everything that is stored, was accepted or waits. -/
def Config.segments (cfg : Config) : Multiset Segment :=
  cfg.st.ssn.segMap.segments + acceptedSegments cfg.st.out + pending cfg.work

/-- **A job keeps the segments.** -/
theorem perform_segments (st : State) (j : Job) (w : List Job) :
    Config.segments ⟨(j.perform st).1, (j.perform st).2 ++ w⟩ = Config.segments ⟨st, j :: w⟩ := by
  refine perform_cases st j (Q := fun st' new =>
    Config.segments ⟨st', new ++ w⟩ = Config.segments ⟨st, j :: w⟩) ?_ ?_ ?_ ?_ ?_
  · rintro c seg rfl -
    -- refused: from the work list to the store
    simp only [Config.segments, keep, Stream.inWindow, if_true, SegMap.segments_store, pending_cons,
      Job.segments, List.nil_append]
    abel
  · rintro c seg rfl -
    -- accepted: from the work list to the record
    simp only [Config.segments, accept_segMap, acceptedSegments_accept, pending_cons,
      pending_append, pending_nil, Job.segments]
    abel
  · rintro c seg rfl -
    simp [Config.segments, Job.segments]
  · rintro c seg chain rfl hl
    -- a chain: from the store to the work list
    have herase := st.ssn.segMap.segments_erase (st.ssn.stream c.sender).nextSeq
    rw [SegMap.chain, hl, Option.getD_some] at herase
    simp only [Config.segments, takeChain, pending_append, pending_deliver, pending_cons,
      Job.segments, ← herase]
    abel
  · rintro rfl
    have hout : acceptedSegments (txCounters st).out = acceptedSegments st.out := by
      simp [acceptedSegments, acceptedLog, txCounters, State.emit]
    simp only [Config.segments, hout, pending_cons, Job.segments, List.nil_append, zero_add]
    rfl

/-- So does all the work for a packet. -/
theorem Works.segments {cfg cfg' : Config} (h : Works cfg cfg') : cfg'.segments = cfg.segments :=
  h.keeps (I := fun c => c.segments = cfg.segments)
    (fun st j w hi => (perform_segments st j w).trans hi) rfl

/-! ## One packet -/

/-- The record only grows, so what was accepted during a call is what it has gained. -/
theorem acceptedLog_decode {st st' : State} {p : Packet} (h : decode st p = some st') :
    ∃ acc, acceptedLog st'.out = acceptedLog st.out ++ acc := by
  have hrun : run st [p] = some st' := by simpa [run] using h
  obtain ⟨⟨es, hes⟩, -⟩ := grows_run hrun
  exact ⟨acceptedLog es, by rw [hes, acceptedLog, List.filterMap_append]; rfl⟩

/-- **`decode` terminates and conserves segments**, in every state of a session and for every
packet: the stored segments afterwards and the accepted ones are the stored segments before and the
new one. -/
theorem segments_conserved (st : State) (p : Packet) :
    ∃ st' acc, decode st p = some st' ∧ acceptedLog st'.out = acceptedLog st.out ++ acc ∧
      st'.ssn.segMap.segments.map Segment.content
          + (acc.map fun a => a.2.content : Multiset _)
        = st.ssn.segMap.segments.map Segment.content + {(p.seq, p.flags, p.data)} := by
  obtain ⟨st', h⟩ := decode_isSome st p
  obtain ⟨acc, hacc⟩ := acceptedLog_decode h
  refine ⟨st', acc, h, hacc, ?_⟩
  have hkeep := (works_decode h).segments
  simp only [Config.segments, State.jobs, pending_cons, pending_nil, Job.segments, dropBuf,
    acceptedSegments, hacc, List.map_append, ← Multiset.coe_add] at hkeep
  have hsplit : st'.ssn.segMap.segments + (acc.map Prod.snd : Multiset Segment)
      = st.ssn.segMap.segments + {p.segment (st.ssn.sideOf p)} := by
    refine add_left_cancel (a := ((acceptedLog st.out).map Prod.snd : Multiset Segment)) ?_
    simp only [add_zero] at hkeep
    calc _ = _ := by abel
      _ = _ := hkeep
      _ = _ := by abel
  have hcontent := congrArg (Multiset.map Segment.content) hsplit
  simpa [Segment.content, Packet.segment, Function.comp_def] using hcontent

end PacketMachine.Tcp
