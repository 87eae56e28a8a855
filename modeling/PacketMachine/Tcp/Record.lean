import PacketMachine.Tcp.LifeCycle

/-!
# The record of a session is only written

`State.out` is what `Session::decode` does to the outside. No step looks at it, so a session that is
taken out of a table and put back has done, packet by packet, what it would have done in one run.

Results:
* **`decode_since`**, **`run_since`**: what a packet adds to the record, and what a run adds, do not
  depend on the record before.
-/

namespace PacketMachine.Tcp

/-- The same session, with `o` done before. -/
def State.since (o : List Eff) (st : State) : State := ⟨st.ssn, o ++ st.out⟩

section Since

variable {o : List Eff}

@[simp] theorem ssn_since (st : State) : (st.since o).ssn = st.ssn := rfl

theorem emit_since (st : State) (es : List Eff) : (st.since o).emit es = (st.emit es).since o := by
  simp [State.since, State.emit]

theorem setStream_since (st : State) (sd : Side) (x : Stream) :
    (st.since o).setStream sd x = (st.setStream sd x).since o := rfl

theorem transState_since (flags : UInt8) (sender : Side) (seq : UInt32) (n : Nat) (tv : Timeval)
    (st : State) : transState flags sender seq n tv (st.since o) =
      ((transState flags sender seq n tv st).1.since o,
        (transState flags sender seq n tv st).2) := by
  unfold transState
  rw [ssn_since]
  cases st.ssn.status <;> dsimp only <;> try rfl
  all_goals
    split
    · simp [State.since, State.setStatus, State.setBaseSeq, State.setStream, State.emit,
        State.incSeq]
    · rfl

theorem pushEvents_since (new : Status) (st : State) :
    pushEvents new (st.since o) = (pushEvents new st).since o := by
  unfold pushEvents
  split
  · exact emit_since _ _
  · split
    · exact emit_since _ _
    · rfl

theorem setData_since (data : List UInt8) (st : State) :
    setData data (st.since o) = (setData data st).since o := by
  unfold setData
  rw [ssn_since]
  cases st.ssn.buf with
  | none => exact emit_since _ _
  | some b => simp [State.since]

theorem accept_since (c : Call) (seg : Segment) (st : State) :
    accept c seg (st.since o) = (accept c seg st).since o := by
  unfold accept
  simp only [setStream_since, emit_since, ssn_since, transState_since, pushEvents_since,
    setData_since]

theorem takeChain_since (key : UInt32) (seg : Segment) (st : State) :
    takeChain key seg (st.since o) = (takeChain key seg st).since o := rfl

/-- A loop whose body does not look at the record. -/
theorem foldlM_since {α : Type} {f : State → α → Option State}
    (hf : ∀ s x, f (s.since o) x = (f s x).map (State.since o)) (xs : List α) (st : State) :
    xs.foldlM f (st.since o) = (xs.foldlM f st).map (State.since o) := by
  induction xs generalizing st with
  | nil => rfl
  | cons x xs ih =>
    rw [List.foldlM_cons, List.foldlM_cons, hf]
    cases f st x with
    | none => rfl
    | some s => exact ih s

theorem decodeStream_since (fuel : Nat) (c : Call) (seg : Segment) (st : State) :
    decodeStream fuel c seg (st.since o) = (decodeStream fuel c seg st).map (State.since o) := by
  induction fuel generalizing seg st with
  | zero => rfl
  | succ fuel ih =>
    rw [decodeStream, decodeStream]
    by_cases hs : ((st.ssn.stream c.sender).send seg.seq seg.data.length).2 = false
    · rw [if_pos hs]
      exact if_pos hs
    · rw [if_neg hs]
      refine (if_neg hs).trans ?_
      rw [accept_since]
      cases hm : (accept c seg st).ssn.segMap.lookup
          ((accept c seg st).ssn.stream c.sender).nextSeq with
      | none =>
        simp only [ssn_since, hm]
        rfl
      | some chain =>
        simp only [ssn_since, hm, takeChain_since]
        exact foldlM_since (f := fun s tgt => decodeStream fuel c tgt s) (fun s tgt => ih tgt s) _ _

/-- **What a packet does is independent of the record.** -/
theorem decode_since (st : State) (p : Packet) :
    decode (st.since o) p = (decode st p).map (State.since o) := by
  have hdrop : dropBuf (st.since o) = (dropBuf st).since o := rfl
  unfold decode
  simp only [ssn_since, hdrop, decodeStream_since, Option.map_map]
  refine congrArg (fun f => Option.map f _) ?_
  funext s
  exact emit_since s _

/-- **The same of a run.** -/
theorem run_since (st : State) (ps : List Packet) :
    run (st.since o) ps = (run st ps).map (State.since o) :=
  foldlM_since decode_since ps st

/-- A packet that a session is given when it is taken from a table. -/
theorem decode_resume {st r : State} {p : Packet} (h : decode ⟨st.ssn, []⟩ p = some r) :
    decode st p = some ⟨r.ssn, st.out ++ r.out⟩ := by
  have hst : State.since st.out ⟨st.ssn, []⟩ = st := by simp [State.since]
  have hs := decode_since (o := st.out) ⟨st.ssn, []⟩ p
  rwa [hst, h] at hs

end Since

end PacketMachine.Tcp
