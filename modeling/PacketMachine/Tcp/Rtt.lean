import PacketMachine.Tcp.LifeCycle

/-!
# The round trip time of a session

`trans_state` notes the time of the `SYN` in `ts_init_`, and at `ESTABLISHED` the time between the
two packets in `ts_rtt_` (`tcp.cc:276-331`); `TCP.rtt_3wh` is filled behind `TCP.established`. The
segment that establishes the session may be one that was stored earlier: the time is that of the
packet that is being processed.

Results:
* `timersub_micros`: the borrow of `timersub` does not show in microseconds.
* **`rtt_measured`**: `TCP.rtt_3wh` is filled exactly with `TCP.established`, with the microseconds
  from the client's first `SYN` to the packet that establishes the session.
-/

namespace PacketMachine.Tcp

open PacketMachine.Lib

/-- The values `TCP.rtt_3wh` was filled with. -/
def rtts (out : List Eff) : List UInt32 :=
  out.filterMap fun
    | .rtt3wh us => some us
    | _ => none

@[simp] theorem rtts_append (l l' : List Eff) : rtts (l ++ l') = rtts l ++ rtts l' :=
  List.filterMap_append

/-- A time in microseconds. -/
def Timeval.total (tv : Timeval) : Int := tv.sec * 1000000 + tv.usec

/-- **The borrow does not show.** -/
theorem timersub_micros (a b : Timeval) :
    (timersub a b).micros = UInt32.ofNat ((a.total - b.total) % 2 ^ 32).toNat := by
  have htotal : (timersub a b).total = a.total - b.total := by
    unfold timersub Timeval.total
    split <;> dsimp only <;> ring
  exact congrArg (fun n : Int => UInt32.ofNat (n % 2 ^ 32).toNat) htotal

/-! ## One segment -/

section Accept

variable {c : Call} {seg : Segment} {st : State}

/-- What was added to the record says of the round trip: it comes with `TCP.established`. -/
def Timed (us : UInt32) (es : List Eff) : Prop :=
  rtts es = List.replicate ((events es).count .established) us

theorem Timed.append {us : UInt32} {es es' : List Eff} (h : Timed us es) (h' : Timed us es') :
    Timed us (es ++ es') := by
  unfold Timed at h h' ⊢
  rw [rtts_append, events_append, List.count_append, List.replicate_add, h, h']

theorem timed_data (us : UInt32) (data : List UInt8) (st : State) : ∃ es,
    (setData data st).out = st.out ++ es ∧ Timed us es ∧
      (setData data st).ssn.tsInit = st.ssn.tsInit := by
  unfold setData
  cases st.ssn.buf with
  | none => exact ⟨_, rfl, rfl, rfl⟩
  | some b => exact ⟨_, rfl, rfl, rfl⟩

/-- `trans_state` with the events behind it. -/
theorem trans_clock (flags : UInt8) (sender : Side) (seq : UInt32) (n : Nat) (tv : Timeval)
    (st : State) : ∃ es,
      (pushEvents (transState flags sender seq n tv st).2
        (transState flags sender seq n tv st).1).out = st.out ++ es ∧
      Timed (timersub tv st.ssn.tsInit).micros es ∧
      (pushEvents (transState flags sender seq n tv st).2
        (transState flags sender seq n tv st).1).ssn.tsInit
        = if st.ssn.status = .none ∧ st.ssn.Moves flags sender then tv else st.ssn.tsInit := by
  by_cases hm : st.ssn.Moves flags sender
  · unfold Session.Moves at hm
    cases hs : st.ssn.status with
    | none =>
      rw [hs] at hm
      refine ⟨[.status .synSent, .baseSeq sender], ?_, rfl, ?_⟩
      · simp [transState, hs, hm, pushEvents, State.setStatus, State.setBaseSeq, State.setStream,
          State.emit]
      · cases sender <;> simp [transState, hs, hm, pushEvents, State.setStatus, State.setBaseSeq,
          State.setStream, State.emit, Session.setStream, Session.Moves]
    | synSent =>
      rw [hs] at hm
      refine ⟨[.status .synackSent, .baseSeq sender], ?_, rfl, ?_⟩ <;> cases sender <;>
        simp [transState, hs, hm, pushEvents, State.setStatus, State.setBaseSeq,
          State.setStream, State.emit, Session.setStream]
    | synackSent =>
      rw [hs] at hm
      refine ⟨[.status .established, .pushEvent .established,
        .rtt3wh (timersub tv st.ssn.tsInit).micros], ?_, rfl, ?_⟩ <;>
        simp [transState, hs, hm, pushEvents, State.setStatus, State.emit]
    | established =>
      rw [hs] at hm
      refine ⟨[.status .closing], ?_, rfl, ?_⟩ <;> cases sender <;>
        simp_all [transState, pushEvents, State.setStatus, State.incSeq,
          State.setStream, Session.setStream]
    | closing =>
      rw [hs] at hm
      refine ⟨[.status .closed, .pushEvent .closed], ?_, rfl, ?_⟩ <;> cases sender <;>
        simp_all [transState, pushEvents, State.setStatus, State.incSeq,
          State.setStream, State.emit, Session.setStream]
    | closed =>
      rw [hs] at hm
      exact hm.elim
  · rw [transState_of_not_moves hm]
    exact ⟨[], (List.append_nil _).symm, rfl, (if_neg fun h => hm h.2).symm⟩

/-- **An accepted segment**: the first `SYN` sets the clock. Behind it the clock stays, and
`TCP.rtt_3wh` is filled with the time since then. -/
theorem accept_clock (c : Call) (seg : Segment) (st : State) : ∃ es,
    (accept c seg st).out = st.out ++ es ∧ Timed (timersub c.tv st.ssn.tsInit).micros es ∧
      (accept c seg st).ssn.tsInit =
        if st.ssn.status = .none ∧ st.ssn.Moves seg.flags c.sender then c.tv
        else st.ssn.tsInit := by
  have hts : (sent c seg st).ssn.tsInit = st.ssn.tsInit := by
    cases hc : c.sender <;>
      simp [sent, State.setStream, State.emit, Session.setStream, hc, Side.peer]
  have hmoves : ((sent c seg st).ssn.status = .none ∧ (sent c seg st).ssn.Moves seg.flags c.sender)
      ↔ st.ssn.status = .none ∧ st.ssn.Moves seg.flags c.sender := by
    simp [Session.Moves, sent, State.setStream, State.emit]
  have hout : (sent c seg st).out = st.out ++ [.accepted c.sender seg] := rfl
  obtain ⟨es, ho, ht, hi⟩ := trans_clock seg.flags c.sender seg.seq seg.data.length c.tv
    (sent c seg st)
  obtain ⟨ds, hdo, hdt, hdi⟩ := timed_data (timersub c.tv st.ssn.tsInit).micros seg.data
    (pushEvents (transState seg.flags c.sender seg.seq seg.data.length c.tv (sent c seg st)).2
      (transState seg.flags c.sender seg.seq seg.data.length c.tv (sent c seg st)).1)
  rw [hts] at ht hi
  have hhead : Timed (timersub c.tv st.ssn.tsInit).micros [.accepted c.sender seg] := rfl
  refine ⟨[.accepted c.sender seg] ++ (es ++ ds), ?_, hhead.append (ht.append hdt), ?_⟩
  · refine hdo.trans ?_
    rw [ho, hout]
    simp
  · refine (hdi.trans hi).trans ?_
    simp only [hmoves]

end Accept

/-! ## One packet -/

section Packet

variable {st st' : State} {p : Packet}

/-- The job belongs to a packet with this time. -/
def Job.At (tv : Timeval) : Job → Prop
  | .deliver c _ => c.tv = tv
  | .drain c _ => c.tv = tv
  | .finish => True

/-- What holds while a packet of this time is processed, behind the first `SYN`. -/
structure SinceSyn (tv : Timeval) (st₀ : State) (c : Config) : Prop where
  jobs : ∀ j ∈ c.work, j.At tv
  out : ∃ es, c.st.out = st₀.out ++ es ∧ Timed (timersub tv st₀.ssn.tsInit).micros es
  tsInit : c.st.ssn.tsInit = st₀.ssn.tsInit
  status : c.st.ssn.status ≠ .none

/-- The record grows by entries that say nothing of the round trip. -/
theorem SinceSyn.next {tv : Timeval} {st₀ : State} {j : Job} {w new : List Job}
    (h : SinceSyn tv st₀ ⟨st, j :: w⟩) (hnew : ∀ j' ∈ new, j'.At tv) {es : List Eff}
    (hout : st'.out = st.out ++ es) (ht : Timed (timersub tv st₀.ssn.tsInit).micros es)
    (hts : st'.ssn.tsInit = st.ssn.tsInit) (hstatus : st'.ssn.status ≠ .none) :
    SinceSyn tv st₀ ⟨st', new ++ w⟩ := by
  obtain ⟨hjobs, ⟨es₀, hout₀, ht₀⟩, hts₀, -⟩ := h
  refine ⟨fun j' hj' => ?_, ⟨es₀ ++ es, ?_, ht₀.append ht⟩, hts.trans hts₀, hstatus⟩
  · exact (List.mem_append.mp hj').elim (hnew j') fun hj' => hjobs j' (List.mem_cons_of_mem _ hj')
  · exact hout.trans (by rw [hout₀, List.append_assoc])

theorem sinceSyn_perform {tv : Timeval} {st₀ : State} {j : Job} {w : List Job}
    (h : SinceSyn tv st₀ ⟨st, j :: w⟩) :
    SinceSyn tv st₀ ⟨(j.perform st).1, (j.perform st).2 ++ w⟩ := by
  have hj : j.At tv := h.jobs j List.mem_cons_self
  have hrank : (j.perform st).1.ssn.status ≠ .none := by
    have hle := (grows_perform st j).rank
    have hs := h.status
    intro he
    rw [he] at hle
    cases hst : st.ssn.status <;> simp_all [Status.rank]
  have hnil : st.out = st.out ++ [] := (List.append_nil _).symm
  refine perform_cases st j (Q := fun st' new => st'.ssn.status ≠ .none →
    SinceSyn tv st₀ ⟨st', new ++ w⟩) ?_ ?_ ?_ ?_ ?_ hrank
  · rintro c seg rfl - hs
    exact h.next nofun hnil rfl rfl hs
  · rintro c seg rfl - hs
    obtain ⟨es, hout, ht, hts⟩ := accept_clock c seg st
    rw [if_neg fun hn => h.status hn.1] at hts
    rw [show c.tv = tv from hj, h.tsInit] at ht
    exact h.next (List.forall_mem_singleton.mpr hj) hout ht hts hs
  · rintro c seg rfl - hs
    exact h.next nofun hnil rfl rfl hs
  · rintro c seg chain rfl - hs
    refine h.next (List.forall_mem_map.mpr fun _ _ => hj) hnil rfl rfl hs
  · rintro rfl hs
    exact h.next nofun rfl rfl rfl hs

/-- Behind the first `SYN` the clock stays, and `TCP.rtt_3wh` is filled with the time since then. -/
theorem decode_clock (hs : st.ssn.status ≠ .none) (h : decode st p = some st') : ∃ es,
    st'.out = st.out ++ es ∧ Timed (timersub p.tv st.ssn.tsInit).micros es ∧
      st'.ssn.tsInit = st.ssn.tsInit ∧ st'.ssn.status ≠ .none := by
  have hstart : SinceSyn p.tv st ⟨dropBuf st, st.jobs p⟩ := by
    refine ⟨?_, ⟨[], (List.append_nil _).symm, rfl⟩, rfl, hs⟩
    simp [State.jobs, Job.At, Packet.call]
  obtain ⟨-, ⟨es, hout, ht⟩, hts, hstatus⟩ :=
    (works_decode h).keeps (fun _ _ _ => sinceSyn_perform) hstart
  exact ⟨es, hout, ht, hts, hstatus⟩

/-- Before its first `SYN` a session has stored nothing and takes everything. -/
structure Session.Untouched (s : Session) : Prop where
  status : s.status = .none
  segMap : s.segMap = ∅
  base : ∀ sd, (s.stream sd).hasBaseSeq = false

/-- The client's `SYN`. -/
def Packet.IsSyn (p : Packet) (client : Endpoint) : Prop := p.src = client ∧ p.flags = SYN

theorem Session.Untouched.send {s : Session} (h : s.Untouched) (sd : Side) (seq : UInt32)
    (n : Nat) :
    (s.stream sd).send seq n = (s.stream sd, true) := by
  unfold Stream.send
  exact if_pos (h.base sd)

theorem Session.Untouched.moves_iff {s : Session} (h : s.Untouched) (p : Packet) :
    s.Moves p.flags (s.sideOf p) ↔ p.IsSyn s.client.endpoint := by
  unfold Session.Moves Packet.IsSyn Session.sideOf
  rw [h.status]
  constructor
  · rintro ⟨hf, hs⟩
    split at hs
    · rename_i he
      exact ⟨he.symm, hf⟩
    · cases hs
  · rintro ⟨hs, hf⟩
    exact ⟨hf, if_pos hs.symm⟩

/-- The packet is accepted, and nothing else happens. -/
theorem Session.Untouched.decode_eq (hs : st.ssn.Untouched) {sd : Side}
    (hsd : st.ssn.sideOf p = sd) :
    decode st p = some (txCounters (accept (p.call sd) (p.segment sd) (dropBuf st))) := by
  have hsend : ¬ (((dropBuf st).ssn.stream sd).send p.seq p.data.length).2 = false := by
    have hstream : (dropBuf st).ssn.stream sd = st.ssn.stream sd := by
      cases sd <;> rfl
    rw [hstream, hs.send]
    simp
  have hmap : (accept (p.call sd) (p.segment sd) (dropBuf st)).ssn.segMap = ∅ := by
    rw [accept_segMap]
    exact hs.segMap
  unfold decode decodeStream
  simp only [hsd, Packet.segment, Packet.call] at hsend hmap ⊢
  rw [if_neg hsend, hmap]
  simp

/-- **The first packets**: a `SYN` of the client starts the clock, the others leave no trace. -/
theorem decode_untouched (hs : st.ssn.Untouched) (h : decode st p = some st') :
    (∃ es, st'.out = st.out ++ es ∧ rtts es = [] ∧ events es = []) ∧
      (p.IsSyn st.ssn.client.endpoint → st'.ssn.status ≠ .none ∧ st'.ssn.tsInit = p.tv) ∧
      (¬ p.IsSyn st.ssn.client.endpoint → st'.ssn.Untouched) := by
  obtain ⟨sd, hsd⟩ : ∃ sd, st.ssn.sideOf p = sd := ⟨_, rfl⟩
  obtain rfl := Option.some.inj ((hs.decode_eq hsd).symm.trans h)
  have hdrop : (dropBuf st).ssn.Untouched := ⟨hs.status, hs.segMap, fun sd => by
    rw [← hs.base sd]
    cases sd <;> rfl⟩
  have hmoves : (dropBuf st).ssn.Moves p.flags sd ↔ p.IsSyn st.ssn.client.endpoint :=
    hsd ▸ hs.moves_iff p
  obtain ⟨-, -, -, hts⟩ := accept_clock (p.call sd) (p.segment sd) (dropBuf st)
  have hquiet : ∀ {a : State} {es : List Eff}, a.out = st.out ++ es → rtts es = [] →
      events es = [] → ∃ es, (txCounters a).out = st.out ++ es ∧ rtts es = [] ∧ events es = [] := by
    intro a es ha hr he
    refine ⟨es ++ [.txServer a.ssn.client.txSize.toUInt32,
      .txClient a.ssn.server.txSize.toUInt32], ?_, ?_, ?_⟩
    · exact (congrArg (· ++ _) ha).trans (List.append_assoc _ _ _)
    · rw [rtts_append, hr]
      rfl
    · rw [events_append, he]
      rfl
  by_cases hsyn : p.IsSyn st.ssn.client.endpoint
  · obtain ⟨us, ha⟩ : ∃ us, Accepted (p.call sd) (p.segment sd) (dropBuf st) _ _ _ _
        (_ ++ Status.moveEvents us _) := accept_move (hmoves.mpr hsyn)
    rw [hdrop.status] at ha
    rw [if_pos ⟨hdrop.status, hmoves.mpr hsyn⟩] at hts
    obtain ⟨ref, hout⟩ := ha.out
    refine ⟨hquiet hout rfl rfl, fun _ => ⟨fun he => ?_, hts⟩, absurd hsyn⟩
    exact nomatch ha.status.symm.trans he
  · have ha : Accepted (p.call sd) (p.segment sd) (dropBuf st) _ _ _ _ _ :=
      accept_stay (mt hmoves.mp hsyn)
    obtain ⟨ref, hout⟩ := ha.out
    refine ⟨hquiet hout rfl rfl, fun h => absurd h hsyn, fun _ => ⟨?_, ?_, fun sd' => ?_⟩⟩
    · exact ha.status.trans hdrop.status
    · exact ha.segMap.trans hdrop.segMap
    · by_cases hd : sd' = sd
      · subst hd
        have hx := ha.stream
        rw [Packet.call, Packet.segment, hdrop.send] at hx
        exact (congrArg Stream.hasBaseSeq hx).trans (hdrop.base sd')
      · obtain rfl := Side.eq_peer_of_ne hd
        exact (congrArg Stream.hasBaseSeq ha.peer).trans (hdrop.base sd.peer)

end Packet

/-! ## The run -/

/-- The first `SYN` of the client among the packets. -/
structure FirstSyn (client : Endpoint) (ps : List Packet) (i : Nat) (syn : Packet) : Prop where
  get : ps[i]? = some syn
  isSyn : syn.IsSyn client
  first : ∀ j < i, ∀ p, ps[j]? = some p → ¬ p.IsSyn client

section Run

variable {src dst : Endpoint} {ssnId : UInt64} {ps : List Packet} {st : State}

/-- The clock of a session that has seen these packets. -/
inductive ClockAt (client : Endpoint) (ps : List Packet) (s : Session) : Prop
  | untouched (h : s.Untouched) (none : ∀ p ∈ ps, ¬ p.IsSyn client)
  | running {i : Nat} {syn : Packet} (h : s.status ≠ .none) (first : FirstSyn client ps i syn)
    (tsInit : s.tsInit = syn.tv)

theorem run_snoc (st : State) (ps : List Packet) (p : Packet) :
    run st (ps ++ [p]) = (run st ps).bind fun st => decode st p := by
  unfold run
  rw [List.foldlM_append]
  refine congrArg (Option.bind _) ?_
  funext r
  exact bind_pure _

theorem run_client (h : run (.new src dst ssnId) ps = some st) :
    st.ssn.client.endpoint = src := by
  refine run_induct (P := fun _ => True) (J := fun _ c => c.st.ssn.client.endpoint = src)
    (fun _ _ => trivial) rfl (fun _ _ _ _ _ h => h) ?_ h
  intro _ st j w _ h
  refine perform_cases st j (Q := fun st' _ => st'.ssn.client.endpoint = src) ?_ ?_ ?_ ?_ ?_
  · exact fun _ _ _ _ => h
  · exact fun c seg _ _ => (accept_endpoint c seg st .client).trans h
  · exact fun _ _ _ _ => h
  · exact fun _ _ _ _ _ => h
  · exact fun _ => h

theorem FirstSyn.append {i : Nat} {syn : Packet} (h : FirstSyn src ps i syn) (p : Packet) :
    FirstSyn src (ps ++ [p]) i syn := by
  have hi : i < ps.length := (List.getElem?_eq_some_iff.mp h.get).1
  refine ⟨(List.getElem?_append_left hi).trans h.get, h.isSyn, fun j hj q hq => ?_⟩
  rw [List.getElem?_append_left (hj.trans hi)] at hq
  exact h.first j hj q hq

theorem firstSyn_last (hnone : ∀ p ∈ ps, ¬ p.IsSyn src) {p : Packet} (hp : p.IsSyn src) :
    FirstSyn src (ps ++ [p]) ps.length p := by
  refine ⟨List.getElem?_concat_length, hp, fun j hj q hq => ?_⟩
  rw [List.getElem?_append_left hj] at hq
  exact hnone q (List.mem_of_getElem? hq)

/-- **The clock of every session**: it is started by the first `SYN`. -/
theorem run_clockAt (h : run (.new src dst ssnId) ps = some st) : ClockAt src ps st.ssn := by
  induction ps using List.reverseRecOn generalizing st with
  | nil =>
    obtain rfl := Option.some.inj h
    exact .untouched ⟨rfl, rfl, fun sd => by cases sd <;> rfl⟩ (by simp)
  | append_singleton ps p ih =>
    rw [run_snoc] at h
    obtain ⟨a, ha, hp⟩ := Option.bind_eq_some_iff.mp h
    have hclient := run_client ha
    cases ih ha with
    | untouched hs hnone =>
      obtain ⟨-, hsyn, hother⟩ := decode_untouched hs hp
      rw [hclient] at hsyn hother
      by_cases hp : p.IsSyn src
      · exact .running (hsyn hp).1 (firstSyn_last hnone hp) (hsyn hp).2
      · exact .untouched (hother hp) (by simpa [or_imp, forall_and] using ⟨hnone, hp⟩)
    | running hs hfirst hts =>
      obtain ⟨-, -, -, hts', hs'⟩ := decode_clock hs hp
      exact .running hs' (hfirst.append p) (hts'.trans hts)

/-- The packet `ps[j]` has established the session, and the value is the time since the first
`SYN`. -/
structure MeasuredAt (client : Endpoint) (st₀ : State) (ps : List Packet) (us : UInt32)
    (i j : Nat) (syn p : Packet) (a b : State) : Prop where
  first : FirstSyn client ps i syn
  get : ps[j]? = some p
  lt : i < j
  before : run st₀ (ps.take j) = some a
  packet : decode a p = some b
  not_yet : .established ∉ events a.out
  established : .established ∈ events b.out
  value : us = UInt32.ofNat ((p.tv.total - syn.tv.total) % 2 ^ 32).toNat

theorem MeasuredAt.append {st₀ : State} {us : UInt32} {i j : Nat} {syn p : Packet} {a b : State}
    (h : MeasuredAt src st₀ ps us i j syn p a b) (q : Packet) :
    MeasuredAt src st₀ (ps ++ [q]) us i j syn p a b := by
  have hj : j < ps.length := (List.getElem?_eq_some_iff.mp h.get).1
  refine { h with first := h.first.append q, get := ?_, before := ?_ }
  · exact (List.getElem?_append_left hj).trans h.get
  · rw [List.take_append_of_le_length (Nat.le_of_lt hj)]
    exact h.before

theorem count_established (h : run (.new src dst ssnId) ps = some st) :
    (events st.out).count .established ≤ 1 := by
  obtain ⟨l, hl⟩ := (lifeCycle_of_marks (marks_run h)).events
  have hcount := congrArg (List.count .established) hl
  rw [List.count_append] at hcount
  have htwo : [Event.established, .closed].count .established = 1 := by decide
  omega

/-- **The round trip time.** Over the whole life of a session `TCP.rtt_3wh` is filled as often as
`TCP.established` is pushed, so once at most; and its value is the time, in microseconds modulo
`2^32`, from the first `SYN` of the client to the packet that has established the session. -/
theorem rtt_measured (h : run (.new src dst ssnId) ps = some st) :
    (rtts st.out).length = (events st.out).count .established ∧
      (rtts st.out).length ≤ 1 ∧
      ∀ us ∈ rtts st.out, ∃ i j syn p a b,
        MeasuredAt src (.new src dst ssnId) ps us i j syn p a b := by
  have hlength : (rtts st.out).length = (events st.out).count .established ∧
      ∀ us ∈ rtts st.out, ∃ i j syn p a b,
        MeasuredAt src (.new src dst ssnId) ps us i j syn p a b := by
    induction ps using List.reverseRecOn generalizing st with
    | nil =>
      obtain rfl := Option.some.inj h
      exact ⟨rfl, nofun⟩
    | append_singleton ps p ih =>
      have hle := count_established h
      rw [run_snoc] at h
      obtain ⟨a, ha, hp⟩ := Option.bind_eq_some_iff.mp h
      obtain ⟨hlen, hvalues⟩ := ih ha
      have hearlier : ∀ us ∈ rtts a.out, ∃ i j syn q b c,
          MeasuredAt src (.new src dst ssnId) (ps ++ [p]) us i j syn q b c := by
        intro us hus
        obtain ⟨i, j, syn, q, b, c, hm⟩ := hvalues us hus
        exact ⟨i, j, syn, q, b, c, hm.append p⟩
      cases run_clockAt ha with
      | untouched hs hnone =>
        obtain ⟨⟨es, hout, hr, he⟩, -⟩ := decode_untouched hs hp
        rw [hout, rtts_append, events_append, hr, he, List.append_nil, List.append_nil]
        exact ⟨hlen, hearlier⟩
      | @running i syn hs hfirst hts =>
        obtain ⟨es, hout, ht, -⟩ := decode_clock hs hp
        rw [hout, events_append, List.count_append] at hle
        rw [hout, rtts_append, events_append, List.length_append, List.count_append, hlen, ht,
          List.length_replicate]
        refine ⟨rfl, fun us hus => ?_⟩
        rcases List.mem_append.mp hus with hus | hus
        · exact hearlier us hus
        · -- the packet has established the session
          obtain ⟨hne, rfl⟩ := List.mem_replicate.mp hus
          have hnot : (events a.out).count .established = 0 := by omega
          refine ⟨i, ps.length, syn, p, a, st, hfirst.append p, List.getElem?_concat_length,
            (List.getElem?_eq_some_iff.mp hfirst.get).1, ?_, hp, List.count_eq_zero.mp hnot, ?_, ?_⟩
          · rw [List.take_left]
            exact ha
          · rw [hout, events_append]
            exact List.mem_append_right _ (List.count_pos_iff.mp (Nat.pos_of_ne_zero hne))
          · rw [hts, timersub_micros]
  exact ⟨hlength.1, hlength.1 ▸ count_established h, hlength.2⟩

end Run

/-- A handshake that takes half a second. -/
def halfSecond : List Packet :=
  [⟨⟨[10, 0, 0, 1], 40000⟩, SYN, 100, 0, [], 0, ⟨10, 900000⟩⟩,
    ⟨⟨[10, 0, 0, 2], 80⟩, SYN ||| ACK, 500, 101, [], 0, ⟨11, 0⟩⟩,
    ⟨⟨[10, 0, 0, 1], 40000⟩, ACK, 101, 501, [], 0, ⟨11, 400000⟩⟩]

theorem rtt_measured_halfSecond :
    ∃ st, run (.new ⟨[10, 0, 0, 1], 40000⟩ ⟨[10, 0, 0, 2], 80⟩ 1) halfSecond = some st ∧
      rtts st.out = [500000] ∧ ∃ i j syn p a b, MeasuredAt ⟨[10, 0, 0, 1], 40000⟩
        (.new ⟨[10, 0, 0, 1], 40000⟩ ⟨[10, 0, 0, 2], 80⟩ 1) halfSecond 500000 i j syn p a b := by
  have h : (run (.new ⟨[10, 0, 0, 1], 40000⟩ ⟨[10, 0, 0, 2], 80⟩ 1) halfSecond).map
      (fun st => rtts st.out) = some [500000] := by decide
  obtain ⟨st, hst, hr⟩ := Option.map_eq_some_iff.mp h
  exact ⟨st, hst, hr, (rtt_measured hst).2.2 500000 (by simp [hr])⟩

end PacketMachine.Tcp
