import PacketMachine.Lib.Run
import PacketMachine.Tcp.Session

/-!
# The replay of stored segments as a machine with a work list

`decode_stream` calls itself on the stored segments that have become contiguous, inside a loop over
a chain, and each of these calls may store, take and replay further segments. Here the pending calls
are a work list (`Job`), so that one step does one thing: take a packet, deliver one segment, look up
one key of `seg_map_`. A property of `decode_stream` is then proved for one step.

Results:
* `exec_run`: a run of `decode` over packets is a run of the machine.
* **`run_induct`**: what every step keeps holds at the end of every run of `decode`. The steps may
  use a property `P` of the configurations that the run visits.
* `run_eq_of_exec`: conversely, a run of the machine that has done all its work is the run of
  `decode` over its packets.
-/

namespace PacketMachine.Tcp

open PacketMachine.Lib

/-- A pending piece of `decode`. -/
inductive Job where
  /-- Call `decode_stream` on a segment. -/
  | deliver (c : Call) (seg : Segment)
  /-- Look up `sender->next_seq()` in `seg_map_`, after `seg` was accepted. -/
  | drain (c : Call) (seg : Segment)
  /-- Fill the transfer counters. -/
  | finish

/-- A state with the work that is left, the next job first. -/
structure Config where
  st : State
  work : List Job

/-- Does one job: the state afterwards, and the jobs it leaves. -/
def Job.perform (st : State) : Job → State × List Job
  | deliver c seg =>
    if ((st.ssn.stream c.sender).send seg.seq seg.data.length).2 = false then (keep c seg st, [])
    else (accept c seg st, [drain c seg])
  | drain c seg =>
    let key := (st.ssn.stream c.sender).nextSeq
    match st.ssn.segMap.lookup key with
    | .none => (st, [])
    | some chain => (takeChain key seg st, chain.map (deliver c))
  | finish => (txCounters st, [])

theorem perform_deliver_refused {st : State} {c : Call} {seg : Segment}
    (h : ((st.ssn.stream c.sender).send seg.seq seg.data.length).2 = false) :
    (Job.deliver c seg).perform st = (keep c seg st, []) :=
  if_pos h

theorem perform_deliver_accepted {st : State} {c : Call} {seg : Segment}
    (h : ¬ ((st.ssn.stream c.sender).send seg.seq seg.data.length).2 = false) :
    (Job.deliver c seg).perform st = (accept c seg st, [.drain c seg]) :=
  if_neg h

theorem perform_drain_none {st : State} {c : Call} {seg : Segment}
    (h : st.ssn.segMap.lookup (st.ssn.stream c.sender).nextSeq = none) :
    (Job.drain c seg).perform st = (st, []) := by
  simp only [Job.perform, h]

theorem perform_drain_some {st : State} {c : Call} {seg : Segment} {chain : List Segment}
    (h : st.ssn.segMap.lookup (st.ssn.stream c.sender).nextSeq = some chain) :
    (Job.drain c seg).perform st
      = (takeChain (st.ssn.stream c.sender).nextSeq seg st, chain.map (.deliver c)) := by
  simp only [Job.perform, h]

/-- Everything a job can do. -/
theorem perform_cases (st : State) (j : Job) {Q : State → List Job → Prop}
    (refused : ∀ c seg, j = .deliver c seg →
      ((st.ssn.stream c.sender).send seg.seq seg.data.length).2 = false → Q (keep c seg st) [])
    (accepted : ∀ c seg, j = .deliver c seg →
      ((st.ssn.stream c.sender).send seg.seq seg.data.length).2 = true →
      Q (accept c seg st) [.drain c seg])
    (absent : ∀ c seg, j = .drain c seg →
      st.ssn.segMap.lookup (st.ssn.stream c.sender).nextSeq = none → Q st [])
    (taken : ∀ c seg chain, j = .drain c seg →
      st.ssn.segMap.lookup (st.ssn.stream c.sender).nextSeq = some chain →
      Q (takeChain (st.ssn.stream c.sender).nextSeq seg st) (chain.map (.deliver c)))
    (finish : j = .finish → Q (txCounters st) []) : Q (j.perform st).1 (j.perform st).2 := by
  cases j with
  | deliver c seg =>
    by_cases h : ((st.ssn.stream c.sender).send seg.seq seg.data.length).2 = false
    · rw [perform_deliver_refused h]
      exact refused c seg rfl h
    · rw [perform_deliver_accepted h]
      exact accepted c seg rfl (by simpa using h)
  | drain c seg =>
    cases h : st.ssn.segMap.lookup (st.ssn.stream c.sender).nextSeq with
    | none =>
      rw [perform_drain_none h]
      exact absent c seg rfl h
    | some chain =>
      rw [perform_drain_some h]
      exact taken c seg chain rfl h
  | finish => exact finish rfl

/-- A step takes the next packet, or does the next job. -/
inductive Label where
  | packet (p : Packet)
  | work

/-- The jobs of a packet. -/
def State.jobs (st : State) (p : Packet) : List Job :=
  [.deliver (p.call (st.ssn.sideOf p)) (p.segment (st.ssn.sideOf p)), .finish]

/-- The machine. A packet is taken when nothing is left of the one before. -/
def step : Config → Label → Option Config
  | ⟨st, []⟩, .packet p => some ⟨dropBuf st, st.jobs p⟩
  | ⟨st, j :: w⟩, .work => some ⟨(j.perform st).1, (j.perform st).2 ++ w⟩
  | _, _ => none

/-- The packets a run has taken. -/
def packetsOf (tr : List Label) : List Packet :=
  tr.filterMap fun
    | .packet p => some p
    | .work => none

@[simp] theorem packetsOf_append (tr tr' : List Label) :
    packetsOf (tr ++ tr') = packetsOf tr ++ packetsOf tr' :=
  List.filterMap_append

@[simp] theorem packetsOf_packet (p : Packet) (tr : List Label) :
    packetsOf (.packet p :: tr) = p :: packetsOf tr := rfl

@[simp] theorem packetsOf_replicate_work (n : Nat) : packetsOf (List.replicate n .work) = [] := by
  simp [packetsOf]

/-! ## `decode` is a run of the machine -/

/-- From the first configuration, work alone leads to the second. -/
def Works (c c' : Config) : Prop := ∃ n, exec step c (List.replicate n .work) = some c'

theorem Works.refl (c : Config) : Works c c := ⟨0, rfl⟩

theorem Works.trans {a b c : Config} (hab : Works a b) (hbc : Works b c) : Works a c := by
  obtain ⟨n, hn⟩ := hab
  obtain ⟨m, hm⟩ := hbc
  exact ⟨n + m, by rw [List.replicate_add, exec_append, hn, Option.bind_some, hm]⟩

theorem Works.one {st : State} {j : Job} {w : List Job} {st' : State} {new : List Job}
    (h : j.perform st = (st', new)) : Works ⟨st, j :: w⟩ ⟨st', new ++ w⟩ :=
  ⟨1, by simp [exec, step, h]⟩

/-- What every job keeps is kept by all the work. -/
theorem Works.keeps {I : Config → Prop} {c c' : Config} (h : Works c c')
    (hstep : ∀ st j w, I ⟨st, j :: w⟩ → I ⟨(j.perform st).1, (j.perform st).2 ++ w⟩) (h0 : I c) :
    I c' := by
  obtain ⟨n, hn⟩ := h
  induction n generalizing c with
  | zero =>
    obtain rfl := Option.some.inj hn
    exact h0
  | succ n ih =>
    obtain ⟨st, work⟩ := c
    cases work with
    | nil => cases hn
    | cons j w => exact ih (hstep st j w h0) hn

theorem works_decodeStream (c : Call) :
    ∀ (fuel : Nat) (seg : Segment) {st st' : State} (w : List Job),
      decodeStream fuel c seg st = some st' → Works ⟨st, .deliver c seg :: w⟩ ⟨st', w⟩
  | 0, _, _, _, _, h => by simp [decodeStream] at h
  | fuel + 1, seg, st, st', w, h => by
    have hchain : ∀ (chain : List Segment) {st st' : State},
        chain.foldlM (fun st tgt => decodeStream fuel c tgt st) st = some st' →
        Works ⟨st, chain.map (.deliver c) ++ w⟩ ⟨st', w⟩ := by
      intro chain
      induction chain with
      | nil =>
        intro st st' h
        obtain rfl : st = st' := by simpa using h
        exact .refl _
      | cons tgt chain ih =>
        intro st st' h
        rw [List.foldlM_cons] at h
        obtain ⟨st₁, h₁, h₂⟩ := Option.bind_eq_some_iff.mp h
        exact (works_decodeStream c fuel tgt _ h₁).trans (ih h₂)
    unfold decodeStream at h
    split at h
    · rename_i hs
      obtain rfl := Option.some.inj h
      exact .one (perform_deliver_refused hs)
    · rename_i hs
      simp only at h
      have hacc : Works ⟨st, .deliver c seg :: w⟩ ⟨accept c seg st, .drain c seg :: w⟩ :=
        .one (perform_deliver_accepted hs)
      split at h
      · rename_i hl
        obtain rfl := Option.some.inj h
        exact hacc.trans (.one (perform_drain_none hl))
      · rename_i chain hl
        exact (hacc.trans (.one (perform_drain_some hl))).trans (hchain chain h)

theorem works_decode {st st' : State} {p : Packet} (h : decode st p = some st') :
    Works ⟨dropBuf st, st.jobs p⟩ ⟨st', []⟩ := by
  obtain ⟨st₁, h₁, rfl⟩ := Option.map_eq_some_iff.mp h
  exact (works_decodeStream _ _ _ _ h₁).trans (.one rfl)

theorem exec_run {st st' : State} {ps : List Packet} (h : run st ps = some st') :
    ∃ tr, packetsOf tr = ps ∧ exec step ⟨st, []⟩ tr = some ⟨st', []⟩ := by
  induction ps generalizing st with
  | nil =>
    obtain rfl : st = st' := by simpa [run] using h
    exact ⟨[], rfl, rfl⟩
  | cons p ps ih =>
    rw [run, List.foldlM_cons] at h
    obtain ⟨st₁, h₁, h₂⟩ := Option.bind_eq_some_iff.mp h
    obtain ⟨n, hn⟩ := works_decode h₁
    obtain ⟨tr, rfl, htr⟩ := ih h₂
    refine ⟨.packet p :: (List.replicate n .work ++ tr), by simp, ?_⟩
    have hp : step ⟨st, []⟩ (.packet p) = some ⟨dropBuf st, st.jobs p⟩ := rfl
    rw [exec, hp, Option.bind_some, exec_append, hn, Option.bind_some, htr]

/-- A configuration that occurs while `decode` goes through `ps`, starting from `st`. -/
def Visits (st : State) (ps : List Packet) (c : Config) : Prop :=
  ∃ tr, packetsOf tr <+: ps ∧ exec step ⟨st, []⟩ tr = some c

/-- Every step is one of these two. -/
theorem step_cases {c c' : Config} {l : Label} (h : step c l = some c') :
    (∃ st p, l = .packet p ∧ c = ⟨st, []⟩ ∧ c' = ⟨dropBuf st, st.jobs p⟩) ∨
    (∃ st j w, l = .work ∧ c = ⟨st, j :: w⟩ ∧
      c' = ⟨(j.perform st).1, (j.perform st).2 ++ w⟩) := by
  unfold step at h
  split at h
  · rename_i st p
    obtain rfl := Option.some.inj h
    exact .inl ⟨st, p, rfl, rfl, rfl⟩
  · rename_i st j w
    obtain rfl := Option.some.inj h
    exact .inr ⟨st, j, w, rfl, rfl, rfl⟩
  · cases h

/-- **Induction over the steps of a run.** `J` relates the packets taken so far to the
configuration. -/
theorem exec_run_induct {st₀ : State} {ps : List Packet} {P : Config → Prop}
    {J : List Packet → Config → Prop} (hP : ∀ c, Visits st₀ ps c → P c) (h0 : J [] ⟨st₀, []⟩)
    (hpacket : ∀ qs st p, qs ++ [p] <+: ps → P ⟨st, []⟩ → J qs ⟨st, []⟩ →
      J (qs ++ [p]) ⟨dropBuf st, st.jobs p⟩)
    (hwork : ∀ qs st j w, P ⟨st, j :: w⟩ → J qs ⟨st, j :: w⟩ →
      J qs ⟨(j.perform st).1, (j.perform st).2 ++ w⟩)
    {c : Config} {tr : List Label} (hpre : packetsOf tr <+: ps)
    (h : exec step ⟨st₀, []⟩ tr = some c) : J (packetsOf tr) c := by
  suffices hI : exec step ⟨st₀, []⟩ tr = some c ∧ (packetsOf tr <+: ps → J (packetsOf tr) c) from
    hI.2 hpre
  refine exec_induct (I := fun tr c => exec step ⟨st₀, []⟩ tr = some c ∧
    (packetsOf tr <+: ps → J (packetsOf tr) c)) ⟨rfl, fun _ => h0⟩ ?_ tr h
  rintro tr c l c' ⟨hex, hJ⟩ hs
  refine ⟨by rw [exec_snoc, hex, Option.bind_some, hs], fun hpre => ?_⟩
  rw [packetsOf_append] at hpre ⊢
  have hpre' : packetsOf tr <+: ps := (List.prefix_append _ _).trans hpre
  have hPc : P c := hP c ⟨tr, hpre', hex⟩
  obtain ⟨st, p, rfl, rfl, rfl⟩ | ⟨st, j, w, rfl, rfl, rfl⟩ := step_cases hs
  · exact hpacket _ _ _ hpre hPc (hJ hpre')
  · simpa [packetsOf] using hwork _ _ _ _ hPc (hJ hpre')

/-- **What every step keeps holds at the end of every run of `decode`.** -/
theorem run_induct {st₀ st' : State} {ps : List Packet} {P : Config → Prop}
    {J : List Packet → Config → Prop} (hP : ∀ c, Visits st₀ ps c → P c) (h0 : J [] ⟨st₀, []⟩)
    (hpacket : ∀ qs st p, qs ++ [p] <+: ps → P ⟨st, []⟩ → J qs ⟨st, []⟩ →
      J (qs ++ [p]) ⟨dropBuf st, st.jobs p⟩)
    (hwork : ∀ qs st j w, P ⟨st, j :: w⟩ → J qs ⟨st, j :: w⟩ →
      J qs ⟨(j.perform st).1, (j.perform st).2 ++ w⟩)
    (h : run st₀ ps = some st') : J ps ⟨st', []⟩ := by
  obtain ⟨tr, rfl, htr⟩ := exec_run h
  exact exec_run_induct hP h0 hpacket hwork (List.prefix_refl _) htr

/-! ## The machine is deterministic -/

/-- Two runs that have taken the same packets and done all their work are the same. -/
theorem exec_unique {c : Config} {st st' : State} :
    ∀ {tr tr' : List Label}, packetsOf tr = packetsOf tr' →
      exec step c tr = some ⟨st, []⟩ → exec step c tr' = some ⟨st', []⟩ → st = st' := by
  intro tr
  induction tr generalizing c with
  | nil =>
    intro tr' hp h h'
    obtain rfl := Option.some.inj h
    cases tr' with
    | nil => simpa [exec] using h'
    | cons l tr' =>
      cases l with
      | packet p => simp [packetsOf] at hp
      | work => simp [exec, step] at h'
  | cons l tr ih =>
    intro tr' hp h h'
    rw [exec] at h
    obtain ⟨c₁, hs, h⟩ := Option.bind_eq_some_iff.mp h
    obtain ⟨s, p, rfl, rfl, rfl⟩ | ⟨s, j, w, rfl, rfl, rfl⟩ := step_cases hs
    · cases tr' with
      | nil => simp [packetsOf] at hp
      | cons l' tr' =>
        cases l' with
        | packet q =>
          rw [packetsOf_packet, packetsOf_packet, List.cons.injEq] at hp
          obtain ⟨rfl, hp⟩ := hp
          exact ih hp h (by simpa [exec, step] using h')
        | work => simp [exec, step] at h'
    · cases tr' with
      | nil => simp [exec] at h'
      | cons l' tr' =>
        cases l' with
        | packet q => simp [exec, step] at h'
        | work => exact ih (by simpa [packetsOf] using hp) h (by simpa [exec, step] using h')

theorem run_eq_of_exec {st st' : State} {tr : List Label}
    (h : exec step ⟨st, []⟩ tr = some ⟨st', []⟩) : run st (packetsOf tr) = some st' := by
  obtain ⟨st₁, h₁⟩ := run_isSome st (packetsOf tr)
  obtain ⟨tr₁, hp, htr₁⟩ := exec_run h₁
  rw [h₁, exec_unique hp htr₁ h]

end PacketMachine.Tcp
