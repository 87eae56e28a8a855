import PacketMachine.Tcp.LifeCycle

/-!
# One store for two directions

Both directions of a session keep their early segments in one `seg_map_`, under sequence numbers
relative to the base of their own sender, and `decode_stream` (`tcp.cc:376-394`) replays what it
finds under `sender->next_seq()` as segments of `sender`. When a chain it finds holds a segment of
the other endpoint, that segment is counted for the wrong side: it is accepted there, or stored again
under a key of the other base, where its own direction never finds it.

`OwnDrain` says of a configuration that this does not happen in its next step. In runs whose
configurations all satisfy it:

* **`events_justified`**: `TCP.established` and `TCP.closed` are pushed only after the right
  endpoints have sent the packets that they stand for;
* **`directions_independent`**: what is accepted of one endpoint is what its packets alone lead to.
  The run of these packets follows the whole run step by step (`exec_simConfig`).

Without it both fail: `established_without_synack` is a session that is established although the
server sent no `SYN|ACK`, and in `server_packet_loses_client_segment` a packet of the server makes
the client lose a segment.
-/

namespace PacketMachine.Tcp

open PacketMachine.Lib

/-! ## The condition -/

/-- When the next step looks up the next sequence number of a sender, it finds only segments that
the endpoint of this sender sent. -/
def OwnDrain (c : Config) : Prop :=
  match c.work with
  | .drain cl _ :: _ =>
    ∀ seg ∈ c.st.ssn.segMap.chain (c.st.ssn.stream cl.sender).nextSeq, seg.src = cl.sender
  | _ => True

instance (c : Config) : Decidable (OwnDrain c) := by
  unfold OwnDrain
  split <;> infer_instance

/-- Runs the machine over the packets and tests `OwnDrain` in every configuration. -/
def ownDrains : Nat → Config → List Packet → Bool
  | 0, _, _ => false
  | _ + 1, ⟨_, []⟩, [] => true
  | n + 1, ⟨st, []⟩, p :: ps => ownDrains n ⟨dropBuf st, st.jobs p⟩ ps
  | n + 1, ⟨st, j :: w⟩, ps =>
    decide (OwnDrain ⟨st, j :: w⟩) &&
      ownDrains n ⟨(j.perform st).1, (j.perform st).2 ++ w⟩ ps

theorem ownDrain_of_ownDrains :
    ∀ (n : Nat) {c c' : Config} {ps : List Packet} {tr : List Label}, ownDrains n c ps = true →
      packetsOf tr <+: ps → exec step c tr = some c' → OwnDrain c'
  | 0, _, _, _, _, h, _, _ => by simp [ownDrains] at h
  | n + 1, ⟨st, w⟩, c', ps, tr, h, hp, hx => by
    cases tr with
    | nil =>
      obtain rfl := Option.some.inj hx
      cases w with
      | nil => trivial
      | cons j w =>
        simp only [ownDrains, Bool.and_eq_true, decide_eq_true_eq] at h
        exact h.1
    | cons l tr =>
      obtain ⟨c₁, hs, hx⟩ := Option.bind_eq_some_iff.mp hx
      obtain ⟨st, p, rfl, hc, rfl⟩ | ⟨st, j, w, rfl, hc, rfl⟩ := step_cases hs
      · cases hc
        cases ps with
        | nil => simp at hp
        | cons q ps =>
          rw [packetsOf_packet, List.cons_prefix_cons] at hp
          obtain ⟨rfl, hp⟩ := hp
          exact ownDrain_of_ownDrains n h hp hx
      · cases hc
        simp only [ownDrains, Bool.and_eq_true] at h
        exact ownDrain_of_ownDrains n h.2 (by simpa [packetsOf] using hp) hx

/-! ## Events and the packets they stand for -/

/-- The side of a packet, when the client has this endpoint. -/
def sideFrom (client : Endpoint) (p : Packet) : Side :=
  if client = p.src then .client else .server

/-- Among the packets there is one of this side whose flags satisfy `P`. -/
def SentBy (client : Endpoint) (qs : List Packet) (sd : Side) (P : UInt8 → Prop) : Prop :=
  ∃ p ∈ qs, sideFrom client p = sd ∧ P p.flags

/-- A packet brought the segment. -/
def Brought (client : Endpoint) (qs : List Packet) (seg : Segment) : Prop :=
  ∃ p ∈ qs, p.segment (sideFrom client p) = seg

/-- The packets that justify a status. -/
structure Evidence (client : Endpoint) (qs : List Packet) (s : Status) (closing : Option Side) :
    Prop where
  syn : 1 ≤ s.rank → SentBy client qs .client (· = SYN)
  synack : 2 ≤ s.rank → SentBy client qs .server (· = SYN ||| ACK)
  ack : 3 ≤ s.rank → SentBy client qs .client (· = ACK)
  fin : 4 ≤ s.rank → ∃ sd, closing = some sd ∧ SentBy client qs sd (0 < · &&& FIN)
  fins : 5 ≤ s.rank → ∀ sd, SentBy client qs sd (0 < · &&& FIN)

/-- What holds of the segments that wait, of the calls that are pending and of the status, when
every drain finds only segments of its own direction. -/
structure Justified (client : Endpoint) (qs : List Packet) (c : Config) : Prop where
  endpoint : c.st.ssn.client.endpoint = client
  stored : ∀ k, ∀ seg ∈ c.st.ssn.segMap.chain k, Brought client qs seg
  jobs : ∀ cl seg, .deliver cl seg ∈ c.work → seg.src = cl.sender ∧ Brought client qs seg
  status : Evidence client qs c.st.ssn.status c.st.ssn.closing

section Justified

variable {client : Endpoint} {qs : List Packet}

theorem SentBy.append {sd : Side} {P : UInt8 → Prop} (h : SentBy client qs sd P) (p : Packet) :
    SentBy client (qs ++ [p]) sd P := by
  obtain ⟨q, hq, hsd, hP⟩ := h
  exact ⟨q, List.mem_append_left _ hq, hsd, hP⟩

theorem Brought.append {seg : Segment} (h : Brought client qs seg) (p : Packet) :
    Brought client (qs ++ [p]) seg := by
  obtain ⟨q, hq, hseg⟩ := h
  exact ⟨q, List.mem_append_left _ hq, hseg⟩

theorem Evidence.append {s : Status} {closing : Option Side} (h : Evidence client qs s closing)
    (p : Packet) : Evidence client (qs ++ [p]) s closing where
  syn hr := (h.syn hr).append p
  synack hr := (h.synack hr).append p
  ack hr := (h.ack hr).append p
  fin hr := by
    obtain ⟨sd, hsd, hf⟩ := h.fin hr
    exact ⟨sd, hsd, hf.append p⟩
  fins hr sd := (h.fins hr sd).append p

/-- A move adds the packet that the next status asks for. -/
theorem Evidence.move {s : Session} {flags : UInt8} {sender : Side}
    (h : Evidence client qs s.status s.closing) (hm : s.Moves flags sender)
    (hp : SentBy client qs sender (· = flags)) :
    Evidence client qs s.status.next
      (if s.status = .established then some sender else s.closing) := by
  have hfin : 0 < flags &&& FIN → SentBy client qs sender (0 < · &&& FIN) := by
    rintro hf
    obtain ⟨p, hpq, hsd, rfl⟩ := hp
    exact ⟨p, hpq, hsd, hf⟩
  obtain ⟨hsyn, hsynack, hack, hf, hff⟩ := h
  unfold Session.Moves at hm
  cases hs : s.status <;>
    simp only [hs, Status.rank, Status.next, reduceCtorEq, if_true, if_false] at *
  case none =>
    obtain ⟨rfl, rfl⟩ := hm
    constructor <;> intro hr <;> first | exact hp | simp [Status.rank] at hr
  case synSent =>
    obtain ⟨rfl, rfl⟩ := hm
    constructor <;> intro hr <;> first | exact hp | exact hsyn (by decide) | simp [Status.rank] at hr
  case synackSent =>
    obtain ⟨rfl, rfl⟩ := hm
    constructor <;> intro hr <;>
      first | exact hp | exact hsyn (by decide) | exact hsynack (by decide)
            | simp [Status.rank] at hr
  case established =>
    constructor <;> intro hr <;>
      first | exact hsyn (by decide) | exact hsynack (by decide) | exact hack (by decide)
            | exact ⟨sender, rfl, hfin hm⟩ | simp [Status.rank] at hr
  case closing =>
    obtain ⟨sd, hcl, hsd⟩ := hf (by decide)
    refine ⟨fun _ => hsyn (by decide), fun _ => hsynack (by decide), fun _ => hack (by decide),
      fun _ => ⟨sd, hcl, hsd⟩, fun _ sd' => ?_⟩
    -- the sender is not the side whose `FIN` came first
    by_cases h' : sd' = sender
    · exact h' ▸ hfin hm.1
    · have : sd ≠ sender := fun e => hm.2 (e ▸ hcl)
      rw [Side.eq_peer_of_ne h', ← Side.eq_peer_of_ne this]
      exact hsd

theorem justified_new (src dst : Endpoint) (ssnId : UInt64) :
    Justified src [] ⟨State.new src dst ssnId, []⟩ where
  endpoint := rfl
  stored k seg hseg := by simp [State.new, Session.new, SegMap.chain] at hseg
  jobs cl seg h := by simp at h
  status := by constructor <;> intro hr <;> simp [State.new, Session.new, Status.rank] at hr

theorem justified_packet {st : State} (h : Justified client qs ⟨st, []⟩) (p : Packet) :
    Justified client (qs ++ [p]) ⟨dropBuf st, st.jobs p⟩ where
  endpoint := h.endpoint
  stored k seg hseg := (h.stored k seg hseg).append p
  jobs cl seg hj := by
    obtain ⟨rfl, rfl⟩ : cl = p.call (st.ssn.sideOf p) ∧ seg = p.segment (st.ssn.sideOf p) := by
      simpa [State.jobs] using hj
    refine ⟨rfl, p, by simp, ?_⟩
    rw [Session.sideOf, h.endpoint, sideFrom]
  status := h.status.append p

theorem justified_work {st : State} {j : Job} {w : List Job} (hown : OwnDrain ⟨st, j :: w⟩)
    (h : Justified client qs ⟨st, j :: w⟩) :
    Justified client qs ⟨(j.perform st).1, (j.perform st).2 ++ w⟩ := by
  have hw : ∀ cl seg, .deliver cl seg ∈ w → seg.src = cl.sender ∧ Brought client qs seg :=
    fun cl seg hm => h.jobs cl seg (List.mem_cons_of_mem j hm)
  refine perform_cases st j (Q := fun st' new => Justified client qs ⟨st', new ++ w⟩) ?_ ?_ ?_ ?_ ?_
  · rintro c seg rfl _
    refine ⟨by simpa [keep, Stream.inWindow] using h.endpoint, fun k s hs => ?_, hw, ?_⟩
    · simp only [keep, Stream.inWindow, if_true, SegMap.chain, SegMap.lookup_store] at hs
      split at hs
      · simp only [Option.getD_some, List.mem_append, List.mem_singleton] at hs
        rcases hs with hs | rfl
        · exact h.stored _ s hs
        · exact (h.jobs c s (by simp)).2
      · exact h.stored k s hs
    · simpa [keep, Stream.inWindow] using h.status
  · rintro c seg rfl _
    obtain ⟨hsrc, p, hp, hseg⟩ := h.jobs c seg (by simp)
    refine ⟨?_, fun k s hs => ?_, fun cl s hm => ?_, ?_⟩
    · exact (accept_endpoint c seg st .client).trans h.endpoint
    · rw [accept_segMap] at hs
      exact h.stored k s hs
    · exact hw cl s (by simpa using hm)
    · by_cases hm : st.ssn.Moves seg.flags c.sender
      · obtain ⟨_, ha⟩ := accept_move hm
        have hby : SentBy client qs c.sender (· = seg.flags) :=
          ⟨p, hp, by rw [← hsrc, ← hseg]; rfl, by rw [← hseg]; rfl⟩
        simp only [ha.status, ha.closing]
        exact h.status.move hm hby
      · have ha := accept_stay hm
        simpa only [ha.status, ha.closing] using h.status
  · rintro c seg rfl _
    exact ⟨h.endpoint, h.stored, hw, h.status⟩
  · rintro c seg chain rfl hl
    have hmem : ∀ s ∈ chain, s ∈ st.ssn.segMap.chain (st.ssn.stream c.sender).nextSeq := by
      intro s hs
      rwa [SegMap.chain, hl]
    refine ⟨h.endpoint, fun k s hs => ?_, fun cl s hm => ?_, h.status⟩
    · by_cases hk : k = (st.ssn.stream c.sender).nextSeq
      · subst hk
        simp [takeChain, SegMap.chain] at hs
      · rw [takeChain, SegMap.chain, AList.lookup_erase_ne hk] at hs
        exact h.stored k s hs
    · rcases List.mem_append.mp hm with hm | hm
      · obtain ⟨s', hs', he⟩ := List.mem_map.mp hm
        cases he
        exact ⟨hown _ (hmem _ hs'), h.stored _ _ (hmem _ hs')⟩
      · exact hw cl s hm
  · rintro rfl
    exact ⟨h.endpoint, h.stored, hw, h.status⟩

theorem justified_run {src dst : Endpoint} {ssnId : UInt64} {ps : List Packet} {st : State}
    (hown : ∀ c, Visits (State.new src dst ssnId) ps c → OwnDrain c)
    (h : run (State.new src dst ssnId) ps = some st) : Justified src ps ⟨st, []⟩ :=
  run_induct hown (justified_new src dst ssnId) (fun _ _ p _ _ hJ => justified_packet hJ p)
    (fun _ _ _ _ hP hJ => justified_work hP hJ) h

end Justified

theorem Visits.mono {st : State} {qs ps : List Packet} {c : Config} (h : Visits st qs c)
    (hpre : qs <+: ps) : Visits st ps c := by
  obtain ⟨tr, htr, hx⟩ := h
  exact ⟨tr, htr.trans hpre, hx⟩

/-- The session has come at least as far as the status of an event it has pushed. -/
theorem rank_of_event {st : State} (hm : marks st.out = history st.ssn.status) :
    (.established ∈ events st.out → 3 ≤ st.ssn.status.rank) ∧
    (.closed ∈ events st.out → 5 ≤ st.ssn.status.rank) := by
  rw [← events_marks, hm]
  cases st.ssn.status <;> decide

/-- **Events and the packets they stand for.** The packets of a session come from its two endpoints:
`search_session` finds it under the pair of both (`make_key`, `tcp.cc:428-457`). When every drain
of the run finds only segments of its own direction, `TCP.established` is pushed only after the
three packets of the handshake, and `TCP.closed` only after a `FIN` of each endpoint. -/
theorem events_justified {src dst : Endpoint} {ssnId : UInt64} {ps : List Packet}
    (hends : ∀ p ∈ ps, p.src = src ∨ p.src = dst)
    (hown : ∀ c, Visits (State.new src dst ssnId) ps c → OwnDrain c) :
    ∀ qs, qs <+: ps → ∃ st, run (State.new src dst ssnId) qs = some st ∧
      (.established ∈ events st.out →
        (∃ p ∈ qs, p.src = src ∧ p.flags = SYN) ∧
        (∃ p ∈ qs, p.src = dst ∧ p.flags = SYN ||| ACK) ∧
        ∃ p ∈ qs, p.src = src ∧ p.flags = ACK) ∧
      (.closed ∈ events st.out →
        (∃ p ∈ qs, p.src = src ∧ 0 < p.flags &&& FIN) ∧
        ∃ p ∈ qs, p.src = dst ∧ 0 < p.flags &&& FIN) := by
  intro qs hpre
  obtain ⟨st, hst⟩ := run_isSome (State.new src dst ssnId) qs
  have hJ := justified_run (fun c hv => hown c (hv.mono hpre)) hst
  have hev := rank_of_event (marks_run hst)
  have hclient : ∀ P, SentBy src qs .client P → ∃ p ∈ qs, p.src = src ∧ P p.flags := by
    rintro P ⟨p, hp, hsd, hP⟩
    unfold sideFrom at hsd
    split at hsd
    · rename_i he
      exact ⟨p, hp, he.symm, hP⟩
    · cases hsd
  have hserver : ∀ P, SentBy src qs .server P → ∃ p ∈ qs, p.src = dst ∧ P p.flags := by
    rintro P ⟨p, hp, hsd, hP⟩
    unfold sideFrom at hsd
    split at hsd
    · cases hsd
    · rename_i he
      rcases hends p (hpre.subset hp) with h | h
      · exact absurd h.symm he
      · exact ⟨p, hp, h, hP⟩
  refine ⟨st, hst, fun he => ?_, fun hc => ?_⟩
  · have hr := hev.1 he
    exact ⟨hclient _ (hJ.status.syn (Nat.le_trans (by decide) hr)),
      hserver _ (hJ.status.synack (Nat.le_trans (by decide) hr)), hclient _ (hJ.status.ack hr)⟩
  · have hr := hev.2 hc
    exact ⟨hclient _ (hJ.status.fins hr .client), hserver _ (hJ.status.fins hr .server)⟩

/-- The two hosts of the runs on fixed packets in this module. -/
def hostC : Endpoint := ⟨[10, 0, 0, 1], 40000⟩

def hostS : Endpoint := ⟨[10, 0, 0, 2], 80⟩

/-- A packet with the fields that `Session::decode` looks at. -/
def pkt (src : Endpoint) (flags : UInt8) (seq : UInt32) (data : List UInt8 := []) : Packet :=
  ⟨src, flags, seq, 0, data, 0, ⟨0, 0⟩⟩

/-- A session that is opened and closed in order. -/
def opened : List Packet :=
  [pkt hostC SYN 100, pkt hostS (SYN ||| ACK) 500, pkt hostC ACK 101,
    pkt hostC (FIN ||| ACK) 101, pkt hostS (FIN ||| ACK) 501]

theorem events_justified_opened :
    (∀ p ∈ opened, p.src = hostC ∨ p.src = hostS) ∧
    (∀ c, Visits (State.new hostC hostS 1) opened c → OwnDrain c) ∧
    ∃ st, run (State.new hostC hostS 1) opened = some st ∧
      events st.out = [.established, .closed] ∧
      (∃ p ∈ opened, p.src = hostS ∧ p.flags = SYN ||| ACK) ∧
      ∃ p ∈ opened, p.src = hostS ∧ 0 < p.flags &&& FIN := by
  have hends : ∀ p ∈ opened, p.src = hostC ∨ p.src = hostS := by decide
  have hown : ∀ c, Visits (State.new hostC hostS 1) opened c → OwnDrain c := by
    rintro c ⟨tr, htr, hx⟩
    exact ownDrain_of_ownDrains 30 (by decide) htr hx
  obtain ⟨st, hst, he, hc⟩ := events_justified hends hown opened (List.prefix_refl _)
  have hev : (run (State.new hostC hostS 1) opened).map (fun st => events st.out)
      = some [.established, .closed] := by decide
  rw [hst, Option.map_some, Option.some.injEq] at hev
  exact ⟨hends, hown, st, hst, hev, (he (by rw [hev]; decide)).2.1, (hc (by rw [hev]; decide)).2⟩

/-- The client sends a `SYN|ACK` with the sequence number of its `SYN`, which is stored under the
key 0. The server has no base yet, so that after its first packet the key 0 is looked up and the
segment is replayed as one of the server. -/
def spoofed : List Packet :=
  [pkt hostC SYN 100, pkt hostC (SYN ||| ACK) 100, pkt hostS ACK 7, pkt hostC ACK 101]

/-- **A session is established although the server has sent no `SYN|ACK`.** -/
theorem established_without_synack :
    (∀ p ∈ spoofed, p.src = hostC ∨ p.src = hostS) ∧
    (∃ st, run (State.new hostC hostS 1) spoofed = some st ∧ .established ∈ events st.out) ∧
    ¬ ∃ p ∈ spoofed, p.src = hostS ∧ p.flags = SYN ||| ACK := by
  refine ⟨by decide, ?_, by decide⟩
  have hev : (run (State.new hostC hostS 1) spoofed).map (fun st => events st.out)
      = some [.established] := by decide
  obtain ⟨st, hst, he⟩ := Option.map_eq_some_iff.mp hev
  exact ⟨st, hst, by rw [he]; decide⟩

/-! ## The two directions -/

/-- The segments of an endpoint that were accepted, in order. -/
def acceptedFrom (sd : Side) (out : List Eff) : List Segment :=
  ((acceptedLog out).map Prod.snd).filter (·.src = sd)

/-- The `FIN` of a side has been counted. -/
def Session.FinDone (s : Session) (sd : Side) : Prop :=
  s.status = .closed ∨ (s.status = .closing ∧ s.closing = some sd)

/-- A session that is past its handshake. -/
structure Session.Past (s : Session) : Prop where
  rank : 3 ≤ s.status.rank
  closing : s.status = .closing → s.closing ≠ none

/-- Past the handshake a segment moves the session when it carries the first `FIN` of its sender. -/
theorem Session.Past.moves_iff {s : Session} (h : s.Past) (flags : UInt8) (sd : Side) :
    s.Moves flags sd ↔ 0 < flags &&& FIN ∧ ¬ s.FinDone sd := by
  have h3 := h.rank
  unfold Session.Moves Session.FinDone
  cases hs : s.status <;> simp [hs, Status.rank] at h3 ⊢

/-- What an accepted segment does past the handshake. -/
structure PastStep (c : Call) (seg : Segment) (s s' : Session) : Prop where
  past : s'.Past
  sender : s'.FinDone c.sender ↔ s.FinDone c.sender ∨ 0 < seg.flags &&& FIN
  peer : s'.FinDone c.sender.peer ↔ s.FinDone c.sender.peer
  stay : ¬ (0 < seg.flags &&& FIN ∧ ¬ s.FinDone c.sender) →
    s'.stream c.sender = ((s.stream c.sender).send seg.seq seg.data.length).1
  fin : 0 < seg.flags &&& FIN ∧ ¬ s.FinDone c.sender →
    s'.stream c.sender = ((s.stream c.sender).send seg.seq seg.data.length).1.incSeq

theorem pastStep_accept {c : Call} {seg : Segment} {st : State} (h : st.ssn.Past) :
    PastStep c seg st.ssn (accept c seg st).ssn := by
  have hiff := h.moves_iff seg.flags c.sender
  by_cases hm : st.ssn.Moves seg.flags c.sender
  · obtain ⟨us, ha⟩ := accept_move hm
    have hf := hiff.mp hm
    have hst : st.ssn.status = .established ∨ st.ssn.status = .closing := by
      have h3 := h.rank
      unfold Session.FinDone at hf
      cases hs : st.ssn.status <;> simp_all [Status.rank]
    rcases hst with hs | hs
    · have hstat : (accept c seg st).ssn.status = .closing := by rw [ha.status, hs]; rfl
      have hclos : (accept c seg st).ssn.closing = some c.sender := by rw [ha.closing, if_pos hs]
      refine ⟨⟨?_, ?_⟩, ?_, ?_, fun hn => absurd hf hn, fun _ => ?_⟩
      · simp [hstat, Status.rank]
      · simp [hclos]
      · simp [Session.FinDone, hstat, hclos, hf.1]
      · simp [Session.FinDone, hstat, hclos, hs, (Side.peer_ne c.sender).symm]
      · rw [ha.stream, hs]
        rfl
    · have hstat : (accept c seg st).ssn.status = .closed := by rw [ha.status, hs]; rfl
      -- the side that closes has sent its `FIN` before, so it is the peer
      have hpeer : st.ssn.closing = some c.sender.peer := by
        cases hcl : st.ssn.closing with
        | none => exact absurd hcl (h.closing hs)
        | some sd =>
          have hne : sd ≠ c.sender := fun e => hf.2 (.inr ⟨hs, by rw [hcl, e]⟩)
          rw [Side.eq_peer_of_ne hne]
      refine ⟨⟨?_, ?_⟩, ?_, ?_, fun hn => absurd hf hn, fun _ => ?_⟩
      · simp [hstat, Status.rank]
      · simp [hstat]
      · simp [Session.FinDone, hstat, hf.1]
      · simp [Session.FinDone, hstat, hs, hpeer]
      · rw [ha.stream, hs]
        rfl
  · have ha := accept_stay hm
    have hn : ¬ (0 < seg.flags &&& FIN ∧ ¬ st.ssn.FinDone c.sender) := fun hf => hm (hiff.mpr hf)
    have hdone : ∀ sd, (accept c seg st).ssn.FinDone sd ↔ st.ssn.FinDone sd := by
      intro sd
      simp only [Session.FinDone, ha.status, ha.closing]
    refine ⟨⟨?_, ?_⟩, ?_, hdone _, fun _ => ha.stream, fun hf => absurd hf hn⟩
    · rw [ha.status]
      exact h.rank
    · rw [ha.status, ha.closing]
      exact h.closing
    · rw [hdone]
      constructor
      · exact .inl
      · rintro (hd | hf)
        · exact hd
        · exact Classical.byContradiction fun hd => hn ⟨hf, hd⟩

/-- `a` is a state of the whole run and `b` one of the run of the packets of `sd` alone. They agree
on what the direction `sd` depends on. -/
structure Sim (client : Endpoint) (sd : Side) (a b : State) : Prop where
  endpoint : a.ssn.client.endpoint = client ∧ b.ssn.client.endpoint = client
  past : a.ssn.Past ∧ b.ssn.Past
  base : (a.ssn.stream sd).hasBaseSeq = true ∧ (b.ssn.stream sd).hasBaseSeq = true
  baseSeq : (a.ssn.stream sd).baseSeq = (b.ssn.stream sd).baseSeq
  nextSeq : (a.ssn.stream sd).nextSeq = (b.ssn.stream sd).nextSeq
  fin : a.ssn.FinDone sd ↔ b.ssn.FinDone sd
  chain : ∀ k, b.ssn.segMap.chain k = (a.ssn.segMap.chain k).filter (·.src = sd)
  nonempty : ∀ k, a.ssn.segMap.lookup k ≠ some [] ∧ b.ssn.segMap.lookup k ≠ some []
  accepted : acceptedFrom sd a.out = acceptedFrom sd b.out

theorem acceptedFrom_accept (sd : Side) (c : Call) (seg : Segment) (st : State) :
    acceptedFrom sd (accept c seg st).out
      = acceptedFrom sd st.out ++ if seg.src = sd then [seg] else [] := by
  unfold acceptedFrom
  rw [acceptedLog_accept, List.map_append, List.filter_append]
  split <;> simp_all

theorem SegMap.chain_store (m : SegMap) (k k' : UInt32) (seg : Segment) :
    (m.store k seg).chain k' = if k' = k then m.chain k ++ [seg] else m.chain k' := by
  rw [SegMap.chain, SegMap.lookup_store]
  split <;> rfl

theorem SegMap.chain_erase (m : SegMap) (k k' : UInt32) :
    SegMap.chain (m.erase k) k' = if k' = k then [] else m.chain k' := by
  unfold SegMap.chain
  split
  · rename_i h
    rw [h, AList.lookup_erase]
    rfl
  · rename_i h
    rw [AList.lookup_erase_ne h]

theorem SegMap.store_ne_nil {m : SegMap} (h : ∀ k, m.lookup k ≠ some []) (k k' : UInt32)
    (seg : Segment) : (m.store k seg).lookup k' ≠ some [] := by
  rw [SegMap.lookup_store]
  split
  · simp
  · exact h k'

theorem SegMap.erase_ne_nil {m : SegMap} (h : ∀ k, m.lookup k ≠ some []) (k k' : UInt32) :
    (m.erase k).lookup k' ≠ some [] := by
  by_cases hk : k' = k
  · rw [hk, AList.lookup_erase]
    simp
  · rw [AList.lookup_erase_ne hk]
    exact h k'

section Sim

variable {client : Endpoint} {sd : Side} {a b : State} {c : Call} {seg : Segment}

/-- The two runs take the same decision on a segment of the direction. -/
theorem Sim.send_eq (h : Sim client sd a b) (seq : UInt32) (n : Nat) :
    ((a.ssn.stream sd).send seq n).2 = ((b.ssn.stream sd).send seq n).2 := by
  unfold Stream.send
  rw [h.base.1, h.base.2, h.baseSeq, h.nextSeq]
  split
  · rfl
  · split <;> rfl

theorem Sim.keep_own (h : Sim client sd a b) (hc : c.sender = sd) (hs : seg.src = sd) :
    Sim client sd (keep c seg a) (keep c seg b) := by
  obtain ⟨hep, hpast, hb, hbs, hn, hfin, hch, hne, hacc⟩ := h
  refine ⟨hep, ⟨⟨hpast.1.rank, hpast.1.closing⟩, ⟨hpast.2.rank, hpast.2.closing⟩⟩, hb, hbs, hn, hfin,
    fun k => ?_, fun k => ?_, hacc⟩
  · simp only [keep, Stream.inWindow, Stream.toRelSeq, if_true, SegMap.chain_store, hc, hbs]
    split <;> simp [hch, hs]
  · exact ⟨SegMap.store_ne_nil (fun k => (hne k).1) _ _ _,
      SegMap.store_ne_nil (fun k => (hne k).2) _ _ _⟩

theorem Sim.keep_other (h : Sim client sd a b) (hs : seg.src = sd.peer) :
    Sim client sd (keep c seg a) b := by
  obtain ⟨hep, hpast, hb, hbs, hn, hfin, hch, hne, hacc⟩ := h
  refine ⟨hep, ⟨⟨hpast.1.rank, hpast.1.closing⟩, hpast.2⟩, hb, hbs, hn, hfin,
    fun k => ?_, fun k => ?_, hacc⟩
  · simp only [keep, Stream.inWindow, if_true, SegMap.chain_store]
    split
    · rename_i hk
      simp [hch, hk, hs, Side.peer_ne]
    · exact hch k
  · exact ⟨SegMap.store_ne_nil (fun k => (hne k).1) _ _ _, (hne k).2⟩

theorem Sim.accept_own (h : Sim client sd a b) (hc : c.sender = sd)
    (hsend : ((a.ssn.stream sd).send seg.seq seg.data.length).2 = true) :
    Sim client sd (accept c seg a) (accept c seg b) := by
  subst hc
  have hab := h.send_eq seg.seq seg.data.length
  obtain ⟨hep, hpast, hb, hbs, hn, hfin, hch, hne, hacc⟩ := h
  have pa : PastStep c seg a.ssn _ := pastStep_accept hpast.1
  have pb : PastStep c seg b.ssn _ := pastStep_accept hpast.2
  -- the segment is the next one in both runs
  have hseq : (a.ssn.stream c.sender).nextSeq = seg.seq - (a.ssn.stream c.sender).baseSeq := by
    refine Classical.byContradiction fun hne => ?_
    rw [Stream.send_of_ne hb.1 hne] at hsend
    cases hsend
  have hseq' : (b.ssn.stream c.sender).nextSeq = seg.seq - (b.ssn.stream c.sender).baseSeq := by
    rw [← hn, ← hbs, hseq]
  have hfields : ((accept c seg a).ssn.stream c.sender).hasBaseSeq = true ∧
      ((accept c seg b).ssn.stream c.sender).hasBaseSeq = true ∧
      ((accept c seg a).ssn.stream c.sender).baseSeq
        = ((accept c seg b).ssn.stream c.sender).baseSeq ∧
      ((accept c seg a).ssn.stream c.sender).nextSeq
        = ((accept c seg b).ssn.stream c.sender).nextSeq := by
    by_cases hf : 0 < seg.flags &&& FIN ∧ ¬ a.ssn.FinDone c.sender
    · have hf' : 0 < seg.flags &&& FIN ∧ ¬ b.ssn.FinDone c.sender := by rwa [hfin] at hf
      rw [pa.fin hf, pb.fin hf', Stream.send_of_eq hb.1 hseq, Stream.send_of_eq hb.2 hseq']
      exact ⟨hb.1, hb.2, hbs, by simp [Stream.incSeq, hn]⟩
    · have hf' : ¬ (0 < seg.flags &&& FIN ∧ ¬ b.ssn.FinDone c.sender) := by rwa [hfin] at hf
      rw [pa.stay hf, pb.stay hf', Stream.send_of_eq hb.1 hseq, Stream.send_of_eq hb.2 hseq']
      exact ⟨hb.1, hb.2, hbs, by simp [hn]⟩
  refine ⟨?_, ⟨pa.past, pb.past⟩, ⟨hfields.1, hfields.2.1⟩, hfields.2.2.1, hfields.2.2.2, ?_,
    fun k => ?_, fun k => ?_, ?_⟩
  · exact ⟨(accept_endpoint c seg a .client).trans hep.1,
      (accept_endpoint c seg b .client).trans hep.2⟩
  · rw [pa.sender, pb.sender, hfin]
  · rw [accept_segMap, accept_segMap]
    exact hch k
  · rw [accept_segMap, accept_segMap]
    exact hne k
  · rw [acceptedFrom_accept, acceptedFrom_accept, hacc]

theorem Sim.accept_other (h : Sim client sd a b) (hc : c.sender = sd.peer)
    (hs : seg.src = sd.peer) : Sim client sd (accept c seg a) b := by
  have hsd : sd = c.sender.peer := by rw [hc, Side.peer_peer]
  subst hsd
  obtain ⟨hep, hpast, hb, hbs, hn, hfin, hch, hne, hacc⟩ := h
  have pa : PastStep c seg a.ssn _ := pastStep_accept hpast.1
  have hpeer : (accept c seg a).ssn.stream c.sender.peer
      = (a.ssn.stream c.sender.peer).recv c.ack c.win := by
    by_cases hm : a.ssn.Moves seg.flags c.sender
    · obtain ⟨_, ha⟩ := accept_move hm
      exact ha.peer
    · exact (accept_stay hm).peer
  refine ⟨⟨(accept_endpoint c seg a .client).trans hep.1, hep.2⟩, ⟨pa.past, hpast.2⟩, ?_, ?_, ?_,
    pa.peer.trans hfin, fun k => ?_, fun k => ?_, ?_⟩
  · rw [hpeer]
    exact hb
  · rw [hpeer]
    exact hbs
  · rw [hpeer]
    exact hn
  · rw [accept_segMap]
    exact hch k
  · rw [accept_segMap]
    exact hne k
  · rw [acceptedFrom_accept, hs, hacc, if_neg (Side.peer_ne _), List.append_nil]

theorem Sim.take_own (h : Sim client sd a b) (k : UInt32) :
    Sim client sd (takeChain k seg a) (takeChain k seg b) := by
  obtain ⟨hep, hpast, hb, hbs, hn, hfin, hch, hne, hacc⟩ := h
  refine ⟨hep, ⟨⟨hpast.1.rank, hpast.1.closing⟩, ⟨hpast.2.rank, hpast.2.closing⟩⟩, hb, hbs, hn, hfin,
    fun k' => ?_, fun k' => ?_, hacc⟩
  · simp only [takeChain, SegMap.chain_erase]
    split
    · rfl
    · exact hch k'
  · exact ⟨SegMap.erase_ne_nil (fun k => (hne k).1) _ _, SegMap.erase_ne_nil (fun k => (hne k).2) _ _⟩

theorem Sim.take_other (h : Sim client sd a b) {k : UInt32}
    (hown : ∀ s ∈ a.ssn.segMap.chain k, s.src = sd.peer) : Sim client sd (takeChain k seg a) b := by
  obtain ⟨hep, hpast, hb, hbs, hn, hfin, hch, hne, hacc⟩ := h
  refine ⟨hep, ⟨⟨hpast.1.rank, hpast.1.closing⟩, hpast.2⟩, hb, hbs, hn, hfin,
    fun k' => ?_, fun k' => ?_, hacc⟩
  · simp only [takeChain, SegMap.chain_erase]
    split
    · rename_i hk
      rw [hk, hch, List.filter_nil, List.filter_eq_nil_iff]
      intro s hs
      simp [hown s hs, Side.peer_ne]
    · exact hch k'
  · exact ⟨SegMap.erase_ne_nil (fun k => (hne k).1) _ _, (hne k').2⟩

/-- A chain that holds only segments of the direction is the same in both runs. -/
theorem Sim.lookup_eq (h : Sim client sd a b) {k : UInt32}
    (hown : ∀ s ∈ a.ssn.segMap.chain k, s.src = sd) :
    b.ssn.segMap.lookup k = a.ssn.segMap.lookup k := by
  have hch : b.ssn.segMap.chain k = a.ssn.segMap.chain k := by
    rw [h.chain, List.filter_eq_self]
    intro s hs
    simp [hown s hs]
  obtain ⟨ha, hb⟩ := h.nonempty k
  unfold SegMap.chain at hch
  cases hla : a.ssn.segMap.lookup k <;> cases hlb : b.ssn.segMap.lookup k <;> simp_all

end Sim

/-- The jobs of one direction. -/
def Job.Of (sd : Side) : Job → Prop
  | deliver c seg => c.sender = sd ∧ seg.src = sd
  | drain c _ => c.sender = sd
  | finish => True

/-- `c` is a configuration of the whole run, and `d` one of the run of the packets of `sd` alone.
While the whole run works on a packet of `sd` both do the same jobs; while it works on a packet of
the other side the second run stands still. -/
structure SimConfig (client : Endpoint) (sd : Side) (c d : Config) : Prop where
  sim : Sim client sd c.st d.st
  work : (c.work = d.work ∧ ∀ j ∈ c.work, j.Of sd) ∨ (d.work = [] ∧ ∀ j ∈ c.work, j.Of sd.peer)

section SimConfig

variable {client : Endpoint} {sd : Side}

/-- A job of the direction is done by both runs, in the same way. -/
theorem simConfig_own {a b : State} {j : Job} {w : List Job} (h : Sim client sd a b)
    (hj : j.Of sd) (hw : ∀ j ∈ w, j.Of sd) (hown : OwnDrain ⟨a, j :: w⟩) :
    SimConfig client sd ⟨(j.perform a).1, (j.perform a).2 ++ w⟩
      ⟨(j.perform b).1, (j.perform b).2 ++ w⟩ := by
  cases j with
  | deliver c seg =>
    obtain ⟨hc, hs⟩ := hj
    cases hsend : ((a.ssn.stream sd).send seg.seq seg.data.length).2 with
    | false =>
      rw [perform_deliver_refused (by rw [hc, hsend]),
        perform_deliver_refused (by rw [hc, ← h.send_eq, hsend])]
      exact ⟨h.keep_own hc hs, .inl ⟨rfl, hw⟩⟩
    | true =>
      rw [perform_deliver_accepted (by rw [hc, hsend]; simp),
        perform_deliver_accepted (by rw [hc, ← h.send_eq, hsend]; simp)]
      refine ⟨h.accept_own hc hsend, .inl ⟨rfl, fun j hm => ?_⟩⟩
      rcases List.mem_cons.mp hm with rfl | hm
      · exact hc
      · exact hw j hm
  | drain c seg =>
    obtain rfl : c.sender = sd := hj
    have hl := h.lookup_eq hown
    rw [h.nextSeq] at hl
    cases hla : a.ssn.segMap.lookup (b.ssn.stream c.sender).nextSeq with
    | none =>
      rw [perform_drain_none (by rw [h.nextSeq, hla]), perform_drain_none (by rw [hl, hla])]
      exact ⟨h, .inl ⟨rfl, hw⟩⟩
    | some chain =>
      rw [perform_drain_some (by rw [h.nextSeq, hla]), perform_drain_some (by rw [hl, hla]),
        h.nextSeq]
      refine ⟨h.take_own _, .inl ⟨rfl, fun j hm => ?_⟩⟩
      rcases List.mem_append.mp hm with hm | hm
      · obtain ⟨s, hs, rfl⟩ := List.mem_map.mp hm
        refine ⟨rfl, hown s ?_⟩
        rwa [SegMap.chain, h.nextSeq, hla]
      · exact hw j hm
  | finish =>
    obtain ⟨hep, hpast, hb, hbs, hn, hfin, hch, hne, hacc⟩ := h
    refine ⟨⟨hep, hpast, hb, hbs, hn, hfin, hch, hne, ?_⟩, .inl ⟨rfl, hw⟩⟩
    simpa [Job.perform, txCounters, State.emit, acceptedFrom, acceptedLog] using hacc

/-- A job of the other direction leaves alone what the direction depends on. -/
theorem simConfig_other {a b : State} {j : Job} {w : List Job} (h : Sim client sd a b)
    (hj : j.Of sd.peer) (hw : ∀ j ∈ w, j.Of sd.peer) (hown : OwnDrain ⟨a, j :: w⟩) :
    SimConfig client sd ⟨(j.perform a).1, (j.perform a).2 ++ w⟩ ⟨b, []⟩ := by
  refine perform_cases a j (Q := fun a' new => SimConfig client sd ⟨a', new ++ w⟩ ⟨b, []⟩)
    ?_ ?_ ?_ ?_ ?_
  · rintro c seg rfl _
    exact ⟨h.keep_other hj.2, .inr ⟨rfl, hw⟩⟩
  · rintro c seg rfl _
    refine ⟨h.accept_other hj.1 hj.2, .inr ⟨rfl, fun j hm => ?_⟩⟩
    rcases List.mem_cons.mp hm with rfl | hm
    · exact hj.1
    · exact hw j hm
  · rintro c seg rfl _
    exact ⟨h, .inr ⟨rfl, hw⟩⟩
  · rintro c seg chain rfl hl
    have hc : c.sender = sd.peer := hj
    have hmem : ∀ s ∈ chain, s.src = sd.peer := by
      intro s hs
      rw [← hc]
      refine hown s ?_
      rwa [SegMap.chain, hl]
    refine ⟨h.take_other ?_, .inr ⟨rfl, fun j hm => ?_⟩⟩
    · rwa [SegMap.chain, hl]
    · rcases List.mem_append.mp hm with hm | hm
      · obtain ⟨s, hs, rfl⟩ := List.mem_map.mp hm
        exact ⟨hc, hmem s hs⟩
      · exact hw j hm
  · rintro rfl
    obtain ⟨hep, hpast, hb, hbs, hn, hfin, hch, hne, hacc⟩ := h
    refine ⟨⟨hep, hpast, hb, hbs, hn, hfin, hch, hne, ?_⟩, .inr ⟨rfl, hw⟩⟩
    simpa [txCounters, State.emit, acceptedFrom, acceptedLog] using hacc

/-- Both runs take a packet of the direction, and only the whole run one of the other. -/
theorem simConfig_packet {a b : State} (h : Sim client sd a b) (p : Packet) :
    SimConfig client sd ⟨dropBuf a, a.jobs p⟩
      (if sideFrom client p = sd then ⟨dropBuf b, b.jobs p⟩ else ⟨b, []⟩) := by
  have hside : a.ssn.sideOf p = sideFrom client p ∧ b.ssn.sideOf p = sideFrom client p := by
    unfold Session.sideOf sideFrom
    rw [h.endpoint.1, h.endpoint.2]
    exact ⟨rfl, rfl⟩
  obtain ⟨hep, hpast, hb, hbs, hn, hfin, hch, hne, hacc⟩ := h
  have hstream : ∀ (st : State) sd, (dropBuf st).ssn.stream sd = st.ssn.stream sd := by
    intro st sd; cases sd <;> rfl
  split
  · rename_i hp
    refine ⟨⟨hep, ⟨⟨hpast.1.rank, hpast.1.closing⟩, ⟨hpast.2.rank, hpast.2.closing⟩⟩, ?_, ?_, ?_,
      hfin, hch, hne, hacc⟩, .inl ⟨?_, ?_⟩⟩
    · rw [hstream, hstream]; exact hb
    · rw [hstream, hstream]; exact hbs
    · rw [hstream, hstream]; exact hn
    · rw [State.jobs, State.jobs, hside.1, hside.2]
    · intro j hm
      rw [State.jobs, hside.1, hp] at hm
      rcases List.mem_cons.mp hm with rfl | hm
      · exact ⟨rfl, rfl⟩
      · rw [List.mem_singleton.mp hm]
        trivial
  · rename_i hp
    refine ⟨⟨hep, ⟨⟨hpast.1.rank, hpast.1.closing⟩, hpast.2⟩, ?_, ?_, ?_, hfin, hch, hne, hacc⟩,
      .inr ⟨rfl, ?_⟩⟩
    · rw [hstream]; exact hb
    · rw [hstream]; exact hbs
    · rw [hstream]; exact hn
    · intro j hm
      rw [State.jobs, hside.1, Side.eq_peer_of_ne hp] at hm
      rcases List.mem_cons.mp hm with rfl | hm
      · exact ⟨rfl, rfl⟩
      · rw [List.mem_singleton.mp hm]
        trivial

/-- **The run of one direction alone follows the whole run.** -/
theorem exec_simConfig {st₀ : State} (h0 : Sim client sd st₀ st₀) {ps : List Packet}
    (hown : ∀ c, Visits st₀ ps c → OwnDrain c) {st : State} (h : run st₀ ps = some st) :
    ∃ tr d, packetsOf tr = ps.filter (sideFrom client · = sd) ∧
      exec step ⟨st₀, []⟩ tr = some d ∧ SimConfig client sd ⟨st, []⟩ d := by
  refine run_induct (P := OwnDrain) (J := fun qs c => ∃ tr d,
    packetsOf tr = qs.filter (sideFrom client · = sd) ∧ exec step ⟨st₀, []⟩ tr = some d ∧
      SimConfig client sd c d) hown ⟨[], _, rfl, rfl, h0, .inl ⟨rfl, by simp⟩⟩ ?_ ?_ h
  · rintro qs a p - - ⟨tr, ⟨b, w⟩, hp, hx, hsim, hwork⟩
    have hw : w = [] := by
      rcases hwork with ⟨hw, _⟩ | ⟨hw, _⟩
      · exact hw.symm
      · exact hw
    subst hw
    have hnew := simConfig_packet hsim p
    by_cases hsd : sideFrom client p = sd
    · rw [if_pos hsd] at hnew
      refine ⟨tr ++ [.packet p], _, ?_, ?_, hnew⟩
      · rw [packetsOf_append, hp, List.filter_append]
        simp [packetsOf, hsd]
      · rw [exec_snoc, hx]
        rfl
    · rw [if_neg hsd] at hnew
      refine ⟨tr, _, ?_, hx, hnew⟩
      rw [hp, List.filter_append]
      simp [hsd]
  · rintro qs a j w hown ⟨tr, ⟨b, w'⟩, hp, hx, hsim, hwork⟩
    rcases hwork with ⟨hw, hjobs⟩ | ⟨hw, hjobs⟩
    · obtain rfl : j :: w = w' := hw
      refine ⟨tr ++ [.work], _, ?_, ?_, simConfig_own hsim (hjobs j (by simp))
        (fun i hi => hjobs i (List.mem_cons_of_mem _ hi)) hown⟩
      · rw [packetsOf_append, hp]
        simp [packetsOf]
      · rw [exec_snoc, hx]
        rfl
    · obtain rfl : w' = [] := hw
      exact ⟨tr, _, hp, hx, simConfig_other hsim (hjobs j (by simp))
        (fun i hi => hjobs i (List.mem_cons_of_mem _ hi)) hown⟩

end SimConfig

/-- A session just brought to `ESTABLISHED` by a clean handshake. -/
def ByHandshake (s : Session) : Prop :=
  ∃ src dst ssnId syn synack ack out, Handshake src dst syn synack ack ∧
    run (State.new src dst ssnId) [syn, synack, ack] = some ⟨s, out⟩

theorem ByHandshake.opened {s : Session} (h : ByHandshake s) : ∃ src isn, Opened src isn s := by
  obtain ⟨src, dst, ssnId, syn, synack, ack, out, hh, hrun⟩ := h
  obtain ⟨st, hst, ho⟩ := run_handshake hh ssnId
  rw [hrun, Option.some.injEq] at hst
  subst hst
  exact ⟨src, syn.seq, ho⟩

theorem sim_refl {src : Endpoint} {isn : UInt32} {s : Session} (h : Opened src isn s) (sd : Side) :
    Sim src sd ⟨s, []⟩ ⟨s, []⟩ where
  endpoint := ⟨h.endpoint, h.endpoint⟩
  past := by
    have hp : s.Past := ⟨by rw [h.status]; decide, by rw [h.status]; rintro ⟨⟩⟩
    exact ⟨hp, hp⟩
  base := by
    cases sd with
    | client => exact ⟨h.clientBase.1, h.clientBase.1⟩
    | server => exact ⟨h.serverBase, h.serverBase⟩
  baseSeq := rfl
  nextSeq := rfl
  fin := Iff.rfl
  chain k := by simp [SegMap.chain, h.segMap]
  nonempty k := by simp [h.segMap]
  accepted := rfl

/-- **The directions of a session do not interfere** when every drain of the run finds only segments
of its own direction: what is accepted of one endpoint, and where its stream stands, is what the
packets of this endpoint alone lead to. -/
theorem directions_independent {s : Session} (hs : ByHandshake s) {ps : List Packet}
    (hown : ∀ c, Visits ⟨s, []⟩ ps c → OwnDrain c) (sd : Side) :
    ∃ st st', run ⟨s, []⟩ ps = some st ∧
      run ⟨s, []⟩ (ps.filter fun p => s.sideOf p = sd) = some st' ∧
      acceptedFrom sd st.out = acceptedFrom sd st'.out ∧
      (st.ssn.stream sd).nextSeq = (st'.ssn.stream sd).nextSeq := by
  obtain ⟨src, isn, ho⟩ := hs.opened
  obtain ⟨st, hst⟩ := run_isSome ⟨s, []⟩ ps
  obtain ⟨tr, ⟨st', w⟩, hp, hx, hsim, hwork⟩ := exec_simConfig (sim_refl ho sd) hown hst
  have hw : w = [] := by
    rcases hwork with ⟨hw, _⟩ | ⟨hw, _⟩
    · exact hw.symm
    · exact hw
  subst hw
  refine ⟨st, st', hst, ?_, hsim.accepted, hsim.nextSeq⟩
  have hrun := run_eq_of_exec hx
  rw [hp] at hrun
  rw [← hrun]
  congr 2
  funext p
  rw [Session.sideOf, ho.endpoint, sideFrom]

/-- The handshake of the two hosts. -/
def handshake : List Packet := [pkt hostC SYN 100, pkt hostS (SYN ||| ACK) 500, pkt hostC ACK 101]

theorem handshake_clean :
    Handshake hostC hostS (pkt hostC SYN 100) (pkt hostS (SYN ||| ACK) 500) (pkt hostC ACK 101) := by
  constructor <;> decide

/-- Both sides send out of order, under different keys. -/
def early : List Packet :=
  [pkt hostC ACK 103 [3, 4], pkt hostS ACK 504 [7], pkt hostC ACK 101 [1, 2],
    pkt hostS ACK 501 [4, 5, 6]]

theorem directions_independent_early :
    ∃ s, ByHandshake s ∧ (∀ c, Visits ⟨s, []⟩ early c → OwnDrain c) ∧
      ∃ st st', run ⟨s, []⟩ early = some st ∧
        run ⟨s, []⟩ (early.filter fun p => s.sideOf p = .server) = some st' ∧
        acceptedFrom .server st.out = acceptedFrom .server st'.out ∧
        (st.ssn.stream .server).nextSeq = (st'.ssn.stream .server).nextSeq := by
  have hcheck : (run (State.new hostC hostS 1) handshake).map
      (fun st => ownDrains 40 ⟨⟨st.ssn, []⟩, []⟩ early) = some true := by decide
  obtain ⟨⟨s, out⟩, hst, hown⟩ := Option.map_eq_some_iff.mp hcheck
  have hs : ByHandshake s := ⟨_, _, 1, _, _, _, out, handshake_clean, hst⟩
  have hall : ∀ c, Visits ⟨s, []⟩ early c → OwnDrain c := by
    rintro c ⟨tr, htr, hx⟩
    exact ownDrain_of_ownDrains 40 hown htr hx
  exact ⟨s, hs, hall, directions_independent hs hall .server⟩

/-- The client's second segment comes first and is stored under the key 6. Five bytes of the server
take its stream to 6 as well: the segment is taken out and stored again, relative to the base of
the server. -/
def crossing : List Packet :=
  [pkt hostC ACK 106 [6, 7, 8, 9, 10], pkt hostS ACK 501 [1, 2, 3, 4, 5],
    pkt hostC ACK 101 [1, 2, 3, 4, 5]]

/-- **A packet of the server makes the client lose a segment.** -/
theorem server_packet_loses_client_segment :
    ∃ s, ByHandshake s ∧ ∃ st st', run ⟨s, []⟩ crossing = some st ∧
      run ⟨s, []⟩ (crossing.filter fun p => s.sideOf p = .client) = some st' ∧
      acceptedFrom .client st.out ≠ acceptedFrom .client st'.out ∧
      (st.ssn.stream .client).nextSeq = 6 ∧ (st'.ssn.stream .client).nextSeq = 11 := by
  have hrun : ((run (State.new hostC hostS 1) handshake).bind fun st =>
      (run ⟨st.ssn, []⟩ crossing).bind fun a =>
        (run ⟨st.ssn, []⟩ (crossing.filter fun p => st.ssn.sideOf p = .client)).map fun b =>
          (decide (acceptedFrom .client a.out ≠ acceptedFrom .client b.out),
            (a.ssn.stream .client).nextSeq, (b.ssn.stream .client).nextSeq))
      = some (true, 6, 11) := by decide
  obtain ⟨⟨s, out⟩, hst, h⟩ := Option.bind_eq_some_iff.mp hrun
  obtain ⟨a, ha, h⟩ := Option.bind_eq_some_iff.mp h
  obtain ⟨b, hb, h⟩ := Option.map_eq_some_iff.mp h
  rw [Prod.mk.injEq, Prod.mk.injEq, decide_eq_true_eq] at h
  exact ⟨s, ⟨_, _, 1, _, _, _, out, handshake_clean, hst⟩, a, b, ha, hb, h⟩

end PacketMachine.Tcp
