import PacketMachine.Decode.Reading
import PacketMachine.Machine.Dispatch
import PacketMachine.Setup.Builtin
import PacketMachine.Source.Progress

/-!
# The kernel thread, from libpcap to the callbacks

The loop body of `Kernel::thread_main` (`kernel.cc:101-131`) in full: the two counters, `init`,
`reset` and `decode`, the dispatch of the events, and the change requests. It is the `body` of the
two threads of `Source/Pipeline.lean`.

* The id of an event is the one that `Decoder::init` gives it for the built-in modules, so that
  `Kernel::on` (`kernel.cc:138-154`) finds the same number by the name.
* A callback may read values of the packet. Which ones is a function of the log of invocations
  (`reads`), so that over all of them every choice occurs.

Results:
* `eventId_injective`, `onName_eq`: `on` with the name of an event registers for that event.
* **`machine_sequential`**: after any interleaving with the capture thread, counters, decoder and
  handlers are those of a sequential run over the packets of libpcap, and the thread can always go
  on.
* `machine_drains`: behind `close` the loop body returns on every packet, so that the program ends.
* **`handler_sees_every_event`**: a handler that nobody stops is invoked once for every occurrence
  of its event.
-/

namespace PacketMachine.Machine

open PacketMachine.Lib
open PacketMachine.RingBuffer (RingSize)
open PacketMachine.Decode (Fault Key TcpConfig Worker)
open PacketMachine.Source (Frame Layout Received Matches System)

variable {τ : Type}

/-! ## Events and their ids -/

/-- `prop.event(i)->id()`. -/
def eventId (ev : Decode.Event) : EventId :=
  ((Setup.Decoder.build Setup.builtin).lookupEventId ev.name).toNat

/-- `Kernel::on`. -/
def Kernel.onName (k : Kernel) (eventName : String) :
    Except Setup.Exception (HandlerPtr × Kernel) :=
  let eid := (Setup.Decoder.build Setup.builtin).lookupEventId eventName
  if eid = -2 then .error ⟨.runTimeError, "no such event: " ++ eventName⟩
  else .ok (k.on eid.toNat)

/-- All events. -/
def events : List Decode.Event :=
  Decode.modules.map .mod ++ [.arpRequest, .arpReply, .dnsQuery, .dnsReply, .mdnsQuery, .mdnsReply,
    .tcpNewSession, .tcpEstablished, .tcpClosed]

theorem mem_events (ev : Decode.Event) : ev ∈ events := by
  cases ev with
  | mod m => cases m <;> decide
  | _ => decide

theorem event_name_injective : Function.Injective Decode.Event.name := by
  have hnodup : (events.map Decode.Event.name).Nodup := by decide +kernel
  exact fun a b h => List.inj_on_of_nodup_map hnodup (mem_events a) (mem_events b) h

/-- Every event has been defined under its name. -/
theorem registeredEvent (ev : Decode.Event) : Setup.RegisteredEvent Setup.builtin ev.name := by
  have hmod : ∀ m : Decode.Mod, Setup.builtin[m.name]? = some (Setup.moduleOf m) :=
    fun m => Setup.getElem?_builtin.mpr ⟨m, rfl, rfl⟩
  have hlocal : ∀ (m : Decode.Mod) (e : String), e ∈ Setup.localEvents m →
      Setup.RegisteredEvent Setup.builtin (Setup.dotted m.name e) := by
    intro m e he
    refine ⟨m.name, _, hmod m, .inr ⟨e, ?_, rfl⟩⟩
    exact mem_insertAll.mpr (by simpa using he)
  cases ev with
  | mod m => exact ⟨m.name, _, hmod m, .inl rfl⟩
  | arpRequest => exact hlocal .arp "request" (by decide)
  | arpReply => exact hlocal .arp "reply" (by decide)
  | dnsQuery => exact hlocal .dns "query" (by decide)
  | dnsReply => exact hlocal .dns "reply" (by decide)
  | mdnsQuery => exact hlocal .mdns "query" (by decide)
  | mdnsReply => exact hlocal .mdns "reply" (by decide)
  | tcpNewSession => exact hlocal .tcp "new_session" (by decide)
  | tcpEstablished => exact hlocal .tcp "established" (by decide)
  | tcpClosed => exact hlocal .tcp "closed" (by decide)

theorem lookup_eventId (ev : Decode.Event) :
    (Setup.Decoder.build Setup.builtin).lookupEventId ev.name = eventId ev := by
  obtain ⟨e, he, hname⟩ := Setup.registeredEvent_iff.mp (registeredEvent ev)
  obtain ⟨i, hi⟩ := List.getElem?_of_mem he
  rw [eventId, hname, Setup.lookupEventId_of_getElem? Setup.builtin_plain.mod hi]
  rfl

/-- No two events have one id. -/
theorem eventId_injective : Function.Injective eventId := by
  intro a b h
  have hname : ∀ ev : Decode.Event,
      (Setup.Decoder.build Setup.builtin).lookupEventName (eventId ev) = .ok ev.name := by
    intro ev
    rw [← lookup_eventId]
    exact Setup.lookupEventName_lookupEventId Setup.builtin_plain.mod (registeredEvent ev)
  have ha := hname a
  rw [h, hname b] at ha
  exact event_name_injective (Except.ok.inj ha).symm

/-- `on` with the name of an event. -/
theorem onName_eq (k : Kernel) (ev : Decode.Event) :
    k.onName ev.name = .ok (k.on (eventId ev)) := by
  unfold Kernel.onName
  rw [lookup_eventId]
  exact if_neg (by omega)

/-! ## The loop body -/

/-- `running_ = true`, at the start of the thread. -/
def Kernel.started (k : Kernel) : Kernel := { k with running := true }

/-- What the kernel thread has between two packets. -/
structure Thread (τ : Type) where
  recvPkt : Nat := 0
  recvSize : Nat := 0
  worker : Worker τ
  kernel : Kernel

/-- The body of the loop in `Kernel::thread_main`. -/
def Thread.body (cfg : TcpConfig τ) (beh : Behaviour) (reads : List HandlerPtr → List Key)
    (t : Thread τ) (r : Received) : Except Fault (Thread τ) := do
  let w ← t.worker.process cfg r.pkt
  let k := t.kernel.dispatch beh (w.prop.events.map eventId)
  let prop ← w.prop.reads r.pkt.mem (reads k.invoked)
  return {
    recvPkt := (t.recvPkt + 1) % 2 ^ 64
    recvSize := (t.recvSize + r.capLen) % 2 ^ 64
    worker := { w with prop }
    kernel := k.drain }

/-- The events of packets that a worker sees one after the other. -/
def eventsIn (cfg : TcpConfig τ) :
    Worker τ → List (Decode.Packet × List Key) → Except Fault (List (List Decode.Event))
  | _, [] => return []
  | w, u :: us => do
    let v ← w.process cfg u.1
    return v.prop.events :: (← eventsIn cfg (← w.use cfg u) us)

/-- The packets are those that libpcap gave. -/
def Gives (fs : List Frame) (us : List (Decode.Packet × List Key)) : Prop :=
  us.map (fun u => (u.1.data, u.1.tv)) = fs.map fun f => (f.data, f.tv)

/-- What the thread has after the packets `us`, with their events. -/
structure After (cfg : TcpConfig τ) (beh : Behaviour) (t : Thread τ) (fs : List Frame)
    (us : List (Decode.Packet × List Key)) (evs : List (List Decode.Event)) (t' : Thread τ) :
    Prop where
  gives : Gives fs us
  run : t.worker.run cfg us = .ok t'.worker
  events : eventsIn cfg t.worker us = .ok evs
  kernel : t'.kernel = (evs.map (·.map eventId)).foldl (Kernel.packet beh) t.kernel
  recvPkt : t.recvPkt < 2 ^ 64 → t'.recvPkt = (t.recvPkt + us.length) % 2 ^ 64
  recvSize : t.recvSize < 2 ^ 64 →
    t'.recvSize = (t.recvSize + (fs.map (·.data.length)).sum) % 2 ^ 64

section Body

variable {cfg : TcpConfig τ} {beh : Behaviour} {reads : List HandlerPtr → List Key}
  {t t' : Thread τ} {r : Received} {f : Frame} {fs : List Frame}

/-- One turn of the loop. -/
theorem body_eq (h : t.body cfg beh reads r = .ok t') : ∃ v keys,
    t.worker.process cfg r.pkt = .ok v ∧ t.worker.use cfg (r.pkt, keys) = .ok t'.worker ∧
      t'.kernel = t.kernel.packet beh (v.prop.events.map eventId) ∧
      t'.recvPkt = (t.recvPkt + 1) % 2 ^ 64 ∧ t'.recvSize = (t.recvSize + r.capLen) % 2 ^ 64 := by
  obtain ⟨v, hv, h⟩ := returns_of_bind h
  obtain ⟨q, hq, h⟩ := returns_of_bind h
  obtain rfl := Except.ok.inj h
  let k := t.kernel.dispatch beh (v.prop.events.map eventId)
  have huse : t.worker.use cfg (r.pkt, reads k.invoked) = .ok { v with prop := q } := by
    unfold Worker.use
    rw [hv]
    exact (congrArg (Except.map fun q => ({ v with prop := q } : Worker τ)) hq :)
  exact ⟨v, _, hv, huse, rfl, rfl, rfl⟩

/-- **The loop body comes to its end** on every packet, whatever was read before. -/
theorem body_returns (h : t.worker.prop.WF) (r : Received) :
    ∃ t', t.body cfg beh reads r = .ok t' := by
  obtain ⟨v, hv, -⟩ := Decode.process_returns cfg t.worker r.pkt
  let k := t.kernel.dispatch beh (v.prop.events.map eventId)
  obtain ⟨w, hw, -⟩ := @Decode.use_returns _ cfg _ h (r.pkt, reads k.invoked)
  obtain ⟨v', hv', hw⟩ := returns_of_bind hw
  obtain rfl := Except.ok.inj (hv.symm.trans hv')
  obtain ⟨q, hq, -⟩ := returns_of_bind hw
  obtain ⟨t', ht', -⟩ : Returns (t.body cfg beh reads r) fun _ => True :=
    .bind_ok hv (.bind_ok hq (returns_pure.mpr trivial))
  exact ⟨t', ht'⟩

/-- **The loop over packets**, by induction over what libpcap gave. -/
theorem run_after {rs : List Received} (hm : List.Forall₂ Matches fs rs) :
    ∀ {t : Thread τ}, rs.foldlM (Thread.body cfg beh reads) t = .ok t' →
      ∃ us evs, us.length = fs.length ∧ After cfg beh t fs us evs t' := by
  induction hm with
  | nil =>
    intro t h
    obtain rfl := Except.ok.inj h
    exact ⟨[], [], rfl, rfl, rfl, rfl, rfl, fun hlt => (Nat.mod_eq_of_lt hlt).symm,
      fun hlt => (Nat.mod_eq_of_lt hlt).symm⟩
  | @cons f r fs rs hf _ ih =>
    intro t h
    rw [List.foldlM_cons] at h
    obtain ⟨t₁, h₁, h⟩ := returns_of_bind h
    obtain ⟨v, keys, hprocess, huse, hkernel, hpkt, hsize⟩ := body_eq h₁
    obtain ⟨us, evs, hlen, ha⟩ := ih h
    refine ⟨(r.pkt, keys) :: us, v.prop.events :: evs, by simp [hlen], ?_, ?_, ?_, ?_, ?_, ?_⟩
    · unfold Gives
      rw [List.map_cons, List.map_cons, hf.data, hf.tv]
      exact congrArg (_ :: ·) ha.gives
    · exact (Worker.run_of_use huse _).trans ha.run
    · unfold eventsIn
      rw [hprocess, huse]
      exact (congrArg (· >>= fun l => pure (v.prop.events :: l)) ha.events :)
    · rw [ha.kernel, hkernel]
      rfl
    · intro _
      rw [ha.recvPkt (hpkt ▸ Nat.mod_lt _ (by decide)), hpkt, List.length_cons, Nat.mod_add_mod]
      congr 1
      omega
    · intro _
      rw [ha.recvSize (hsize ▸ Nat.mod_lt _ (by decide)), hsize, hf.capLen, List.map_cons,
        List.sum_cons, Nat.mod_add_mod, Nat.add_assoc]

end Body

/-! ## A handler that stays -/

/-- The call does not stop the handler. -/
def Call.Spares (p : HandlerPtr) (c : Call) : Prop := c ≠ .destroy p ∧ c ≠ .deactivate p

/-- The handler is active, is entered once, for its event, and no request is about it. -/
structure Stays (p : HandlerPtr) (e : EventId) (k : Kernel) : Prop where
  active : k.isActive p = true
  count : ∀ e', (k.handlers e').count (some p) = if e' = e then 1 else 0
  msgs : ∀ r ∈ k.msgs, r.ptr ≠ p

section Handler

variable {p : HandlerPtr} {e : EventId} {k k' : Kernel} {beh : Behaviour}

theorem Stays.lt (h : Stays p e k) : p < k.heap.length := isActive_lt h.active

/-- A request about another handler. -/
theorem Stays.change (h : Stays p e k) {r : ChangeRequest} (hr : r.ptr ≠ p) :
    Stays p e (r.change k).2 := by
  cases r with
  | add q =>
    change q ≠ p at hr
    refine ⟨h.active, fun e' => ?_, h.msgs⟩
    simp only [ChangeRequest.change, Kernel.addHandler]
    by_cases he : e' = evOf k.heap q
    · subst he
      rw [Function.update_self, List.count_append, List.count_singleton, h.count]
      simpa using hr
    · rw [Function.update_of_ne he, h.count]
  | delete q =>
    change q ≠ p at hr
    simp only [ChangeRequest.change, Kernel.deleteHandler]
    split
    · refine ⟨?_, fun e' => ?_, h.msgs⟩
      · exact (isActive_modify_of_ne _ k hr).trans h.active
      · by_cases he : e' = evOf k.heap q
        · subst he
          simp only [Function.update_self]
          rw [List.count_erase_of_ne (fun he => hr (Option.some.inj he).symm), h.count]
        · simp only [Function.update_of_ne he, h.count]
    · exact h

/-- **No call about other handlers, and no `activate`, stops it.** -/
theorem Stays.exec (h : Stays p e k) {c : Call} (hc : c.Spares p) : Stays p e (c.exec k) := by
  have hlt := h.lt
  cases c with
  | on eid =>
    have hnew : k.heap.length ≠ p := Nat.ne_of_gt hlt
    have happend : Stays p e { k with
        globalHdlrId := k.globalHdlrId + 1
        heap := k.heap ++ [HandlerEntity.new (k.globalHdlrId + 1) eid] } :=
      ⟨(isActive_append _ hlt).trans h.active, h.count, h.msgs⟩
    unfold Call.exec Kernel.on
    simp only
    split
    · refine ⟨happend.active, happend.count, fun r hr => ?_⟩
      rcases List.mem_append.mp hr with hr | hr
      · exact h.msgs r hr
      · rw [List.mem_singleton.mp hr]
        exact hnew
    · exact happend.change (r := .add k.heap.length) hnew
  | destroy q =>
    have hq : q ≠ p := fun he => hc.1 (he ▸ rfl)
    simp only [Call.exec]
    split
    · unfold Kernel.clear
      split
      · refine ⟨h.active, h.count, fun r hr => ?_⟩
        rcases List.mem_append.mp hr with hr | hr
        · exact h.msgs r hr
        · rw [List.mem_singleton.mp hr]
          exact hq
      · exact h.change (r := .delete q) hq
    · exact h
  | activate q => exact ⟨isActive_activate q h.active, h.count, h.msgs⟩
  | deactivate q =>
    have hq : q ≠ p := fun he => hc.2 (he ▸ rfl)
    exact ⟨(isActive_modify_of_ne _ k hq).trans h.active, h.count, h.msgs⟩

theorem Stays.calls (h : Stays p e k) {cs : List Call} (hcs : ∀ c ∈ cs, c.Spares p) :
    Stays p e (cs.foldl Call.exec k) := by
  induction cs generalizing k with
  | nil => exact h
  | cons c cs ih =>
    exact ih (h.exec (hcs c List.mem_cons_self)) fun c' hc' => hcs c' (List.mem_cons_of_mem _ hc')

/-- What dispatching does, for this handler: it is invoked `n` times more. -/
structure Sees (p : HandlerPtr) (e : EventId) (n : Nat) (k k' : Kernel) : Prop where
  stays : Stays p e k'
  running : k'.running = true
  handlers : k'.handlers = k.handlers
  invoked : k'.invoked.count p = k.invoked.count p + n

/-- One entry of a vector of handlers. -/
theorem Stays.visit (h : Stays p e k) (hr : k.running = true)
    (hbeh : ∀ log, ∀ c ∈ beh log, c.Spares p) (q : Option HandlerPtr) :
    Sees p e (if q = some p then 1 else 0) k (k.visit beh q) := by
  cases q with
  | none => exact ⟨h, hr, rfl, rfl⟩
  | some q =>
    simp only [Kernel.visit]
    by_cases ha : k.isActive q = true
    · rw [if_pos ha]
      have hlog : Stays p e { k with invoked := k.invoked ++ [q] } := ⟨h.active, h.count, h.msgs⟩
      obtain ⟨f1, f2, f3⟩ := calls_frame (k := { k with invoked := k.invoked ++ [q] })
        (beh (k.invoked ++ [q])) hr
      refine ⟨hlog.calls (hbeh _), f1, f3, ?_⟩
      unfold Kernel.invoke
      rw [f2, List.count_append, List.count_singleton]
      simp only [beq_iff_eq, Option.some.injEq]
    · have hq : some q ≠ some p := fun he => ha (Option.some.inj he ▸ h.active)
      rw [if_neg ha, if_neg hq]
      exact ⟨h, hr, rfl, rfl⟩

/-- The handlers of one event. -/
theorem Stays.visits (hbeh : ∀ log, ∀ c ∈ beh log, c.Spares p) :
    ∀ (hs : List (Option HandlerPtr)) {k : Kernel}, Stays p e k → k.running = true →
      Sees p e (hs.count (some p)) k (hs.foldl (Kernel.visit beh) k)
  | [], _, h, hr => ⟨h, hr, rfl, rfl⟩
  | q :: hs, k, h, hr => by
    have hv := h.visit hr hbeh q
    have hvs := Stays.visits hbeh hs hv.stays hv.running
    refine ⟨hvs.stays, hvs.running, hvs.handlers.trans hv.handlers, ?_⟩
    rw [List.foldl_cons, hvs.invoked, hv.invoked, List.count_cons]
    simp only [beq_iff_eq]
    omega

/-- The events of one packet. -/
theorem Stays.dispatch (hbeh : ∀ log, ∀ c ∈ beh log, c.Spares p) :
    ∀ (evs : List EventId) {k : Kernel}, Stays p e k → k.running = true →
      Sees p e (evs.count e) k (k.dispatch beh evs)
  | [], _, h, hr => ⟨h, hr, rfl, rfl⟩
  | e' :: evs, k, h, hr => by
    have hv := Stays.visits hbeh (k.handlers e') h hr
    have hvs := Stays.dispatch hbeh evs hv.stays hv.running
    refine ⟨hvs.stays, hvs.running, hvs.handlers.trans hv.handlers, ?_⟩
    have hinvoked := hvs.invoked
    unfold Kernel.dispatch at hinvoked ⊢
    rw [List.foldl_cons, hinvoked, hv.invoked, h.count, List.count_cons]
    simp only [beq_iff_eq]
    omega

/-- The requests, none of which is about the handler. -/
theorem Stays.drain (h : Stays p e k) : Stays p e k.drain := by
  unfold Kernel.drain
  generalize hrs : k.msgs = rs
  induction rs generalizing k with
  | nil => exact h
  | cons r rs ih =>
    have hmem : ∀ r' ∈ r :: rs, r'.ptr ≠ p := hrs ▸ h.msgs
    have hrest : Stays p e { k with msgs := rs } :=
      ⟨h.active, h.count, fun r' hr' => hmem r' (List.mem_cons_of_mem _ hr')⟩
    exact ih (hrest.change (hmem r List.mem_cons_self))
      (change_sameBut { k with msgs := rs } r).msgs

/-- **Packet after packet**, the handler is invoked for every occurrence of its event. -/
theorem Stays.packets (hbeh : ∀ log, ∀ c ∈ beh log, c.Spares p) :
    ∀ (pkts : List (List EventId)) {k : Kernel}, Stays p e k → k.running = true →
      (pkts.foldl (Kernel.packet beh) k).invoked.count p =
        k.invoked.count p + (pkts.map (·.count e)).sum
  | [], _, _, _ => rfl
  | evs :: pkts, k, h, hr => by
    have hd := Stays.dispatch hbeh evs h hr
    obtain ⟨-, -, hrunning, hinvoked, -, -⟩ := drain_spec (k.dispatch beh evs)
    have ih := Stays.packets hbeh pkts hd.stays.drain (hrunning.trans hd.running)
    rw [List.foldl_cons, List.map_cons, List.sum_cons]
    unfold Kernel.packet at ih ⊢
    rw [ih, hinvoked, hd.invoked, Nat.add_assoc]

/-- `on`, before the thread is started. -/
theorem stays_on (hi : Inv k) (hr : k.running = false) (eid : EventId) :
    Stays (k.on eid).1 eid (k.on eid).2 := by
  have hmsgs := hi.idle hr
  have hfresh : ∀ e', some k.heap.length ∉ k.handlers e' := by
    intro e' hm
    have hwf := hi.wf
    unfold Kernel.virt Kernel.pending at hwf
    rw [hmsgs] at hwf
    exact absurd (hwf.lt e' k.heap.length (List.reduceOption_mem_iff.mpr hm)) (Nat.lt_irrefl _)
  unfold Kernel.on
  simp only [hr, Bool.false_eq_true, if_false]
  refine ⟨?_, fun e' => ?_, by simp [Kernel.addHandler, hmsgs]⟩
  · simp [Kernel.addHandler, Kernel.isActive, HandlerEntity.new]
  · simp only [Kernel.addHandler, evOf_new]
    by_cases he : e' = eid
    · subst he
      rw [Function.update_self, List.count_append, List.count_eq_zero.mpr (hfresh e')]
      simp
    · rw [Function.update_of_ne he, List.count_eq_zero.mpr (hfresh e'), if_neg he]

end Handler

/-! ## The whole program -/

section Machine

variable {cfg : TcpConfig τ} {beh : Behaviour} {reads : List HandlerPtr → List Key}
  {tcp : Decode.TcpState τ} {k₀ : Kernel} {N : RingSize} {lay : Layout}
  {s₀ s : System (Thread τ)} {tr : List Source.Action}

/-- A thread that has worked on packets has a well-formed property. -/
theorem wf_of_run {rs : List Received} {fs : List Frame} {t : Thread τ}
    (hm : List.Forall₂ Matches fs rs)
    (h : rs.foldlM (Thread.body cfg beh reads) { worker := { tcp }, kernel := k₀ } = .ok t) :
    t.worker.prop.WF := by
  obtain ⟨us, evs, -, ha⟩ := run_after hm h
  obtain ⟨w, hw, hwf⟩ := @Decode.run_returns _ cfg ⟨tcp, {}⟩ Decode.Property.wf_empty us
  obtain rfl := Except.ok.inj (hw.symm.trans ha.run)
  exact hwf

/-- **The program comes to its end in every schedule**, once the channel is closed: the loop body
returns on every packet. -/
theorem machine_drains (h₀ : Source.Start s₀ { worker := { tcp }, kernel := k₀ })
    (h : exec (System.step N lay (Thread.body cfg beh reads)) s₀ tr = some s)
    (hp : s.ring.prod = .closed) :
    ∀ tr' t, exec (System.step N lay (Thread.body cfg beh reads)) s tr' = some t →
      tr'.length + t.rank = s.rank ∧
      (t.rank ≠ 0 → ∃ a t', System.step N lay (Thread.body cfg beh reads) t a = some t') ∧
      (t.rank = 0 → t.ring.cons = .done ∧ (t.input = .returned ∨ ∃ text, t.input = .threw text) ∧
        ((s.ring.cons.sawEmpty → ¬ Source.LatePush tr) →
          List.Forall₂ Matches s.delivered t.worked)) := by
  intro tr' t ht
  obtain ⟨hclosing, -, -, hlen⟩ := (Source.closing_of_exec h₀ h hp).exec ht
  have hwf := wf_of_run hclosing.inv.matched hclosing.inv.kernel
  exact ⟨hlen, Source.rank_progress hclosing fun f _ r _ => body_returns hwf r,
    Source.exec_ended h₀ h hp ht⟩

/-- **A handler sees every event.** It was registered by the name of an event before the threads
were started, and no call from then on deactivates or destroys it. In every interleaving, and
whatever other handlers the callbacks add, destroy or switch, its callback has been invoked as often
as the event occurs in the packets that the thread is done with. -/
theorem handler_sees_every_event {setup cs : List Call} {ev : Decode.Event} {p : HandlerPtr}
    {k₁ : Kernel} (hon : (setup.foldl Call.exec Kernel.new).onName ev.name = .ok (p, k₁))
    (hcs : ∀ c ∈ cs, c.Spares p) (hbeh : ∀ log, ∀ c ∈ beh log, c.Spares p)
    (h₀ : Source.Start s₀ { worker := { tcp }, kernel := (cs.foldl Call.exec k₁).started })
    (h : exec (System.step N lay (Thread.body cfg beh reads)) s₀ tr = some s) :
    ∃ us evs, us.length ≤ s.delivered.length ∧ s.delivered.length ≤ us.length + N.size + 1 ∧
      Gives (s.delivered.take us.length) us ∧ eventsIn cfg { tcp } us = .ok evs ∧
      s.kernel.kernel.invoked.count p = (evs.map (·.count ev)).sum := by
  obtain ⟨i1, -, i3, i4, -⟩ := exec_calls inv_new setup
  rw [onName_eq] at hon
  have hpair := Except.ok.inj hon
  have hk : ((setup.foldl Call.exec Kernel.new).on (eventId ev)).2 = k₁ := congrArg Prod.snd hpair
  have hstays : Stays p (eventId ev) (cs.foldl Call.exec k₁) := by
    have hon := stays_on i1 i3 (eventId ev)
    rw [hpair] at hon
    exact hon.calls hcs
  have hinvoked : (cs.foldl Call.exec k₁).invoked = [] := by
    obtain ⟨-, f2, -, -⟩ := exec_frame (setup.foldl Call.exec Kernel.new) (.on (eventId ev))
    obtain ⟨-, -, -, c4, -⟩ := exec_calls (i1.exec (.on (eventId ev))) cs
    rw [← hk]
    exact (c4.trans f2).trans i4
  have hinv := Source.exec_inv h₀ h
  obtain ⟨us, evs, hlen, ha⟩ := run_after hinv.matched hinv.kernel
  have hus : us.length = s.worked.length := hlen.trans hinv.matched.length_eq
  refine ⟨us, evs, hus ▸ hinv.behind.1, hus ▸ hinv.behind.2, by rw [hus]; exact ha.gives,
    ha.events, ?_⟩
  have hstart : Stays p (eventId ev) (cs.foldl Call.exec k₁).started :=
    ⟨hstays.active, hstays.count, hstays.msgs⟩
  rw [ha.kernel]
  refine (Stays.packets hbeh _ hstart rfl).trans ?_
  rw [show (cs.foldl Call.exec k₁).started.invoked = [] from hinvoked, List.count_nil,
    Nat.zero_add, List.map_map]
  refine congrArg List.sum (List.map_congr_left fun l _ => ?_)
  exact List.count_map_of_injective l eventId eventId_injective ev

end Machine

/-! ## A run -/

/-- Callbacks that do nothing. -/
def idle : Behaviour := fun _ => []

/-- A thread with a handler for every frame. -/
def frameThread : Thread (List (Int × List UInt8 × Tcp.Session)) where
  worker := { tcp := { table := [] } }
  kernel := (Kernel.new.on (eventId (.mod .ethernet))).2.started

/-- The thread is in its loop body, and can end it. -/
theorem exec_frameThread : ∃ s, exec (System.step RingBuffer.ringTwo Source.flatLayout
    (Thread.body Decode.statelessConfig idle fun _ => [])) (Source.fileStart frameThread)
    (Source.runPulled ++ [.work]) = some s := by
  have h : (exec (System.step RingBuffer.ringTwo Source.flatLayout
      (Thread.body Decode.statelessConfig idle fun _ => [])) (Source.fileStart frameThread)
      Source.runPulled).map (fun s => s.phase) = some (.work 1) := by decide
  obtain ⟨s, hs, he⟩ := Option.map_eq_some_iff.mp h
  have hinv := Source.exec_inv (Source.start_fileStart frameThread) hs
  have hwf := wf_of_run hinv.matched hinv.kernel
  obtain ⟨t, ht⟩ := Source.work_progress hinv (fun f _ r _ => body_returns hwf r) he
  exact ⟨t, by rw [exec_snoc, hs]; exact ht⟩

theorem handler_sees_every_event_frameThread :
    ∃ s, exec (System.step RingBuffer.ringTwo Source.flatLayout
        (Thread.body Decode.statelessConfig idle fun _ => [])) (Source.fileStart frameThread)
        (Source.runPulled ++ [.work]) = some s ∧
      ∃ us evs, us.length ≤ s.delivered.length ∧ s.delivered.length ≤ us.length + 2 + 1 ∧
        Gives (s.delivered.take us.length) us ∧
        eventsIn Decode.statelessConfig { tcp := { table := [] } } us = .ok evs ∧
        s.kernel.kernel.invoked.count 0 = (evs.map (·.count (.mod .ethernet))).sum := by
  obtain ⟨s, hs⟩ := exec_frameThread
  have hon : (([] : List Call).foldl Call.exec Kernel.new).onName (Decode.Event.mod .ethernet).name
      = .ok _ := onName_eq _ (.mod .ethernet)
  have hcalls : ∀ c ∈ ([] : List Call), c.Spares 0 := nofun
  exact ⟨s, hs, handler_sees_every_event hon hcalls (fun _ _ hc => absurd hc List.not_mem_nil)
    (Source.start_fileStart frameThread) hs⟩

end PacketMachine.Machine
