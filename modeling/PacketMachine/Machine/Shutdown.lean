import PacketMachine.Channel.MsgQueue
import PacketMachine.Machine.Dispatch

/-!
# The end of `thread_main`: requests of other threads

`Kernel::thread_main` (`kernel.cc:92-132`) interleaved with calls of `Kernel::on` and
`Kernel::clear(HandlerPtr)` from any number of other threads, as a step function. `msg_channel_` is
the `MsgQueue` of `Channel/MsgQueue.lean` with all its atomic actions.

* `Tid` names the other threads, `none : Option Tid` the kernel thread, whose callbacks make calls
  as well. A call is in two parts: it makes its request after it has loaded `running_`, and then goes
  through `push`. It has returned when its request is in `completed`.
* A call that loads `running_` false changes `handlers_` itself and makes no request; no such call is
  an action here. The calls before the thread starts are the `setup`.
* A thread has a `HandlerPtr` only when `on` has returned it (`State.returned`).
* A packet is given by its events. `pull` on the packet channel returns any packet, or `nullptr` at
  any time (the channel is closed by the capture thread).
* `Kernel.msgs`, the queue of the sequential model, stays empty; `State.applied` records the requests
  `change` was called for, and no action reads it.

Results:
* `Registered`: the handlers in `handlers_`, those destroyed and those still to be added are told
  apart by what has been applied.
* `Inv`, `inv_step`: the requests are applied in the order of the lock.
* `returned_requests_applied`: when the loop is left with `has_msg_` down and no request is announced
  afterwards, every request whose call returned has been applied. Otherwise one can be lost.
-/

namespace PacketMachine.Shutdown

open PacketMachine.Lib
open PacketMachine.Machine

/-! ## The threads -/

/-- `Kernel::on` up to the test of `running_`. -/
def make (k : Kernel) (eid : EventId) : Kernel :=
  { k with
    globalHdlrId := k.globalHdlrId + 1
    heap := k.heap ++ [HandlerEntity.new (k.globalHdlrId + 1) eid] }

/-- `Kernel::on` makes the entity and then asks for it, or adds it at once. -/
theorem on_eq (k : Kernel) (eid : EventId) :
    k.on eid = if k.running then (k.heap.length,
        { make k eid with msgs := k.msgs ++ [.add k.heap.length] })
      else (k.heap.length, ((make k eid).addHandler k.heap.length).2) := rfl

/-- Where the kernel thread stands in `thread_main`. -/
inductive Phase where
  /-- At `running_ = true`. -/
  | entry
  /-- At `pkt_channel_->pull()`. -/
  | pull
  /-- At the loop over the events, with `evs` still to come. -/
  | event (evs : List EventId)
  /-- At the loop over the handlers of an event, with `ps` still to come. -/
  | handler (ps : List (Option HandlerPtr)) (evs : List EventId)
  /-- In a callback that still makes the calls `cs`. -/
  | callback (cs : List Call) (ps : List (Option HandlerPtr)) (evs : List EventId)
  /-- In `push`, called from a callback. -/
  | push (cs : List Call) (ps : List (Option HandlerPtr)) (evs : List EventId)
  /-- At `if (has_msg())`. -/
  | ifMsg
  /-- At `while (has_msg())`. -/
  | whileMsg
  /-- At `req = pull()`. -/
  | pullMsg
  /-- At `req->change(this)`. -/
  | change (req : ChangeRequest)
  /-- Has left the loop, at `running_ = false`. -/
  | stop
  /-- Has returned. -/
  | done
  deriving DecidableEq, Repr

/-- The kernel, its message channel, where its thread stands, the number of handlers made before
the thread started, and the requests applied so far. -/
structure State (Tid : Type) where
  kernel : Kernel
  queue : MsgQueue.State (Option Tid) ChangeRequest
  phase : Phase
  before : Nat
  applied : List ChangeRequest

/-- What happens. -/
inductive Action (Tid : Type) where
  /-- The kernel thread's `pkt_channel_->pull()` returns a packet with these events, or `nullptr`. -/
  | pull (pkt : Option (List EventId))
  /-- Any other step of the kernel thread outside the message channel. -/
  | thread
  /-- A step inside `msg_channel_`, of any thread. -/
  | queue (a : MsgQueue.Action (Option Tid) ChangeRequest)
  /-- Thread `t` calls `on` and finds `running_` true. -/
  | on (t : Tid) (eid : EventId)
  /-- Thread `t` calls `clear(ptr)` and finds `running_` true. -/
  | clear (t : Tid) (ptr : HandlerPtr)
  /-- Another thread calls `activate` of a handler. -/
  | activate (ptr : HandlerPtr)
  /-- Another thread calls `deactivate` of a handler. -/
  | deactivate (ptr : HandlerPtr)
  deriving DecidableEq, Repr

section Step

variable {Tid : Type}

/-- `on` has returned the handler, so that a thread can have it. -/
def State.returned (s : State Tid) (p : HandlerPtr) : Prop :=
  p < s.before ∨ .add p ∈ s.queue.completed

instance (s : State Tid) (p : HandlerPtr) : Decidable (s.returned p) :=
  inferInstanceAs (Decidable (_ ∨ _))

/-- The kernel thread moves to `ph`. -/
def State.goto (s : State Tid) (ph : Phase) : State Tid := { s with phase := ph }

/-- A change of the flags of a handler. -/
def State.modify (s : State Tid) (p : HandlerPtr) (f : HandlerEntity → HandlerEntity) : State Tid :=
  { s with kernel := { s.kernel with heap := s.kernel.heap.modify p f } }

variable [DecidableEq Tid]

/-- Thread `t` calls `msg_channel_->push(req)`. -/
def State.request (s : State Tid) (t : Option Tid) (req : ChangeRequest) : Option (State Tid) :=
  (MsgQueue.step s.queue (.push t req)).map fun q => { s with queue := q }

/-- `Kernel::on` on thread `t`, up to the call of `push`. -/
def State.on (s : State Tid) (t : Option Tid) (eid : EventId) : Option (State Tid) :=
  if s.kernel.running then
    State.request { s with kernel := make s.kernel eid } t (.add s.kernel.heap.length)
  else none

/-- `Kernel::clear(HandlerPtr)` on thread `t`, up to the call of `push`. -/
def State.clear (s : State Tid) (t : Option Tid) (p : HandlerPtr) : Option (State Tid) :=
  if s.kernel.running ∧ s.returned p then s.request t (.delete p) else none

/-- A callback makes the call `c`, then `cs`. A handler that `on` has not returned has no `Handler`
object to call. -/
def State.call (s : State Tid) (c : Call) (cs : List Call) (ps : List (Option HandlerPtr))
    (evs : List EventId) : Option (State Tid) :=
  match c with
  | .on eid => (s.goto (.push cs ps evs)).on none eid
  | .destroy p =>
    if s.returned p then (s.goto (.push cs ps evs)).clear none p
    else some (s.goto (.callback cs ps evs))
  | .activate p =>
    if s.returned p then some ((s.goto (.callback cs ps evs)).modify p fun h => h.activate.2)
    else some (s.goto (.callback cs ps evs))
  | .deactivate p =>
    if s.returned p then some ((s.goto (.callback cs ps evs)).modify p fun h => h.deactivate.2)
    else some (s.goto (.callback cs ps evs))

/-- The kernel thread's steps outside the two channels. -/
def State.thread (beh : Behaviour) (s : State Tid) : Option (State Tid) :=
  match s.phase with
  | .entry => some { s with kernel := { s.kernel with running := true }, phase := .pull }
  | .event [] => some (s.goto .ifMsg)
  | .event (e :: evs) => some (s.goto (.handler (s.kernel.handlers e) evs))
  | .handler [] evs => some (s.goto (.event evs))
  | .handler (none :: ps) evs => some (s.goto (.handler ps evs))
  | .handler (some p :: ps) evs =>
    if s.kernel.isActive p then some { s with
      kernel := { s.kernel with invoked := s.kernel.invoked ++ [p] }
      phase := .callback (beh (s.kernel.invoked ++ [p])) ps evs }
    else some (s.goto (.handler ps evs))
  | .callback [] ps evs => some (s.goto (.handler ps evs))
  | .callback (c :: cs) ps evs => s.call c cs ps evs
  | .push cs ps evs => match s.queue.producer none with
    | .idle => some (s.goto (.callback cs ps evs))
    | _ => none
  | .change req => some { s with
      kernel := (req.change s.kernel).2, phase := .whileMsg, applied := s.applied ++ [req] }
  | .stop => some { s with kernel := { s.kernel with running := false }, phase := .done }
  | _ => none

/-- Where the kernel thread stands after an action inside the message channel. The actions of `push`
are those of other threads, or of the callback the kernel thread is in. -/
def Phase.after (q : MsgQueue.State (Option Tid) ChangeRequest) :
    Phase → MsgQueue.Action (Option Tid) ChangeRequest → Option Phase
  | ph, .lock _ => some ph
  | ph, .store _ => some ph
  | ph, .flag _ => some ph
  | ph, .unlock _ => some ph
  | .ifMsg, .load => some (if q.hasMsg then .whileMsg else .pull)
  | .whileMsg, .load => some (if q.hasMsg then .pullMsg else .pull)
  | .pullMsg, .pull => some .pullMsg
  | .pullMsg, .pop => some .pullMsg
  | .pullMsg, .settle => some .pullMsg
  | .pullMsg, .give => match q.consumer with
    | .settled req => some (.change req)
    | _ => none
  | _, _ => none

/-- One atomic step. -/
def step (beh : Behaviour) (s : State Tid) : Action Tid → Option (State Tid)
  | .pull pkt => match s.phase with
    | .pull => some (s.goto (match pkt with
      | some evs => .event evs
      | none => .stop))
    | _ => none
  | .thread => s.thread beh
  | .queue a => (MsgQueue.step s.queue a).bind fun q =>
      (s.phase.after s.queue a).map fun ph => { s with queue := q, phase := ph }
  | .on t eid => s.on (some t) eid
  | .clear t p => s.clear (some t) p
  | .activate p => if s.returned p then some (s.modify p fun h => h.activate.2) else none
  | .deactivate p => if s.returned p then some (s.modify p fun h => h.deactivate.2) else none

/-- A kernel set up by the calls `setup`, before its thread runs. -/
def start (setup : List Call) : State Tid where
  kernel := setup.foldl Call.exec Kernel.new
  queue := MsgQueue.init
  phase := .entry
  before := (setup.foldl Call.exec Kernel.new).heap.length
  applied := []

end Step

/-! ## Handlers

What `add_handler`, `delete_handler` and the flags keep, given which handlers have been added. -/

/-- The entity has been destroyed. -/
def Destroyed (k : Kernel) (p : HandlerPtr) : Prop :=
  ∃ h, k.heap[p]? = some h ∧ h.destroyed = true

/-- `known` are the handlers that have been added to `handlers_`: each of them is in the vector of
its event, once, until it is destroyed. -/
structure Registered (known : HandlerPtr → Prop) (k : Kernel) : Prop where
  lt : ∀ p, known p → p < k.heap.length
  mem : ∀ e p, some p ∈ k.handlers e → known p ∧ evOf k.heap p = e
  once : ∀ e p, (k.handlers e).count (some p) ≤ 1
  alive : ∀ p, known p → some p ∈ k.handlers (evOf k.heap p) ∨ Destroyed k p
  dead : ∀ p, Destroyed k p → known p ∧ (∀ e, some p ∉ k.handlers e) ∧ k.isActive p = false

section Handlers

variable {known known' : HandlerPtr → Prop} {k : Kernel} {p : HandlerPtr}

theorem Registered.congr (h : Registered known k) (hk : ∀ q, known q ↔ known' q) :
    Registered known' k := by
  have : known = known' := funext fun q => propext (hk q)
  exact this ▸ h

/-- Only the vectors and the entities matter. -/
theorem Registered.of_eq {k' : Kernel} (h : Registered known k) (hh : k'.handlers = k.handlers)
    (hp : k'.heap = k.heap) : Registered known k' := by
  obtain ⟨lt, mem, once, alive, dead⟩ := h
  unfold Destroyed Kernel.isActive at *
  rw [← hp] at lt mem alive dead
  rw [← hh] at mem once alive dead
  exact ⟨lt, mem, once, alive, dead⟩

/-- `Kernel::add_handler`, for a handler that has not been added. -/
theorem Registered.add (h : Registered known k) (hp : p < k.heap.length) (hn : ¬ known p) :
    Registered (fun q => known q ∨ q = p) (k.addHandler p).2 := by
  have hold : ∀ e, some p ∉ k.handlers e := fun e hm => hn (h.mem e p hm).1
  have hmem : ∀ e q, some q ∈ (k.addHandler p).2.handlers e ↔
      some q ∈ k.handlers e ∨ q = p ∧ e = evOf k.heap p := by
    intro e q
    by_cases he : e = evOf k.heap p
    · subst he
      simp [Kernel.addHandler]
    · simp [Kernel.addHandler, he]
  refine ⟨?_, ?_, ?_, ?_, ?_⟩
  · rintro q (hq | rfl)
    · exact h.lt q hq
    · exact hp
  · intro e q hq
    rcases (hmem e q).mp hq with hq | ⟨rfl, rfl⟩
    · exact ⟨.inl (h.mem e q hq).1, (h.mem e q hq).2⟩
    · exact ⟨.inr rfl, rfl⟩
  · intro e q
    by_cases he : e = evOf k.heap p
    · subst he
      simp only [Kernel.addHandler, Function.update_self, List.count_append]
      by_cases hq : q = p
      · subst hq
        simp [List.count_eq_zero.mpr (hold _)]
      · simpa [List.count_cons, Ne.symm hq] using h.once _ q
    · simpa [Kernel.addHandler, he] using h.once e q
  · rintro q (hq | rfl)
    · exact (h.alive q hq).imp_left fun hm => (hmem _ q).mpr (.inl hm)
    · exact .inl ((hmem _ q).mpr (.inr ⟨rfl, rfl⟩))
  · intro q hq
    obtain ⟨d1, d2, d3⟩ := h.dead q hq
    refine ⟨.inl d1, fun e hm => ?_, d3⟩
    rcases (hmem e q).mp hm with hm | ⟨rfl, -⟩
    · exact d2 e hm
    · exact hn d1

theorem destroyed_modify (k : Kernel) (p q : HandlerPtr) {f : HandlerEntity → HandlerEntity}
    (hf : ∀ h, h.destroyed = true → (f h).destroyed = true) (hd : Destroyed k q) :
    Destroyed { k with heap := k.heap.modify p f } q := by
  obtain ⟨h, hq, hh⟩ := hd
  by_cases hpq : p = q
  · exact ⟨f h, by simp [hq, hpq], hf h hh⟩
  · exact ⟨h, by simp [hq, hpq], hh⟩

/-- A change of the flags that leaves a destroyed handler alone. -/
theorem Registered.modify (h : Registered known k) {f : HandlerEntity → HandlerEntity}
    (hev : ∀ h, (f h).evId = h.evId) (hd : ∀ h, (f h).destroyed = h.destroyed)
    (ha : ∀ h, h.destroyed = true → (f h).active = h.active) :
    Registered known { k with heap := k.heap.modify p f } := by
  have hdes : ∀ q, Destroyed { k with heap := k.heap.modify p f } q → Destroyed k q := by
    rintro q ⟨g, hq, hg⟩
    simp only [List.getElem?_modify, Option.map_eq_map, Option.map_eq_some_iff] at hq
    obtain ⟨g', hq', rfl⟩ := hq
    refine ⟨g', hq', ?_⟩
    split at hg
    · rwa [hd] at hg
    · exact hg
  refine ⟨?_, ?_, h.once, ?_, ?_⟩
  · simpa using h.lt
  · intro e q hq
    rw [evOf_modify hev]
    exact h.mem e q hq
  · intro q hq
    rw [evOf_modify hev]
    exact (h.alive q hq).imp_right (destroyed_modify k p q fun h hh => (hd h).trans hh)
  · intro q hq
    obtain ⟨g, hg, hgd⟩ := hdes q hq
    obtain ⟨d1, d2, d3⟩ := h.dead q ⟨g, hg, hgd⟩
    refine ⟨d1, d2, ?_⟩
    simp only [Kernel.isActive, hg] at d3
    simp only [Kernel.isActive, List.getElem?_modify, hg, Option.map_eq_map, Option.map_some]
    split
    · rw [ha g hgd]
      exact d3
    · exact d3

/-- The entities after `delete_handler`: its handler is destroyed and the others are untouched. -/
theorem delete_heap {h : HandlerEntity} (hp : k.heap[p]? = some h) (hd : h.destroyed = false)
    (q : HandlerPtr) : (k.heap.modify p fun h => h.destroy.2)[q]? =
      if q = p then some { h with active := false, destroyed := true } else k.heap[q]? := by
  rw [List.getElem?_modify]
  by_cases hq : q = p
  · subst hq
    simp [hp, HandlerEntity.destroy, hd]
  · simp [hq, Ne.symm hq]

/-- `Kernel::delete_handler`, for a handler that has been added. -/
theorem Registered.delete (h : Registered known k) (hp : known p) :
    Registered known (k.deleteHandler p).2 ∧ Destroyed (k.deleteHandler p).2 p ∧
      ∀ q, q ≠ p → (Destroyed (k.deleteHandler p).2 q ↔ Destroyed k q) := by
  by_cases hm : some p ∈ k.handlers (evOf k.heap p)
  case neg =>
    have hsame : (k.deleteHandler p).2 = k := by simp [Kernel.deleteHandler, hm]
    rw [hsame]
    exact ⟨h, (h.alive p hp).resolve_left hm, fun _ _ => Iff.rfl⟩
  -- the handler is in its vector, so it has not been destroyed
  have hlive : ¬ Destroyed k p := fun hd => (h.dead p hd).2.1 _ hm
  obtain ⟨g, hg⟩ : ∃ g, k.heap[p]? = some g := ⟨_, List.getElem?_eq_getElem (h.lt p hp)⟩
  have hgd : g.destroyed = false := by
    rw [← Bool.not_eq_true]
    exact fun hd => hlive ⟨g, hg, hd⟩
  have hheap := delete_heap hg hgd
  have hev := deleteHandler_evOf k p
  have hlen := (change_sameBut k (.delete p)).heap_length
  simp only [ChangeRequest.change] at hlen
  have hother : ∀ q, q ≠ p → (Destroyed (k.deleteHandler p).2 q ↔ Destroyed k q) := by
    intro q hq
    simp [Destroyed, Kernel.deleteHandler, hm, hheap, hq]
  have hself : Destroyed (k.deleteHandler p).2 p :=
    ⟨{ g with active := false, destroyed := true }, by simp [Kernel.deleteHandler, hm, hheap], rfl⟩
  have hgone : ∀ e, some p ∉ (k.deleteHandler p).2.handlers e := by
    intro e
    by_cases he : e = evOf k.heap p
    · subst he
      have := h.once (evOf k.heap p) p
      simp only [Kernel.deleteHandler, hm, if_true, Function.update_self]
      rw [← List.count_eq_zero, List.count_erase_self]
      omega
    · simp only [Kernel.deleteHandler, hm, if_true, Function.update_of_ne he]
      exact fun hmem => he (h.mem e p hmem).2.symm
  have hmem : ∀ e q, q ≠ p → (some q ∈ (k.deleteHandler p).2.handlers e ↔
      some q ∈ k.handlers e) := by
    intro e q hq
    by_cases he : e = evOf k.heap p
    · subst he
      simp only [Kernel.deleteHandler, hm, if_true, Function.update_self]
      exact List.mem_erase_of_ne (by simpa using hq)
    · simp [Kernel.deleteHandler, hm, he]
  refine ⟨⟨?_, ?_, ?_, ?_, ?_⟩, hself, hother⟩
  · intro q hq
    rw [hlen]
    exact h.lt q hq
  · intro e q hq
    have hqp : q ≠ p := fun he => hgone e (he ▸ hq)
    rw [hev]
    exact h.mem e q ((hmem e q hqp).mp hq)
  · intro e q
    by_cases he : e = evOf k.heap p
    · subst he
      simp only [Kernel.deleteHandler, hm, if_true, Function.update_self]
      exact (List.erase_sublist.count_le _).trans (h.once _ q)
    · simpa [Kernel.deleteHandler, hm, he] using h.once e q
  · intro q hq
    by_cases hqp : q = p
    · exact .inr (hqp ▸ hself)
    · rw [hev]
      exact (h.alive q hq).imp (hmem _ q hqp).mpr (hother q hqp).mpr
  · intro q hq
    by_cases hqp : q = p
    · subst hqp
      exact ⟨hp, hgone, by simp [Kernel.isActive, Kernel.deleteHandler, hm, hheap]⟩
    · obtain ⟨d1, d2, d3⟩ := h.dead q ((hother q hqp).mp hq)
      refine ⟨d1, fun e hmq => d2 e ((hmem e q hqp).mp hmq), ?_⟩
      simpa [Kernel.isActive, Kernel.deleteHandler, hm, hheap, hqp] using d3

theorem destroyed_make (k : Kernel) (eid : EventId) (p : HandlerPtr) :
    Destroyed (make k eid) p ↔ Destroyed k p := by
  unfold Destroyed make
  rcases Nat.lt_trichotomy p k.heap.length with hp | rfl | hp
  · rw [List.getElem?_append_left hp]
  · simp [HandlerEntity.new]
  · simp [List.getElem?_eq_none (show (k.heap ++ [HandlerEntity.new (k.globalHdlrId + 1)
      eid]).length ≤ p by simp; omega), List.getElem?_eq_none hp.le]

/-- A new entity that has not been added. -/
theorem Registered.make (h : Registered known k) (eid : EventId) :
    Registered known (Shutdown.make k eid) := by
  have hev : ∀ q, known q → evOf (Shutdown.make k eid).heap q = evOf k.heap q :=
    fun q hq => evOf_append (h.lt q hq) _
  refine ⟨?_, ?_, h.once, ?_, ?_⟩
  · intro q hq
    simp only [Shutdown.make, List.length_append, List.length_singleton]
    exact Nat.lt_succ_of_lt (h.lt q hq)
  · intro e q hq
    obtain ⟨m1, m2⟩ := h.mem e q hq
    exact ⟨m1, (hev q m1).trans m2⟩
  · intro q hq
    rw [hev q hq]
    exact (h.alive q hq).imp_right (destroyed_make k eid q).mpr
  · intro q hq
    obtain ⟨d1, d2, d3⟩ := h.dead q ((destroyed_make k eid q).mp hq)
    refine ⟨d1, d2, ?_⟩
    simpa [Kernel.isActive, Shutdown.make, List.getElem?_append_left (h.lt q d1)] using d3

theorem activate_destroyed (h : HandlerEntity) : h.activate.2.destroyed = h.destroyed := by
  unfold HandlerEntity.activate
  split <;> rfl

theorem deactivate_destroyed (h : HandlerEntity) : h.deactivate.2.destroyed = h.destroyed := by
  unfold HandlerEntity.deactivate
  split <;> rfl

theorem Registered.activate (h : Registered known k) (p : HandlerPtr) :
    Registered known { k with heap := k.heap.modify p fun h => h.activate.2 } :=
  h.modify activate_evId activate_destroyed fun h hd => by simp [HandlerEntity.activate, hd]

theorem Registered.deactivate (h : Registered known k) (p : HandlerPtr) :
    Registered known { k with heap := k.heap.modify p fun h => h.deactivate.2 } :=
  h.modify deactivate_evId deactivate_destroyed fun h hd => by simp [HandlerEntity.deactivate, hd]

/-- Before the thread starts every handler that was made has been added. -/
theorem registered_setup : ∀ (setup : List Call) {k : Kernel}, k.running = false →
    Registered (· < k.heap.length) k → Registered (· < (setup.foldl Call.exec k).heap.length)
      (setup.foldl Call.exec k)
  | [], _, _, h => h
  | c :: setup, k, hr, h => by
    have hrun : (c.exec k).running = false := (exec_frame k c).1.trans hr
    refine registered_setup setup hrun ?_
    cases c with
    | on eid =>
      have hexec : Call.exec k (.on eid) = ((Shutdown.make k eid).addHandler k.heap.length).2 := by
        simp [Call.exec, on_eq, hr]
      have hadd := (h.make eid).add (p := k.heap.length) (by simp [Shutdown.make]) (by simp)
      rw [hexec]
      refine hadd.congr fun q => ?_
      simp only [Kernel.addHandler, Shutdown.make, List.length_append, List.length_singleton]
      exact Nat.lt_succ_iff_lt_or_eq.symm
    | destroy p =>
      simp only [Call.exec]
      split
      · rename_i hp
        have hclear : (k.clear p).2 = (k.deleteHandler p).2 := by simp [Kernel.clear, hr]
        have hlen := (change_sameBut k (.delete p)).heap_length
        simp only [ChangeRequest.change] at hlen
        rw [hclear, hlen]
        exact (h.delete hp).1
      · exact h
    | activate p =>
      simp only [Call.exec, List.length_modify]
      exact h.activate p
    | deactivate p =>
      simp only [Call.exec, List.length_modify]
      exact h.deactivate p

end Handlers

/-! ## Requests -/

section Requests

variable {Tid : Type}

/-- What can be asked for after the requests `rs`: a handler is added once, and only one that has
been added or asked for is cleared. -/
def Fits (before : Nat) (rs : List ChangeRequest) : ChangeRequest → Prop
  | .add p => before ≤ p ∧ .add p ∉ rs
  | .delete p => p < before ∨ .add p ∈ rs

/-- The requests made so far, in the order of the lock or waiting for it, when `made` handlers have
been made. -/
structure Calls (before made : Nat) (q : MsgQueue.State (Option Tid) ChangeRequest) : Prop where
  ordered : ∀ xs r ys, q.order = xs ++ r :: ys → Fits before xs r
  fits : ∀ t r, q.producer t = .call r → Fits before q.order r
  apart : ∀ t u p, q.producer t = .call (.add p) → q.producer u = .call (.add p) → t = u
  lt_order : ∀ r ∈ q.order, r.ptr < made
  lt_call : ∀ t r, q.producer t = .call r → r.ptr < made

variable {before made : Nat} {q q' : MsgQueue.State (Option Tid) ChangeRequest}

theorem calls_init : Calls before made (MsgQueue.init : MsgQueue.State (Option Tid) _) where
  ordered := by simp [MsgQueue.init]
  fits := by simp [MsgQueue.init]
  apart := by simp [MsgQueue.init]
  lt_order := by simp [MsgQueue.init]
  lt_call := by simp [MsgQueue.init]

variable [DecidableEq Tid]

/-- A new call. -/
theorem Calls.push (h : Calls before made q) {t : Option Tid} {r : ChangeRequest} {made' : Nat}
    (hf : Fits before q.order r) (hlt : r.ptr < made') (hle : made ≤ made')
    (hnew : ∀ p, r = .add p → p = made) : Calls before made' (q.goto t (.call r)) := by
  have hother : ∀ u r', (q.goto t (.call r)).producer u = .call r' →
      (u = t ∧ r' = r) ∨ q.producer u = .call r' := by
    intro u r' hu
    rw [MsgQueue.goto_producer] at hu
    split at hu
    · rename_i hut
      exact .inl ⟨hut, by simpa using hu.symm⟩
    · exact .inr hu
  -- no call under way asks for the handler that has just been made
  have hfresh : ∀ u p, r = .add p → q.producer u ≠ .call (.add p) := by
    intro u p hr hu
    have := h.lt_call u _ hu
    simp only [ChangeRequest.ptr, hnew p hr, Nat.lt_irrefl] at this
  refine ⟨h.ordered, ?_, ?_, ?_, ?_⟩
  · intro u r' hu
    rcases hother u r' hu with ⟨-, rfl⟩ | hu
    · exact hf
    · exact h.fits u r' hu
  · intro u v p hu hv
    rcases hother u _ hu with ⟨rfl, hr⟩ | hu' <;> rcases hother v _ hv with ⟨rfl, hr⟩ | hv'
    · rfl
    · exact absurd hv' (hfresh v p hr.symm)
    · exact absurd hu' (hfresh u p hr.symm)
    · exact h.apart u v p hu' hv'
  · exact fun r' hr => Nat.lt_of_lt_of_le (h.lt_order r' hr) hle
  · intro u r' hu
    rcases hother u r' hu with ⟨-, rfl⟩ | hu
    · exact hlt
    · exact Nat.lt_of_lt_of_le (h.lt_call u r' hu) hle

/-- An action inside the channel. -/
theorem Calls.step (h : Calls before made q)
    {a : MsgQueue.Action (Option Tid) ChangeRequest} (hs : MsgQueue.step q a = some q')
    (ha : ∀ t r, a ≠ .push t r) : Calls before made q' := by
  rcases MsgQueue.step_calls hs ha with ⟨ho, hp⟩ | ⟨t, r, ht, ho, hp⟩
  · exact {
      ordered := ho ▸ h.ordered
      fits := fun u r hu => ho ▸ h.fits u r (hp u r hu)
      apart := fun u v p hu hv => h.apart u v p (hp u _ hu) (hp v _ hv)
      lt_order := ho ▸ h.lt_order
      lt_call := fun u r hu => h.lt_call u r (hp u r hu) }
  refine ⟨?_, ?_, ?_, ?_, ?_⟩
  · intro xs r' ys hxs
    rw [ho] at hxs
    rcases ys.eq_nil_or_concat with rfl | ⟨ys, r'', rfl⟩
    · obtain ⟨rfl, hr⟩ := List.append_inj' hxs rfl
      obtain rfl := (List.cons.inj hr).1
      exact h.fits t r ht
    · rw [List.concat_eq_append, ← List.cons_append, ← List.append_assoc] at hxs
      exact h.ordered xs r' ys (List.append_inj' hxs rfl).1
  · intro u r' hu
    obtain ⟨hut, hu⟩ := hp u r' hu
    have hf := h.fits u r' hu
    rw [ho]
    cases r' with
    | add p =>
      refine ⟨hf.1, fun hm => ?_⟩
      rcases List.mem_append.mp hm with hm | hm
      · exact hf.2 hm
      · rw [← List.mem_singleton.mp hm] at ht
        exact hut (h.apart u t p hu ht)
    | delete p => exact hf.imp_right (List.mem_append_left _)
  · exact fun u v p hu hv => h.apart u v p (hp u _ hu).2 (hp v _ hv).2
  · intro r' hr
    rw [ho] at hr
    rcases List.mem_append.mp hr with hr | hr
    · exact h.lt_order r' hr
    · rw [List.mem_singleton.mp hr]
      exact h.lt_call t r ht
  · exact fun u r' hu => h.lt_call u r' (hp u r' hu).2

end Requests

/-! ## The invariant -/

section Invariant

variable {Tid : Type}

/-- The request that `pull` has returned and that has not been applied. -/
def Phase.inHand : Phase → List ChangeRequest
  | .change req => [req]
  | _ => []

/-- The handlers that have been added to `handlers_`. -/
def State.known (s : State Tid) (p : HandlerPtr) : Prop :=
  p < s.before ∨ .add p ∈ s.applied

/-- The invariant of the system. -/
structure Inv (s : State Tid) : Prop where
  queue : MsgQueue.Inv s.queue
  flagged : ∀ t d, s.queue.producer t = .flagged d → s.queue.hasMsg = true
  /-- The kernel thread has the lock of the channel in `pull` only. -/
  out : s.phase ≠ .pullMsg → s.queue.consumer.holds = false
  /-- Requests are applied as they come out of the channel. -/
  pulled : s.queue.pulled = s.applied ++ s.phase.inHand
  calls : Calls s.before s.kernel.heap.length s.queue
  handlers : Registered s.known s.kernel
  cleared : ∀ p, .delete p ∈ s.applied → Destroyed s.kernel p
  asked : ∀ p, Destroyed s.kernel p → p < s.before ∨ .delete p ∈ s.applied

theorem inv_start (setup : List Call) : Inv (start setup : State Tid) := by
  have hnew : Registered (· < Kernel.new.heap.length) Kernel.new :=
    ⟨fun _ hp => hp, by simp [Kernel.new], by simp [Kernel.new], by simp [Kernel.new],
      by simp [Destroyed, Kernel.new]⟩
  have hreg := registered_setup setup rfl hnew
  exact {
    queue := MsgQueue.inv_init
    flagged := by simp [start, MsgQueue.init]
    out := fun _ => rfl
    pulled := rfl
    calls := calls_init
    handlers := hreg.congr fun q => by simp [State.known, start]
    cleared := by simp [start]
    asked := fun p hp => .inl (hreg.dead p hp).1 }

variable {s s' : State Tid}

theorem Inv.before_le (h : Inv s) : s.before ≤ s.kernel.heap.length := by
  by_contra hlt
  exact Nat.lt_irrefl _ (h.handlers.lt _ (.inl (Nat.lt_of_not_le hlt)))

/-- The kernel thread moves outside the message channel. -/
theorem Inv.goto (h : Inv s) (hp : s.phase ≠ .pullMsg) (hin : s.phase.inHand = []) {ph : Phase}
    (hph : ph.inHand = []) : Inv (s.goto ph) :=
  { h with
    out := fun _ => h.out hp
    pulled := by
      have hpulled := h.pulled
      rw [hin, ← hph] at hpulled
      exact hpulled }

/-- The kernel changes in fields that are not about handlers. -/
theorem Inv.frame (h : Inv s) {k : Kernel} (hh : k.handlers = s.kernel.handlers)
    (hp : k.heap = s.kernel.heap) : Inv { s with kernel := k } := by
  have hd : ∀ p, Destroyed k p ↔ Destroyed s.kernel p := by simp [Destroyed, hp]
  exact { h with
    calls := by simpa only [hp] using h.calls
    handlers := h.handlers.of_eq hh hp
    cleared := fun p hq => (hd p).mpr (h.cleared p hq)
    asked := fun p hq => h.asked p ((hd p).mp hq) }

/-- A change of the flags that leaves a destroyed handler alone. -/
theorem Inv.modify (h : Inv s) {p : HandlerPtr} {f : HandlerEntity → HandlerEntity}
    (hd : ∀ h, (f h).destroyed = h.destroyed)
    (hreg : Registered s.known { s.kernel with heap := s.kernel.heap.modify p f }) :
    Inv (s.modify p f) := by
  exact { h with
    calls := by simpa [State.modify] using h.calls
    handlers := hreg
    cleared := fun q hq => destroyed_modify _ _ _ (fun h hh => (hd h).trans hh) (h.cleared q hq)
    asked := fun q hq => by
      refine h.asked q ?_
      obtain ⟨g, hg, hgd⟩ := hq
      simp only [State.modify, List.getElem?_modify, Option.map_eq_map,
        Option.map_eq_some_iff] at hg
      obtain ⟨g', hg', rfl⟩ := hg
      refine ⟨g', hg', ?_⟩
      split at hgd
      · rwa [hd] at hgd
      · exact hgd }

theorem Inv.activate (h : Inv s) (p : HandlerPtr) : Inv (s.modify p fun h => h.activate.2) :=
  h.modify activate_destroyed (h.handlers.activate p)

theorem Inv.deactivate (h : Inv s) (p : HandlerPtr) : Inv (s.modify p fun h => h.deactivate.2) :=
  h.modify deactivate_destroyed (h.handlers.deactivate p)

/-- **`req->change(this)` for the request in hand.** The order of the lock says that an added handler
is new and a cleared one was added before. -/
theorem Inv.change (h : Inv s) {req : ChangeRequest} (hp : s.phase = .change req) :
    Inv { s with
      kernel := (req.change s.kernel).2, phase := .whileMsg, applied := s.applied ++ [req] } := by
  have hpulled : s.queue.pulled = s.applied ++ [req] := by rw [h.pulled, hp]; rfl
  obtain ⟨rest, hrest⟩ := h.queue.pulled_prefix
  have horder : s.queue.order = s.applied ++ req :: rest := by
    rw [← hrest, hpulled, List.append_assoc, List.singleton_append]
  have hfits := h.calls.ordered _ _ _ horder
  have hlt := h.calls.lt_order req (by simp [horder])
  have hlen := (change_sameBut s.kernel req).heap_length
  suffices hk : Registered (fun p => p < s.before ∨ .add p ∈ s.applied ++ [req])
      (req.change s.kernel).2 ∧
      (∀ p, .delete p ∈ s.applied ++ [req] → Destroyed (req.change s.kernel).2 p) ∧
      (∀ p, Destroyed (req.change s.kernel).2 p → p < s.before ∨ .delete p ∈ s.applied ++ [req]) by
    exact { h with
      out := fun _ => h.out (by simp [hp])
      pulled := by simpa [Phase.inHand] using hpulled
      calls := by simpa only [hlen] using h.calls
      handlers := hk.1
      cleared := hk.2.1
      asked := hk.2.2 }
  cases req with
  | add p =>
    have hn : ¬ s.known p := fun hkn => hkn.elim (Nat.not_lt.mpr hfits.1) hfits.2
    refine ⟨(h.handlers.add hlt hn).congr fun q => ?_, fun q hq => ?_, fun q hq => ?_⟩
    · simp [State.known, or_assoc, ChangeRequest.ptr]
    · exact h.cleared q (by simpa using hq)
    · simpa using h.asked q hq
  | delete p =>
    obtain ⟨hreg, hself, hother⟩ := h.handlers.delete (show s.known p from hfits)
    refine ⟨hreg.congr fun q => ?_, fun q hq => ?_, fun q hq => ?_⟩
    · simp [State.known]
    · by_cases hqp : q = p
      · exact hqp ▸ hself
      · exact (hother q hqp).mpr (h.cleared q (by simpa [hqp] using hq))
    · by_cases hqp : q = p
      · exact .inr (by simp [hqp])
      · exact (h.asked q ((hother q hqp).mp hq)).imp_right (List.mem_append_left _)

variable [DecidableEq Tid]

/-- A call that goes on to `push`. -/
theorem Inv.request (h : Inv s) {t : Option Tid} {req : ChangeRequest} {k : Kernel}
    (hf : Fits s.before s.queue.order req) (hlt : req.ptr < k.heap.length)
    (hle : s.kernel.heap.length ≤ k.heap.length)
    (hnew : ∀ p, req = .add p → p = s.kernel.heap.length)
    (hreg : Registered s.known k) (hdes : ∀ p, Destroyed k p ↔ Destroyed s.kernel p)
    (hs : State.request { s with kernel := k } t req = some s') : Inv s' := by
  obtain ⟨q, hq, rfl⟩ := Option.map_eq_some_iff.mp hs
  have hq' : MsgQueue.step s.queue (.push t req) = some q := hq
  have hinv := h.queue.step hq'
  have hflag := h.queue.flagged_step h.flagged hq'
  cases MsgQueue.move_of_step hq' with
  | push ht =>
    exact {
      queue := hinv
      flagged := hflag
      out := h.out
      pulled := h.pulled
      calls := h.calls.push hf hlt hle hnew
      handlers := hreg
      cleared := fun p hp => (hdes p).mpr (h.cleared p hp)
      asked := fun p hp => h.asked p ((hdes p).mp hp) }

theorem Inv.on (h : Inv s) {t : Option Tid} {eid : EventId} (hs : s.on t eid = some s') :
    Inv s' := by
  unfold State.on at hs
  split at hs
  case isFalse => cases hs
  have hnot : ChangeRequest.add s.kernel.heap.length ∉ s.queue.order :=
    fun hm => Nat.lt_irrefl _ (h.calls.lt_order _ hm)
  have hf : Fits s.before s.queue.order (.add s.kernel.heap.length) := ⟨h.before_le, hnot⟩
  exact h.request hf (by simp [ChangeRequest.ptr, make]) (by simp [make]) (by simp)
    (h.handlers.make eid) (destroyed_make _ eid) hs

theorem Inv.clear (h : Inv s) {t : Option Tid} {p : HandlerPtr} (hs : s.clear t p = some s') :
    Inv s' := by
  unfold State.clear at hs
  split at hs
  case isFalse => cases hs
  case isTrue hret =>
    -- a handler that `on` has returned was asked for before
    have hf : Fits s.before s.queue.order (.delete p) := by
      refine hret.2.imp_right fun hm => ?_
      rw [h.queue.completed]
      exact List.mem_append_left _ hm
    have hlt : p < s.kernel.heap.length := by
      rcases hf with hp | hp
      · exact Nat.lt_of_lt_of_le hp h.before_le
      · exact h.calls.lt_order _ hp
    exact h.request hf hlt (Nat.le_refl _) (by simp) h.handlers (fun _ => Iff.rfl) hs

theorem Inv.call (h : Inv s) {c : Call} {cs : List Call} {ps : List (Option HandlerPtr)}
    {evs : List EventId} (hp : s.phase = .callback (c :: cs) ps evs)
    (hs : s.call c cs ps evs = some s') : Inv s' := by
  have hgo : ∀ {ph : Phase}, ph.inHand = [] → Inv (s.goto ph) := fun hph =>
    h.goto (by simp [hp]) (by simp [hp, Phase.inHand]) hph
  cases c with
  | on eid => exact (hgo rfl).on hs
  | destroy p =>
    simp only [State.call] at hs
    split at hs
    · exact (hgo rfl).clear hs
    · obtain rfl := Option.some.inj hs
      exact hgo rfl
  | activate p =>
    simp only [State.call] at hs
    split at hs <;> obtain rfl := Option.some.inj hs
    · exact (hgo rfl).activate p
    · exact hgo rfl
  | deactivate p =>
    simp only [State.call] at hs
    split at hs <;> obtain rfl := Option.some.inj hs
    · exact (hgo rfl).deactivate p
    · exact hgo rfl

theorem Inv.thread (beh : Behaviour) (h : Inv s) (hs : s.thread beh = some s') : Inv s' := by
  have hgo : s.phase ≠ .pullMsg → s.phase.inHand = [] → ∀ {ph : Phase}, ph.inHand = [] →
      Inv (s.goto ph) := fun h1 h2 _ h3 => h.goto h1 h2 h3
  unfold State.thread at hs
  split at hs
  case h_1 hp =>
    obtain rfl := Option.some.inj hs
    have hpull : Inv (s.goto .pull) := hgo (by simp [hp]) (by simp [hp, Phase.inHand]) rfl
    exact hpull.frame rfl rfl
  case h_6 p ps evs hp =>
    split at hs <;> obtain rfl := Option.some.inj hs
    · have hback : Inv (s.goto (.callback (beh (s.kernel.invoked ++ [p])) ps evs)) :=
        hgo (by simp [hp]) (by simp [hp, Phase.inHand]) rfl
      exact hback.frame rfl rfl
    · exact hgo (by simp [hp]) (by simp [hp, Phase.inHand]) rfl
  case h_8 c cs ps evs hp => exact h.call hp hs
  case h_9 cs ps evs hp =>
    split at hs
    · obtain rfl := Option.some.inj hs
      exact hgo (by simp [hp]) (by simp [hp, Phase.inHand]) rfl
    · cases hs
  case h_10 req hp =>
    obtain rfl := Option.some.inj hs
    exact h.change hp
  case h_11 hp =>
    obtain rfl := Option.some.inj hs
    have hdone : Inv (s.goto .done) := hgo (by simp [hp]) (by simp [hp, Phase.inHand]) rfl
    exact hdone.frame rfl rfl
  case h_12 => cases hs
  all_goals
    rename_i hp
    obtain rfl := Option.some.inj hs
    exact hgo (by simp [hp]) (by simp [hp, Phase.inHand]) rfl

/-- An action inside the message channel moves the kernel thread only where it stands at `has_msg`
or in `pull`. -/
theorem Inv.inQueue (h : Inv s) {a : MsgQueue.Action (Option Tid) ChangeRequest}
    {q : MsgQueue.State (Option Tid) ChangeRequest} (hq : MsgQueue.step s.queue a = some q)
    {ph : Phase} (hph : s.phase.after s.queue a = some ph) :
    Inv { s with queue := q, phase := ph } := by
  have hnot : ∀ t r, a ≠ .push t r := by
    rintro t r rfl
    cases s.phase <;> simp [Phase.after] at hph
  suffices hc : (ph ≠ .pullMsg → q.consumer.holds = false) ∧
      q.pulled = s.applied ++ ph.inHand by
    exact { h with
      queue := h.queue.step hq
      flagged := h.queue.flagged_step h.flagged hq
      out := hc.1
      pulled := hc.2
      calls := h.calls.step hq hnot }
  cases MsgQueue.move_of_step hq with
  | push _ => exact absurd rfl (hnot _ _)
  | lock _ _ | store _ | flag _ | unlock _ =>
    have : s.phase = ph := by
      cases hp : s.phase <;> simpa [Phase.after, hp] using hph
    subst this
    exact ⟨h.out, h.pulled⟩
  | load _ =>
    have hpulled := h.pulled
    cases hp : s.phase <;> simp only [Phase.after, hp, reduceCtorEq, Option.some.injEq] at hph
    all_goals
      subst hph
      refine ⟨fun _ => rfl, ?_⟩
      rw [hp] at hpulled
      split <;> exact hpulled
  | pull _ _ | throw _ _ | pop _ _ | settle _ =>
    have hpulled := h.pulled
    cases hp : s.phase <;> simp only [Phase.after, hp, reduceCtorEq, Option.some.injEq] at hph
    subst hph
    rw [hp] at hpulled
    exact ⟨fun hne => absurd rfl hne, hpulled⟩
  | @give d hc =>
    have hpulled := h.pulled
    cases hp : s.phase <;> simp only [Phase.after, hp, hc, reduceCtorEq, Option.some.injEq] at hph
    subst hph
    rw [hp] at hpulled
    refine ⟨fun _ => rfl, ?_⟩
    simpa [Phase.inHand] using hpulled

/-- **Every step keeps the invariant.** -/
theorem Inv.step (beh : Behaviour) (h : Inv s) {a : Action Tid}
    (hs : Shutdown.step beh s a = some s') : Inv s' := by
  cases a with
  | pull pkt =>
    simp only [Shutdown.step] at hs
    split at hs
    case h_2 => cases hs
    case h_1 hp =>
      obtain rfl := Option.some.inj hs
      refine h.goto (by simp [hp]) (by simp [hp, Phase.inHand]) ?_
      cases pkt <;> rfl
  | thread => exact h.thread beh hs
  | queue a =>
    obtain ⟨q, hq, hmap⟩ := Option.bind_eq_some_iff.mp hs
    obtain ⟨ph, hph, rfl⟩ := Option.map_eq_some_iff.mp hmap
    exact h.inQueue hq hph
  | on t eid => exact h.on hs
  | clear t p => exact h.clear hs
  | activate p =>
    simp only [Shutdown.step] at hs
    split at hs
    · obtain rfl := Option.some.inj hs
      exact h.activate p
    · cases hs
  | deactivate p =>
    simp only [Shutdown.step] at hs
    split at hs
    · obtain rfl := Option.some.inj hs
      exact h.deactivate p
    · cases hs

end Invariant

/-! ## Leaving the loop -/

section Leave

variable {Tid : Type}

/-- The kernel thread has left its loop. -/
def Phase.left : Phase → Bool
  | .stop => true
  | .done => true
  | _ => false

/-- The packet channel returns `nullptr` only while `has_msg_` is down, and no thread raises
`has_msg_` after that. -/
def Timely (s : State Tid) : Action Tid → Prop
  | .pull none => s.queue.hasMsg = false
  | .queue (.flag _) => s.phase.left = false
  | _ => True

variable {s s' : State Tid}

/-- A step that neither leaves the loop nor raises the flag. -/
structure Calm (s s' : State Tid) : Prop where
  left : s'.phase.left = true → s.phase.left = true
  hasMsg : s.queue.hasMsg = false → s'.queue.hasMsg = false

theorem calm_goto {ph : Phase} (hph : ph.left = false) : Calm s (s.goto ph) :=
  ⟨by simp [State.goto, hph], fun hm => hm⟩

theorem Calm.trans {s₁ s₂ s₃ : State Tid} (h : Calm s₁ s₂) (h' : Calm s₂ s₃) : Calm s₁ s₃ :=
  ⟨fun hl => h.left (h'.left hl), fun hm => h'.hasMsg (h.hasMsg hm)⟩

theorem calm_modify (p : HandlerPtr) (f : HandlerEntity → HandlerEntity) : Calm s (s.modify p f) :=
  ⟨fun hl => hl, fun hm => hm⟩

/-- The kernel thread does not leave its loop inside the message channel. -/
theorem left_after {q : MsgQueue.State (Option Tid) ChangeRequest}
    {a : MsgQueue.Action (Option Tid) ChangeRequest} {ph ph' : Phase}
    (hph : ph.after q a = some ph') (hl : ph'.left = true) : ph = ph' := by
  cases a with
  | lock _ | store _ | flag _ | unlock _ =>
    cases ph <;> simpa [Phase.after] using hph
  | push _ _ => cases ph <;> simp [Phase.after] at hph
  | load =>
    cases ph <;> simp only [Phase.after, reduceCtorEq, Option.some.injEq] at hph
    all_goals
      subst hph
      split at hl <;> cases hl
  | pull | pop | settle =>
    cases ph <;> simp only [Phase.after, reduceCtorEq, Option.some.injEq] at hph
    exact hph
  | give =>
    cases ph <;> simp only [Phase.after, reduceCtorEq] at hph
    split at hph
    · obtain rfl := Option.some.inj hph
      cases hl
    · cases hph

variable [DecidableEq Tid]

theorem calm_request {t : Option Tid} {req : ChangeRequest} {k : Kernel}
    (hs : State.request { s with kernel := k } t req = some s') : Calm s s' := by
  obtain ⟨q, hq, rfl⟩ := Option.map_eq_some_iff.mp hs
  exact ⟨fun hl => hl, MsgQueue.step_hasMsg hq (by simp)⟩

theorem calm_on {t : Option Tid} {eid : EventId} (hs : s.on t eid = some s') : Calm s s' := by
  unfold State.on at hs
  split at hs
  · exact calm_request hs
  · cases hs

theorem calm_clear {t : Option Tid} {p : HandlerPtr} (hs : s.clear t p = some s') : Calm s s' := by
  unfold State.clear at hs
  split at hs
  · exact calm_request hs
  · cases hs

theorem calm_call {c : Call} {cs : List Call} {ps : List (Option HandlerPtr)} {evs : List EventId}
    (hs : s.call c cs ps evs = some s') : Calm s s' := by
  cases c with
  | on eid => exact (calm_goto rfl).trans (calm_on hs)
  | destroy p =>
    simp only [State.call] at hs
    split at hs
    · exact (calm_goto rfl).trans (calm_clear hs)
    · obtain rfl := Option.some.inj hs
      exact calm_goto rfl
  | activate p =>
    simp only [State.call] at hs
    split at hs <;> obtain rfl := Option.some.inj hs
    · exact (calm_goto rfl).trans (calm_modify p _)
    · exact calm_goto rfl
  | deactivate p =>
    simp only [State.call] at hs
    split at hs <;> obtain rfl := Option.some.inj hs
    · exact (calm_goto rfl).trans (calm_modify p _)
    · exact calm_goto rfl

theorem calm_thread {beh : Behaviour} (hs : s.thread beh = some s') : Calm s s' := by
  unfold State.thread at hs
  split at hs
  case h_1 =>
    obtain rfl := Option.some.inj hs
    exact ⟨by simp [Phase.left], fun hm => hm⟩
  case h_6 =>
    split at hs <;> obtain rfl := Option.some.inj hs
    · exact ⟨by simp [Phase.left], fun hm => hm⟩
    · exact calm_goto rfl
  case h_8 => exact calm_call hs
  case h_9 =>
    split at hs
    · obtain rfl := Option.some.inj hs
      exact calm_goto rfl
    · cases hs
  case h_10 =>
    obtain rfl := Option.some.inj hs
    exact ⟨by simp [Phase.left], fun hm => hm⟩
  case h_11 hp =>
    obtain rfl := Option.some.inj hs
    exact ⟨fun _ => by simp [hp, Phase.left], fun hm => hm⟩
  case h_12 => cases hs
  all_goals
    obtain rfl := Option.some.inj hs
    exact calm_goto rfl

/-- **Once the loop has been left in time, `has_msg_` stays down.** -/
theorem left_step (beh : Behaviour) {a : Action Tid} (ht : Timely s a)
    (h : s.phase.left = true → s.queue.hasMsg = false) (hs : step beh s a = some s') :
    s'.phase.left = true → s'.queue.hasMsg = false := by
  have calm : Calm s s' → s'.phase.left = true → s'.queue.hasMsg = false :=
    fun hc hl => hc.hasMsg (h (hc.left hl))
  cases a with
  | pull pkt =>
    simp only [step] at hs
    split at hs
    case h_2 => cases hs
    case h_1 =>
      obtain rfl := Option.some.inj hs
      cases pkt with
      | none => exact fun _ => ht
      | some evs => exact calm (calm_goto rfl)
  | thread => exact calm (calm_thread hs)
  | queue a =>
    obtain ⟨q, hq, hmap⟩ := Option.bind_eq_some_iff.mp hs
    obtain ⟨ph, hph, rfl⟩ := Option.map_eq_some_iff.mp hmap
    intro hl
    obtain rfl := left_after hph hl
    refine MsgQueue.step_hasMsg hq ?_ (h hl)
    rintro t rfl
    exact absurd (hl.symm.trans ht) (by simp)
  | on t eid => exact calm (calm_on hs)
  | clear t p => exact calm (calm_clear hs)
  | activate p =>
    simp only [step] at hs
    split at hs
    · obtain rfl := Option.some.inj hs
      exact h
    · cases hs
  | deactivate p =>
    simp only [step] at hs
    split at hs
    · obtain rfl := Option.some.inj hs
      exact h
    · cases hs

/-- **No returned request is lost when the loop is left in time.** Take any setup, any behaviour of
the callbacks, and any interleaving in which the packet channel returns `nullptr` only while
`has_msg_` is down and no thread raises `has_msg_` after that. Once `thread_main` has returned:

* the requests applied are those of the calls that returned, in the order of the channel;
* a handler that was added and not cleared is in `handlers_`;
* one that was cleared is out of `handlers_`, destroyed and inactive. -/
theorem returned_requests_applied (beh : Behaviour) (setup : List Call) (tr : List (Action Tid))
    (s : State Tid) (h : exec (step beh) (start setup) tr = some s)
    (ht : Along (step beh) Timely (start setup) tr) (hd : s.phase = .done) :
    s.applied = s.queue.completed ∧
    (∀ p, .add p ∈ s.queue.completed → .delete p ∉ s.queue.completed →
      some p ∈ s.kernel.handlers (evOf s.kernel.heap p)) ∧
    ∀ p, .delete p ∈ s.queue.completed → (∀ e, some p ∉ s.kernel.handlers e) ∧
      Destroyed s.kernel p ∧ s.kernel.isActive p = false := by
  obtain ⟨hinv, hleft⟩ : Inv s ∧ (s.phase.left = true → s.queue.hasMsg = false) := by
    refine exec_along (I := fun s => Inv s ∧ (s.phase.left = true → s.queue.hasMsg = false))
      ?_ tr ⟨inv_start setup, fun _ => rfl⟩ ht h
    rintro u a u' ⟨hi, hl⟩ hta hs
    exact ⟨hi.step beh hs, left_step beh hta hl hs⟩
  have hm : s.queue.hasMsg = false := hleft (by rw [hd]; rfl)
  have happlied : s.applied = s.queue.completed := by
    have hpulled : s.queue.pulled = s.applied := by simpa [hd, Phase.inHand] using hinv.pulled
    rw [← hpulled]
    exact hinv.queue.pulled_eq (hinv.out (by simp [hd])) hm hinv.flagged
  rw [← happlied]
  refine ⟨rfl, fun p hadd hdel => ?_, fun p hdel => ?_⟩
  · refine (hinv.handlers.alive p (.inr hadd)).resolve_right fun hdes => ?_
    rcases hinv.asked p hdes with hp | hp
    · -- a handler of the setup is not added again
      have hmem : .add p ∈ s.queue.order := by
        rw [hinv.queue.completed, ← happlied]
        exact List.mem_append_left _ hadd
      obtain ⟨xs, ys, hxs⟩ := List.append_of_mem hmem
      exact Nat.not_lt.mpr (hinv.calls.ordered xs _ ys hxs).1 hp
    · exact hdel hp
  · have hdes := hinv.cleared p hdel
    obtain ⟨-, hgone, hact⟩ := hinv.handlers.dead p hdes
    exact ⟨hgone, hdes, hact⟩

/-- A packet comes after the request of another thread, which clears the handler of the setup. -/
def earlyClear : List (Action Unit) :=
  [.thread, .clear () 0, .queue (.lock (some ())), .queue (.store (some ())),
    .queue (.flag (some ())), .queue (.unlock (some ())), .pull (some []), .thread,
    .queue .load, .queue .load, .queue .pull, .queue .pop, .queue .settle, .queue .give, .thread,
    .queue .load, .pull none, .thread]

theorem early_clear_applied :
    ∃ s : State Unit, exec (step fun _ => []) (start [.on 0]) earlyClear = some s ∧
      s.queue.completed = [.delete 0] ∧ s.applied = s.queue.completed ∧
      s.kernel.isActive 0 = false := by
  have hs : exec (step fun _ => []) (start [.on 0]) earlyClear = some _ := rfl
  have ht : Along (step fun _ => []) Timely (start [.on 0]) earlyClear := by
    repeat' refine And.intro ?_ ?_
    all_goals trivial
  obtain ⟨happlied, -, hclear⟩ :=
    returned_requests_applied (fun _ => []) [.on 0] earlyClear _ hs ht rfl
  exact ⟨_, hs, rfl, happlied, (hclear 0 (by decide)).2.2⟩

/-- The same call between the last packet and the store to `running_`. -/
def lateClear : List (Action Unit) :=
  [.thread, .pull (some []), .thread, .queue .load, .pull none, .clear () 0,
    .queue (.lock (some ())), .queue (.store (some ())), .queue (.flag (some ())),
    .queue (.unlock (some ())), .thread]

/-- **A clear that returned true is lost**: the handler is still there and active after
`thread_main` has returned. -/
theorem late_clear_lost :
    ∃ s : State Unit, exec (step fun _ => []) (start [.on 0]) lateClear = some s ∧
      s.phase = .done ∧ s.queue.completed = [.delete 0] ∧ s.applied = [] ∧
      some 0 ∈ s.kernel.handlers 0 ∧ s.kernel.isActive 0 = true := by
  have hs : exec (step fun _ => []) (start [.on 0]) lateClear = some _ := rfl
  exact ⟨_, hs, rfl, rfl, rfl, by decide, rfl⟩

end Leave

end PacketMachine.Shutdown
