import PacketMachine.Machine.Kernel

/-!
# Dispatch

What the packet loop of `Machine/Kernel.lean` is for, as a `Registry`: for each event the installed
handlers in installation order. Calls change the registry one after the other (`Registry.apply`);
the kernel that is running only queues them, and settles the queue between two packets.

* `dispatch_scan`: the nested loops over the live `handlers_` are one scan over the handlers
  installed when the packet started, each called if it is active at its moment. The callbacks'
  requests do not reach `handlers_` while a packet is dispatched.
* `virt_exec`: `virt k` is the registry that draining the queue of `k` would give. Every call of a
  callback moves it by `Registry.apply`, in the order of the calls.
* `packet_spec`, `run_spec`: the calls of a packet, and nothing else, lead from the registry at its
  start to the one at the start of the next.
-/

namespace PacketMachine.Machine

/-! ## The registry -/

/-- The installed handlers of every event, and the number of handlers ever made. -/
structure Registry where
  installed : EventId → List HandlerPtr
  made : Nat

/-- A call, applied at once. -/
def Registry.apply (r : Registry) : Call → Registry
  | .on eid => ⟨Function.update r.installed eid (r.installed eid ++ [r.made]), r.made + 1⟩
  | .destroy p => if p < r.made then ⟨fun e => (r.installed e).erase p, r.made⟩ else r
  | .activate _ => r
  | .deactivate _ => r

/-- No handler is installed twice for an event, and each has been made. -/
structure Registry.WF (r : Registry) : Prop where
  nodup : ∀ e, (r.installed e).Nodup
  lt : ∀ e, ∀ p ∈ r.installed e, p < r.made

theorem Registry.made_le_apply (r : Registry) (c : Call) : r.made ≤ (r.apply c).made := by
  cases c <;> simp only [Registry.apply] <;> try split
  all_goals simp

theorem Registry.WF.apply {r : Registry} (h : r.WF) (c : Call) : (r.apply c).WF := by
  cases c with
  | on eid =>
    have hfresh : r.made ∉ r.installed eid := fun hm => Nat.lt_irrefl _ (h.lt eid _ hm)
    refine ⟨fun e => ?_, fun e p hp => ?_⟩
    · by_cases he : e = eid
      · subst he
        simp only [Registry.apply, Function.update_self]
        rw [List.nodup_append]
        refine ⟨h.nodup e, List.nodup_singleton _, fun a ha b hb => ?_⟩
        rw [List.mem_singleton.mp hb]
        exact fun hab => hfresh (hab ▸ ha)
      · simp only [Registry.apply, Function.update_of_ne he]
        exact h.nodup e
    · simp only [Registry.apply] at hp ⊢
      by_cases he : e = eid
      · subst he
        simp only [Function.update_self, List.mem_append, List.mem_singleton] at hp
        rcases hp with hp | rfl
        · exact Nat.lt_succ_of_lt (h.lt e p hp)
        · exact Nat.lt_succ_self _
      · rw [Function.update_of_ne he] at hp
        exact Nat.lt_succ_of_lt (h.lt e p hp)
  | destroy q =>
    simp only [Registry.apply]
    split
    · exact ⟨fun e => (h.nodup e).erase q, fun e p hp => h.lt e p (List.mem_of_mem_erase hp)⟩
    · exact h
  | activate _ => exact h
  | deactivate _ => exact h

theorem Registry.WF.foldl {r : Registry} (h : r.WF) (cs : List Call) :
    (cs.foldl Registry.apply r).WF := by
  induction cs generalizing r with
  | nil => exact h
  | cons c cs ih => exact ih (h.apply c)

/-- A handler that was made and is not installed is never installed again. -/
def Registry.Gone (r : Registry) (p : HandlerPtr) : Prop :=
  p < r.made ∧ ∀ e, p ∉ r.installed e

theorem Registry.Gone.apply {r : Registry} {p : HandlerPtr} (h : r.Gone p) (c : Call) :
    (r.apply c).Gone p := by
  refine ⟨Nat.lt_of_lt_of_le h.1 (r.made_le_apply c), fun e hm => ?_⟩
  cases c with
  | on eid =>
    simp only [Registry.apply] at hm
    by_cases he : e = eid
    · subst he
      simp only [Function.update_self, List.mem_append, List.mem_singleton] at hm
      rcases hm with hm | rfl
      · exact h.2 e hm
      · exact Nat.lt_irrefl _ h.1
    · rw [Function.update_of_ne he] at hm
      exact h.2 e hm
  | destroy q =>
    simp only [Registry.apply] at hm
    split at hm
    · exact h.2 e (List.mem_of_mem_erase hm)
    · exact h.2 e hm
  | activate _ => exact h.2 e hm
  | deactivate _ => exact h.2 e hm

theorem Registry.Gone.foldl {r : Registry} {p : HandlerPtr} (h : r.Gone p) (cs : List Call) :
    (cs.foldl Registry.apply r).Gone p := by
  induction cs generalizing r with
  | nil => exact h
  | cons c cs ih => exact ih (h.apply c)

/-- A handler that was made is gone once it is destroyed. -/
theorem Registry.WF.gone_of_destroy {r : Registry} (h : r.WF) {p : HandlerPtr} (hp : p < r.made) :
    (r.apply (.destroy p)).Gone p := by
  simp only [Registry.apply, hp, if_true]
  exact ⟨hp, fun e => (h.nodup e).not_mem_erase⟩

/-- An installed handler stays installed until it is destroyed. -/
theorem Registry.mem_foldl {r : Registry} {e : EventId} {p : HandlerPtr}
    (h : p ∈ r.installed e) {cs : List Call} (hd : Call.destroy p ∉ cs) :
    p ∈ (cs.foldl Registry.apply r).installed e := by
  induction cs generalizing r with
  | nil => exact h
  | cons c cs ih =>
    rw [List.mem_cons, not_or] at hd
    refine ih ?_ hd.2
    cases c with
    | on eid =>
      simp only [Registry.apply]
      by_cases he : e = eid
      · subst he
        simp [h]
      · rw [Function.update_of_ne he]
        exact h
    | destroy q =>
      simp only [Registry.apply]
      split
      · exact (List.mem_erase_of_ne fun hpq => hd.1 (by rw [hpq])).mpr h
      · exact h
    | activate _ => exact h
    | deactivate _ => exact h

theorem Registry.mem_apply_on (r : Registry) (e : EventId) :
    r.made ∈ (r.apply (.on e)).installed e := by
  simp [Registry.apply]

/-! ## The registry of a kernel -/

/-- The handlers in `handlers_`, without the `nullptr` entries. -/
def Kernel.registry (k : Kernel) : Registry :=
  ⟨fun e => (k.handlers e).reduceOption, k.heap.length⟩

/-- `handlers_` after one request, given the event of every handler. -/
def reqHandlers (ev : HandlerPtr → EventId) (hs : EventId → List (Option HandlerPtr)) :
    ChangeRequest → EventId → List (Option HandlerPtr)
  | .add p => Function.update hs (ev p) (hs (ev p) ++ [some p])
  | .delete p => Function.update hs (ev p) ((hs (ev p)).erase (some p))

/-- `handlers_` as it will be once the queue has been drained. -/
def Kernel.pending (k : Kernel) : EventId → List (Option HandlerPtr) :=
  k.msgs.foldl (reqHandlers (evOf k.heap)) k.handlers

/-- The registry once the queue has been drained. -/
def Kernel.virt (k : Kernel) : Registry :=
  ⟨fun e => (k.pending e).reduceOption, k.heap.length⟩

/-- The invariant of the kernel, between any two calls. -/
structure Inv (k : Kernel) : Prop where
  idle : k.running = false → k.msgs = []
  msgs_lt : ∀ r ∈ k.msgs, r.ptr < k.heap.length
  /-- A handler is only in the vector of its own event. -/
  ev : ∀ e p, some p ∈ k.pending e → evOf k.heap p = e
  wf : k.virt.WF

theorem evOf_modify {f : HandlerEntity → HandlerEntity} (hf : ∀ h, (f h).evId = h.evId)
    (heap : List HandlerEntity) (p : HandlerPtr) : evOf (heap.modify p f) = evOf heap := by
  funext q
  unfold evOf
  rw [List.getElem?_modify]
  cases heap[q]? with
  | none => rfl
  | some h =>
    simp only [Option.map_eq_map, Option.map_some]
    split
    · exact hf h
    · rfl

theorem evOf_append {heap : List HandlerEntity} {p : HandlerPtr} (hp : p < heap.length)
    (l : List HandlerEntity) : evOf (heap ++ l) p = evOf heap p := by
  unfold evOf
  rw [List.getElem?_append_left hp]

theorem evOf_new (heap : List HandlerEntity) (hid : Nat) (e : EventId) :
    evOf (heap ++ [HandlerEntity.new hid e]) heap.length = e := by
  simp [evOf, HandlerEntity.new]

theorem activate_evId (h : HandlerEntity) : h.activate.2.evId = h.evId := by
  unfold HandlerEntity.activate
  split <;> rfl

theorem deactivate_evId (h : HandlerEntity) : h.deactivate.2.evId = h.evId := by
  unfold HandlerEntity.deactivate
  split <;> rfl

theorem destroy_evId (h : HandlerEntity) : h.destroy.2.evId = h.evId := by
  unfold HandlerEntity.destroy
  split <;> rfl

/-- The fold over the requests reads the events of their handlers only. -/
theorem foldl_reqHandlers_congr {ev ev' : HandlerPtr → EventId} :
    ∀ {rs : List ChangeRequest} (_ : ∀ r ∈ rs, ev r.ptr = ev' r.ptr)
      (hs : EventId → List (Option HandlerPtr)),
      rs.foldl (reqHandlers ev) hs = rs.foldl (reqHandlers ev') hs
  | [], _, _ => rfl
  | r :: rs, h, hs => by
    have hr : reqHandlers ev hs r = reqHandlers ev' hs r := by
      have := h r (List.mem_cons_self)
      cases r <;> simp only [ChangeRequest.ptr] at this <;> simp only [reqHandlers, this]
    simp only [List.foldl_cons, hr]
    exact foldl_reqHandlers_congr (fun r' hr' => h r' (List.mem_cons_of_mem _ hr')) _

theorem addHandler_handlers (k : Kernel) (p : HandlerPtr) :
    (k.addHandler p).2.handlers = reqHandlers (evOf k.heap) k.handlers (.add p) := rfl

theorem deleteHandler_handlers (k : Kernel) (p : HandlerPtr) :
    (k.deleteHandler p).2.handlers = reqHandlers (evOf k.heap) k.handlers (.delete p) := by
  unfold Kernel.deleteHandler reqHandlers
  simp only
  split
  · rfl
  · rename_i h
    rw [List.erase_of_not_mem h, Function.update_eq_self]

theorem deleteHandler_evOf (k : Kernel) (p : HandlerPtr) :
    evOf (k.deleteHandler p).2.heap = evOf k.heap := by
  unfold Kernel.deleteHandler
  simp only
  split
  · exact evOf_modify destroy_evId _ _
  · rfl

/-- A request leaves everything alone but `handlers_`, `handler_map_` and the flags of its
handler. -/
structure SameBut (k k' : Kernel) : Prop where
  running : k'.running = k.running
  msgs : k'.msgs = k.msgs
  invoked : k'.invoked = k.invoked
  heap_length : k'.heap.length = k.heap.length
  evOf : evOf k'.heap = evOf k.heap

theorem change_sameBut (k : Kernel) (r : ChangeRequest) : SameBut k (r.change k).2 := by
  cases r with
  | add p => exact ⟨rfl, rfl, rfl, rfl, rfl⟩
  | delete p =>
    refine ⟨?_, ?_, ?_, ?_, deleteHandler_evOf k p⟩ <;>
      simp only [ChangeRequest.change, Kernel.deleteHandler] <;> split <;> simp

theorem change_handlers (k : Kernel) (r : ChangeRequest) :
    (r.change k).2.handlers = reqHandlers (evOf k.heap) k.handlers r := by
  cases r with
  | add p => exact addHandler_handlers k p
  | delete p => exact deleteHandler_handlers k p

/-- **Draining applies the queue in order.** -/
theorem drain_spec (k : Kernel) :
    k.drain.handlers = k.pending ∧ k.drain.msgs = [] ∧ k.drain.running = k.running ∧
      k.drain.invoked = k.invoked ∧ k.drain.heap.length = k.heap.length ∧
      evOf k.drain.heap = evOf k.heap := by
  unfold Kernel.drain Kernel.pending
  generalize hrs : k.msgs = rs
  induction rs generalizing k with
  | nil => exact ⟨rfl, hrs, rfl, rfl, rfl, rfl⟩
  | cons r rs ih =>
    have hsame := change_sameBut { k with msgs := rs } r
    have hhs := change_handlers { k with msgs := rs } r
    obtain ⟨h1, h2, h3, h4, h5, h6⟩ := ih (r.change { k with msgs := rs }).2 hsame.msgs
    rw [hsame.evOf, hhs] at h1
    exact ⟨h1, h2, h3.trans hsame.running, h4.trans hsame.invoked, h5.trans hsame.heap_length,
      h6.trans hsame.evOf⟩

/-! ## One call -/

theorem pending_on {k : Kernel} (h : Inv k) (e : EventId) :
    (Call.exec k (.on e)).pending =
      Function.update k.pending e (k.pending e ++ [some k.heap.length]) := by
  have hlen : ∀ r ∈ k.msgs, evOf (k.heap ++ [HandlerEntity.new (k.globalHdlrId + 1) e]) r.ptr =
      evOf k.heap r.ptr := fun r hr => evOf_append (h.msgs_lt r hr) _
  have hpend := foldl_reqHandlers_congr hlen k.handlers
  unfold Call.exec Kernel.on Kernel.pending
  simp only
  split
  · simp only [List.foldl_append, List.foldl_cons, List.foldl_nil, hpend, reqHandlers, evOf_new]
  · rename_i hr
    have hm := h.idle (by simpa using hr)
    simp only [Kernel.addHandler, hm, List.foldl_nil, evOf_new]

theorem pending_destroy {k : Kernel} (h : Inv k) {p : HandlerPtr} (hp : p < k.heap.length) :
    (Call.exec k (.destroy p)).pending =
      Function.update k.pending (evOf k.heap p) ((k.pending (evOf k.heap p)).erase (some p)) := by
  simp only [Call.exec, hp, if_true]
  unfold Kernel.clear
  split
  · simp only [Kernel.pending, List.foldl_append, List.foldl_cons, List.foldl_nil, reqHandlers]
  · rename_i hr
    have hm := h.idle (by simpa using hr)
    have hm' : (k.deleteHandler p).2.msgs = [] := (change_sameBut k (.delete p)).msgs.trans hm
    simp only [Kernel.pending, hm, hm', List.foldl_nil]
    exact deleteHandler_handlers k p

theorem pending_modify (k : Kernel) (p : HandlerPtr) {f : HandlerEntity → HandlerEntity}
    (hf : ∀ h, (f h).evId = h.evId) :
    Kernel.pending { k with heap := k.heap.modify p f } = k.pending := by
  unfold Kernel.pending
  simp only [evOf_modify hf]

theorem exec_heap_length (k : Kernel) (c : Call) :
    (c.exec k).heap.length = ((Registry.mk (fun _ => []) k.heap.length).apply c).made := by
  cases c with
  | on e =>
    unfold Call.exec Kernel.on
    simp only
    split <;> simp [Kernel.addHandler, Registry.apply]
  | destroy p =>
    simp only [Call.exec, Registry.apply]
    split
    · unfold Kernel.clear
      split
      · rfl
      · exact (change_sameBut k (.delete p)).heap_length
    · rfl
  | activate p => simp [Call.exec, Registry.apply]
  | deactivate p => simp [Call.exec, Registry.apply]

theorem reduceOption_erase (p : HandlerPtr) : ∀ l : List (Option HandlerPtr),
    (l.erase (some p)).reduceOption = l.reduceOption.erase p
  | [] => rfl
  | none :: l => by
    rw [List.erase_cons_tail (by simp), List.reduceOption_cons_of_none,
      List.reduceOption_cons_of_none, reduceOption_erase p l]
  | some q :: l => by
    by_cases hq : q = p
    · subst hq
      simp
    · rw [List.erase_cons_tail (by simpa using hq), List.reduceOption_cons_of_some,
        List.reduceOption_cons_of_some, List.erase_cons_tail (by simpa using hq),
        reduceOption_erase p l]

/-- **A call moves the registry to come by `Registry.apply`**, whether the kernel runs or not. -/
theorem virt_exec {k : Kernel} (h : Inv k) (c : Call) :
    (c.exec k).virt = k.virt.apply c := by
  have hlen := exec_heap_length k c
  unfold Kernel.virt
  cases c with
  | on e =>
    simp only [Registry.apply] at hlen ⊢
    rw [pending_on h, hlen]
    congr 1
    funext e'
    by_cases he : e' = e
    · subst he
      simp only [Function.update_self]
      rw [List.reduceOption_append]
      rfl
    · simp only [Function.update_of_ne he]
  | destroy p =>
    by_cases hp : p < k.heap.length
    · simp only [Registry.apply, hp, if_true] at hlen ⊢
      rw [pending_destroy h hp, hlen]
      congr 1
      funext e'
      by_cases he : e' = evOf k.heap p
      · subst he
        rw [Function.update_self, reduceOption_erase]
      · rw [Function.update_of_ne he, List.erase_of_not_mem]
        intro hm
        exact he (h.ev e' p (List.reduceOption_mem_iff.mp hm)).symm
    · simp only [Call.exec, Registry.apply, hp, if_false]
  | activate p =>
    simp only [Call.exec, Registry.apply, List.length_modify, pending_modify k p activate_evId]
  | deactivate p =>
    simp only [Call.exec, Registry.apply, List.length_modify, pending_modify k p deactivate_evId]

theorem exec_evOf (k : Kernel) (c : Call) {q : HandlerPtr} (hq : q < k.heap.length) :
    evOf (c.exec k).heap q = evOf k.heap q := by
  cases c with
  | on e =>
    unfold Call.exec Kernel.on
    simp only
    split <;> exact evOf_append hq _
  | destroy p =>
    simp only [Call.exec]
    split
    · unfold Kernel.clear
      split
      · rfl
      · rw [deleteHandler_evOf]
    · rfl
  | activate p => simp only [Call.exec, evOf_modify activate_evId]
  | deactivate p => simp only [Call.exec, evOf_modify deactivate_evId]

/-- A handler with an entry in the registry to come has been made. -/
theorem Inv.lt {k : Kernel} (h : Inv k) {e : EventId} {p : HandlerPtr}
    (hp : some p ∈ k.pending e) : p < k.heap.length :=
  h.wf.lt e p (List.reduceOption_mem_iff.mpr hp)

theorem exec_ev {k : Kernel} (h : Inv k) (c : Call) (e : EventId) (p : HandlerPtr)
    (hp : some p ∈ (c.exec k).pending e) : evOf (c.exec k).heap p = e := by
  have old : some p ∈ k.pending e → evOf (c.exec k).heap p = e := fun hm => by
    rw [exec_evOf k c (h.lt hm)]
    exact h.ev e p hm
  cases c with
  | on e' =>
    rw [pending_on h] at hp
    by_cases he : e = e'
    · subst he
      simp only [Function.update_self, List.mem_append, List.mem_singleton,
        Option.some.injEq] at hp
      rcases hp with hp | rfl
      · exact old hp
      · unfold Call.exec Kernel.on
        simp only
        split <;> exact evOf_new _ _ _
    · rw [Function.update_of_ne he] at hp
      exact old hp
  | destroy q =>
    by_cases hq : q < k.heap.length
    · rw [pending_destroy h hq] at hp
      by_cases he : e = evOf k.heap q
      · rw [he, Function.update_self] at hp
        exact old (by rw [he]; exact List.mem_of_mem_erase hp)
      · rw [Function.update_of_ne he] at hp
        exact old hp
    · simp only [Call.exec, hq, if_false] at hp ⊢
      exact h.ev e p hp
  | activate q =>
    simp only [Call.exec, pending_modify k q activate_evId] at hp
    exact old hp
  | deactivate q =>
    simp only [Call.exec, pending_modify k q deactivate_evId] at hp
    exact old hp

theorem exec_msgs_lt {k : Kernel} (h : Inv k) (c : Call) :
    ∀ r ∈ (c.exec k).msgs, r.ptr < (c.exec k).heap.length := by
  have hle : k.heap.length ≤ (c.exec k).heap.length := by
    rw [exec_heap_length]
    exact Registry.made_le_apply (Registry.mk (fun _ => []) k.heap.length) c
  have old : ∀ r ∈ k.msgs, r.ptr < (c.exec k).heap.length := fun r hr =>
    Nat.lt_of_lt_of_le (h.msgs_lt r hr) hle
  cases c with
  | on e =>
    unfold Call.exec Kernel.on at old ⊢
    simp only at old ⊢
    split
    · intro r hr
      rcases List.mem_append.mp hr with hr | hr
      · exact Nat.lt_of_lt_of_le (h.msgs_lt r hr) (by simp)
      · rw [List.mem_singleton.mp hr]
        simp [ChangeRequest.ptr]
    · intro r hr
      exact Nat.lt_of_lt_of_le (h.msgs_lt r hr) (by simp [Kernel.addHandler])
  | destroy p =>
    simp only [Call.exec] at old ⊢
    split
    · rename_i hp
      unfold Kernel.clear
      split
      · intro r hr
        rcases List.mem_append.mp hr with hr | hr
        · exact h.msgs_lt r hr
        · rw [List.mem_singleton.mp hr]
          exact hp
      · intro r hr
        have hsame := change_sameBut k (.delete p)
        simp only [ChangeRequest.change] at hsame
        rw [hsame.msgs] at hr
        rw [hsame.heap_length]
        exact h.msgs_lt r hr
    · exact h.msgs_lt
  | activate p => exact old
  | deactivate p => exact old

/-- What a call leaves alone: the flag `running_`, the log, and `handlers_` while the kernel
runs. -/
theorem exec_frame (k : Kernel) (c : Call) :
    (c.exec k).running = k.running ∧ (c.exec k).invoked = k.invoked ∧
      (k.running = true → (c.exec k).handlers = k.handlers) ∧
      (k.running = false → k.msgs = [] → (c.exec k).msgs = []) := by
  cases c with
  | on e =>
    unfold Call.exec Kernel.on
    simp only
    split
    · rename_i hr
      exact ⟨rfl, rfl, fun _ => rfl, fun hf => absurd hr (by simp [hf])⟩
    · rename_i hr
      exact ⟨rfl, rfl, fun ht => absurd ht hr, fun _ hm => hm⟩
  | destroy p =>
    simp only [Call.exec]
    split
    · unfold Kernel.clear
      split
      · rename_i hr
        exact ⟨rfl, rfl, fun _ => rfl, fun hf => absurd hr (by simp [hf])⟩
      · rename_i hr
        have hsame := change_sameBut k (.delete p)
        exact ⟨hsame.running, hsame.invoked, fun ht => absurd ht hr,
          fun _ hm => hsame.msgs.trans hm⟩
    · exact ⟨rfl, rfl, fun _ => rfl, fun _ hm => hm⟩
  | activate p => exact ⟨rfl, rfl, fun _ => rfl, fun _ hm => hm⟩
  | deactivate p => exact ⟨rfl, rfl, fun _ => rfl, fun _ hm => hm⟩

/-- **Every call keeps the invariant.** -/
theorem Inv.exec {k : Kernel} (h : Inv k) (c : Call) : Inv (c.exec k) where
  idle := fun hr => by
    obtain ⟨h1, -, -, h4⟩ := exec_frame k c
    rw [h1] at hr
    exact h4 hr (h.idle hr)
  msgs_lt := exec_msgs_lt h c
  ev := exec_ev h c
  wf := by rw [virt_exec h]; exact h.wf.apply c

/-- A list of calls made while the kernel runs. -/
theorem exec_calls {k : Kernel} (h : Inv k) (cs : List Call) :
    Inv (cs.foldl Call.exec k) ∧ (cs.foldl Call.exec k).virt = cs.foldl Registry.apply k.virt ∧
      (cs.foldl Call.exec k).running = k.running ∧ (cs.foldl Call.exec k).invoked = k.invoked ∧
      (k.running = true → (cs.foldl Call.exec k).handlers = k.handlers) := by
  induction cs generalizing k with
  | nil => exact ⟨h, rfl, rfl, rfl, fun _ => rfl⟩
  | cons c cs ih =>
    obtain ⟨f1, f2, f3, -⟩ := exec_frame k c
    obtain ⟨i1, i2, i3, i4, i5⟩ := ih (h.exec c)
    refine ⟨i1, ?_, i3.trans f1, i4.trans f2, fun hr => (i5 (f1.trans hr)).trans (f3 hr)⟩
    rw [List.foldl_cons, i2, virt_exec h]
    rfl

/-! ## The flags of a handler -/

section Flags

variable {p : HandlerPtr} {b : Bool} {k : Kernel} {beh : Behaviour}

theorem isActive_lt (h : k.isActive p = true) : p < k.heap.length := by
  unfold Kernel.isActive at h
  split at h
  · rename_i he
    exact (List.getElem?_eq_some_iff.mp he).1
  · cases h

theorem isActive_append (he : HandlerEntity) (hp : p < k.heap.length) :
    Kernel.isActive { k with heap := k.heap ++ [he] } p = k.isActive p := by
  unfold Kernel.isActive
  rw [List.getElem?_append_left hp]

theorem isActive_modify_of_ne {q : HandlerPtr} (f : HandlerEntity → HandlerEntity) (k : Kernel)
    (hq : q ≠ p) : Kernel.isActive { k with heap := k.heap.modify q f } p = k.isActive p := by
  unfold Kernel.isActive
  simp [hq]

theorem isActive_activate (q : HandlerPtr) (h : k.isActive p = true) :
    Kernel.isActive { k with heap := k.heap.modify q fun h => h.activate.2 } p = true := by
  by_cases hq : q = p
  · subst hq
    unfold Kernel.isActive at h ⊢
    cases he : k.heap[q]? with
    | none =>
      rw [he] at h
      cases h
    | some x =>
      rw [he] at h
      simp only [List.getElem?_modify, if_true, he, Option.map_eq_map, Option.map_some,
        HandlerEntity.activate]
      split
      · exact h
      · rfl
  · rwa [isActive_modify_of_ne _ _ hq]

/-- While the kernel runs, only `deactivate` stops an active handler: `destroy` is queued. -/
theorem isActive_exec (hr : k.running = true) (ha : k.isActive p = true) {c : Call}
    (hc : c ≠ .deactivate p) : (c.exec k).isActive p = true := by
  cases c with
  | on eid =>
    unfold Call.exec Kernel.on
    simp only [hr, if_true]
    exact (isActive_append _ (isActive_lt ha)).trans ha
  | destroy q =>
    unfold Call.exec Kernel.clear
    simp only [hr, if_true]
    split <;> exact ha
  | activate q => exact isActive_activate q ha
  | deactivate q =>
    have hq : q ≠ p := fun he => hc (he ▸ rfl)
    exact (isActive_modify_of_ne _ k hq).trans ha

/-- What calls leave alone while the kernel runs. -/
theorem calls_frame (cs : List Call) (hr : k.running = true) :
    (cs.foldl Call.exec k).running = true ∧ (cs.foldl Call.exec k).invoked = k.invoked ∧
      (cs.foldl Call.exec k).handlers = k.handlers := by
  induction cs generalizing k with
  | nil => exact ⟨hr, rfl, rfl⟩
  | cons c cs ih =>
    obtain ⟨f1, f2, f3, -⟩ := exec_frame k c
    obtain ⟨i1, i2, i3⟩ := ih (f1.trans hr)
    exact ⟨i1, i2.trans f2, i3.trans (f3 hr)⟩

theorem isActive_calls (hr : k.running = true) (ha : k.isActive p = true) {cs : List Call}
    (hcs : Call.deactivate p ∉ cs) : (cs.foldl Call.exec k).isActive p = true := by
  induction cs generalizing k with
  | nil => exact ha
  | cons c cs ih =>
    rw [List.mem_cons, not_or] at hcs
    exact ih ((exec_frame k c).1.trans hr) (isActive_exec hr ha (Ne.symm hcs.1)) hcs.2

end Flags

/-! ## One packet -/

/-- The handlers a packet calls, given those it may call: each one that is active when its turn
comes. -/
def called (beh : Behaviour) : Kernel → List HandlerPtr → List HandlerPtr
  | _, [] => []
  | k, p :: ps => if k.isActive p then p :: called beh (k.invoke beh p) ps else called beh k ps

/-- The calls the callbacks `ps` make, in order, after those in `log`. -/
def callsOf (beh : Behaviour) : List HandlerPtr → List HandlerPtr → List Call
  | _, [] => []
  | log, p :: ps => beh (log ++ [p]) ++ callsOf beh (log ++ [p]) ps

/-- The handlers a packet with the events `evs` may call: for each event in order, the handlers
installed for it in order. -/
def Registry.candidates (r : Registry) (evs : List EventId) : List HandlerPtr :=
  evs.flatMap r.installed

/-- The handlers called for a packet with the events `evs` that arrives in state `k`. -/
def Kernel.callbacks (beh : Behaviour) (k : Kernel) (evs : List EventId) : List HandlerPtr :=
  called beh k (k.registry.candidates evs)

/-- The calls made while that packet is processed. -/
def Kernel.calls (beh : Behaviour) (k : Kernel) (evs : List EventId) : List Call :=
  callsOf beh k.invoked (k.callbacks beh evs)

/-- Call each of `ps` that is active when its turn comes. -/
def scan (beh : Behaviour) (k : Kernel) (ps : List HandlerPtr) : Kernel :=
  ps.foldl (fun k p => if k.isActive p then k.invoke beh p else k) k

theorem called_subset (beh : Behaviour) : ∀ (ps : List HandlerPtr) (k : Kernel),
    ∀ p ∈ called beh k ps, p ∈ ps
  | [], _, _, h => h
  | q :: ps, k, p, h => by
    simp only [called] at h
    split at h
    · rcases List.mem_cons.mp h with rfl | h
      · exact List.mem_cons_self
      · exact List.mem_cons_of_mem _ (called_subset beh ps _ p h)
    · exact List.mem_cons_of_mem _ (called_subset beh ps _ p h)

theorem invoke_spec (beh : Behaviour) {k : Kernel} (h : Inv k) (p : HandlerPtr) :
    Inv (k.invoke beh p) ∧
      (k.invoke beh p).virt = (beh (k.invoked ++ [p])).foldl Registry.apply k.virt ∧
      (k.invoke beh p).running = k.running ∧ (k.invoke beh p).invoked = k.invoked ++ [p] ∧
      (k.running = true → (k.invoke beh p).handlers = k.handlers) := by
  have h' : Inv { k with invoked := k.invoked ++ [p] } := ⟨h.idle, h.msgs_lt, h.ev, h.wf⟩
  exact exec_calls h' (beh (k.invoked ++ [p]))

theorem scan_spec (beh : Behaviour) : ∀ (ps : List HandlerPtr) {k : Kernel}, Inv k →
    k.running = true →
    Inv (scan beh k ps) ∧
      (scan beh k ps).virt = (callsOf beh k.invoked (called beh k ps)).foldl Registry.apply k.virt ∧
      (scan beh k ps).running = true ∧
      (scan beh k ps).invoked = k.invoked ++ called beh k ps ∧
      (scan beh k ps).handlers = k.handlers
  | [], k, h, hr => ⟨h, rfl, hr, (List.append_nil _).symm, rfl⟩
  | p :: ps, k, h, hr => by
    by_cases ha : k.isActive p
    · obtain ⟨j1, j2, j3, j4, j5⟩ := invoke_spec beh h p
      obtain ⟨i1, i2, i3, i4, i5⟩ := scan_spec beh ps j1 (j3.trans hr)
      have hs : scan beh k (p :: ps) = scan beh (k.invoke beh p) ps := by simp [scan, ha]
      have hc : called beh k (p :: ps) = p :: called beh (k.invoke beh p) ps := by
        simp [called, ha]
      rw [hs, hc]
      refine ⟨i1, ?_, i3, ?_, i5.trans (j5 hr)⟩
      · rw [i2, j2, j4, callsOf, List.foldl_append]
      · rw [i4, j4, List.append_assoc]
        rfl
    · have hs : scan beh k (p :: ps) = scan beh k ps := by simp [scan, ha]
      have hc : called beh k (p :: ps) = called beh k ps := by simp [called, ha]
      rw [hs, hc]
      exact scan_spec beh ps h hr

/-- The inner loop skips the `nullptr` entries. -/
theorem visit_foldl (beh : Behaviour) (l : List (Option HandlerPtr)) (k : Kernel) :
    l.foldl (Kernel.visit beh) k = scan beh k l.reduceOption := by
  induction l generalizing k with
  | nil => rfl
  | cons o l ih =>
    cases o with
    | none => simpa [Kernel.visit] using ih k
    | some p =>
      rw [List.reduceOption_cons_of_some, List.foldl_cons, ih]
      rfl

/-- **The loops over the live `handlers_` are one scan of the handlers installed when the packet
arrived.** -/
theorem dispatch_scan (beh : Behaviour) (evs : List EventId) {k : Kernel} (h : Inv k)
    (hr : k.running = true) :
    k.dispatch beh evs = scan beh k (k.registry.candidates evs) := by
  -- `handlers_` stays as it was at the start, so the induction keeps it fixed
  suffices hgen : ∀ (hs : EventId → List (Option HandlerPtr)) (evs : List EventId) (k : Kernel),
      Inv k → k.running = true → k.handlers = hs →
      k.dispatch beh evs = scan beh k (evs.flatMap fun e => (hs e).reduceOption) from
    hgen k.handlers evs k h hr rfl
  intro hs evs
  induction evs with
  | nil => intro k _ _ _; rfl
  | cons e evs ih =>
    intro k h hr hhs
    obtain ⟨i1, -, i3, -, i5⟩ := scan_spec beh ((k.handlers e).reduceOption) h hr
    have hstep : k.dispatch beh (e :: evs) =
        (scan beh k (k.handlers e).reduceOption).dispatch beh evs := by
      unfold Kernel.dispatch
      rw [List.foldl_cons, visit_foldl]
    rw [hstep, ih _ i1 i3 (i5.trans hhs), List.flatMap_cons, hhs]
    unfold scan
    rw [List.foldl_append]

/-- The state between two packets: the kernel runs and its queue is empty. -/
structure Settled (k : Kernel) : Prop where
  inv : Inv k
  running : k.running = true
  msgs : k.msgs = []

theorem Settled.virt {k : Kernel} (h : Settled k) : k.virt = k.registry := by
  unfold Kernel.virt Kernel.registry Kernel.pending
  rw [h.msgs]
  rfl

/-- **One packet**: who is called, and what becomes of the registry. -/
theorem packet_spec (beh : Behaviour) {k : Kernel} (h : Settled k) (evs : List EventId) :
    Settled (k.packet beh evs) ∧
      (k.packet beh evs).invoked = k.invoked ++ k.callbacks beh evs ∧
      (k.packet beh evs).registry = (k.calls beh evs).foldl Registry.apply k.registry := by
  unfold Kernel.packet
  rw [dispatch_scan beh evs h.inv h.running]
  obtain ⟨i1, i2, i3, i4, -⟩ := scan_spec beh (k.registry.candidates evs) h.inv h.running
  generalize scan beh k (k.registry.candidates evs) = k' at i1 i2 i3 i4
  obtain ⟨d1, d2, d3, d4, d5, d6⟩ := drain_spec k'
  have hpend : k'.drain.pending = k'.pending := by
    unfold Kernel.pending
    rw [d2]
    exact d1
  have hvirt : k'.drain.virt = k'.virt := by
    unfold Kernel.virt
    rw [hpend, d5]
  have hs : Settled k'.drain := by
    refine ⟨⟨fun _ => d2, ?_, ?_, ?_⟩, d3.trans i3, d2⟩
    · rw [d2]
      exact fun r hr => absurd hr List.not_mem_nil
    · rw [hpend, d6]
      exact i1.ev
    · rw [hvirt]
      exact i1.wf
  refine ⟨hs, d4.trans i4, ?_⟩
  rw [← hs.virt, hvirt, i2, h.virt]
  rfl

/-! ## Runs -/

/-- All calls made during the packets `pkts`. -/
def Kernel.callsIn (beh : Behaviour) : Kernel → List (List EventId) → List Call
  | _, [] => []
  | k, evs :: pkts => k.calls beh evs ++ Kernel.callsIn beh (k.packet beh evs) pkts

theorem run_spec (beh : Behaviour) : ∀ (pkts : List (List EventId)) {k : Kernel}, Settled k →
    Settled (pkts.foldl (Kernel.packet beh) k) ∧
      (pkts.foldl (Kernel.packet beh) k).registry =
        (k.callsIn beh pkts).foldl Registry.apply k.registry
  | [], _, h => ⟨h, rfl⟩
  | evs :: pkts, k, h => by
    obtain ⟨p1, -, p3⟩ := packet_spec beh h evs
    obtain ⟨r1, r2⟩ := run_spec beh pkts p1
    refine ⟨r1, ?_⟩
    rw [List.foldl_cons, r2, p3, Kernel.callsIn, List.foldl_append]

theorem inv_new : Inv Kernel.new where
  idle := fun _ => rfl
  msgs_lt := fun _ hr => absurd hr List.not_mem_nil
  ev := fun _ _ hp => absurd hp List.not_mem_nil
  wf := ⟨fun _ => List.nodup_nil, fun _ _ hp => absurd hp List.not_mem_nil⟩

/-- A kernel set up by any calls before its thread starts, with `running_` just set. -/
theorem settled_start (setup : List Call) :
    Settled { setup.foldl Call.exec Kernel.new with running := true } := by
  obtain ⟨i1, -, i3, -, -⟩ := exec_calls inv_new setup
  have hm := i1.idle (by rw [i3]; rfl)
  exact ⟨⟨fun _ => hm, i1.msgs_lt, i1.ev, i1.wf⟩, rfl, hm⟩

end PacketMachine.Machine
