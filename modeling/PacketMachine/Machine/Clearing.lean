import PacketMachine.Machine.Dispatch

/-!
# Handlers that are cleared by their pointer or by their id

Model of `Kernel::clear(hdlr_id)` (`kernel.cc:153-173`) beside `Kernel::on` and
`Kernel::clear(HandlerPtr)`, on a kernel that is not running.

* The kernel has two indexes of its handlers: `handlers_`, by the event, and `handler_map_`, by the id.
  `clear(hdlr_id)` takes the handler out of both and leaves it active. `clear(HandlerPtr)` destroys it,
  and leaves its entry in `handler_map_`.
* A pointer that no call of `on` returned is in no vector, so that `clear` of it does nothing.

Results:
* `exec_registry`: on the installed handlers the two ways to clear do the same.
* **`registry_consistent_iff`**: over a run, the two indexes agree and the answers and the flags are right
  exactly when no call clears a handler that is registered.
* `maps_agree_iff`: the indexes agree in every state exactly when no registered handler is cleared by its
  pointer.
-/

namespace PacketMachine.Machine

/-! ## The code -/

/-- The loop of `Kernel::clear(hdlr_id)`: the first handler for which `same` holds becomes `nullptr`. -/
def nullOut (same : HandlerPtr → Bool) : List (Option HandlerPtr) → List (Option HandlerPtr)
  | [] => []
  | none :: hs => none :: nullOut same hs
  | some p :: hs => if same p then none :: hs else some p :: nullOut same hs

/-- `ptr->id()`. -/
def Kernel.idOf (k : Kernel) (p : HandlerPtr) : Option Nat := k.heap[p]?.map HandlerEntity.id

/-- `Kernel::clear(hdlr_id)`. -/
def Kernel.clearId (k : Kernel) (hid : Nat) : Bool × Kernel :=
  match k.handlerMap.lookup hid with
  | none => (false, k)
  | some entry =>
    let eid := evOf k.heap entry
    (true, { k with
      handlerMap := k.handlerMap.erase hid
      handlers := Function.update k.handlers eid
        (nullOut (fun p => k.idOf p == k.idOf entry) (k.handlers eid)) })

/-- A call from outside while the kernel is not running. -/
inductive RegCall where
  | on (eid : EventId)
  | clear (ptr : HandlerPtr)
  | clearId (hid : Nat)
  deriving DecidableEq, Repr

/-- The kernel after a call. -/
def RegCall.exec (k : Kernel) : RegCall → Kernel
  | .on eid => (k.on eid).2
  | .clear p => (k.clear p).2
  | .clearId hid => (k.clearId hid).2

/-- The kernel after some calls. -/
def registered (tr : List RegCall) : Kernel := tr.foldl RegCall.exec Kernel.new

/-! ## What is expected -/

/-- The handler is in the vector of its event. -/
def Kernel.Present (k : Kernel) (p : HandlerPtr) : Prop := some p ∈ k.handlers (evOf k.heap p)

instance (k : Kernel) (p : HandlerPtr) : Decidable (k.Present p) := inferInstanceAs (Decidable (_ ∈ _))

/-- `handler_map_` has exactly the handlers that are present, each under its id; and a handler is present
once. -/
structure Kernel.Agree (k : Kernel) : Prop where
  map : ∀ hid p, k.handlerMap.lookup hid = some p ↔ k.Present p ∧ k.idOf p = some hid
  once : ∀ e, (k.handlers e).reduceOption.Nodup

/-- What a call should do: a new id is not used again, a handler is cleared iff it is registered, and it
is not active then. -/
def RegCall.Right (k : Kernel) : RegCall → Prop
  | .on eid => ∀ p, p < k.heap.length → k.idOf p ≠ (k.on eid).2.idOf (k.on eid).1
  | .clear p => ((k.clear p).1 = true ↔ k.Present p) ∧
      ((k.clear p).1 = true → (k.clear p).2.isActive p = false)
  | .clearId hid => ((k.clearId hid).1 = true ↔ ∃ p, k.Present p ∧ k.idOf p = some hid) ∧
      ((k.clearId hid).1 = true → ∀ p, k.idOf p = some hid → (k.clearId hid).2.isActive p = false)

/-- The call clears a handler that is registered. -/
def RegCall.Clears (k : Kernel) : RegCall → Prop
  | .on _ => False
  | .clear p => k.Present p
  | .clearId hid => ∃ p, k.Present p ∧ k.idOf p = some hid

/-! ## Both ways to clear -/

section NullOut

variable {same : HandlerPtr → Bool} {p : HandlerPtr}

theorem reduceOption_nullOut (hs : List (Option HandlerPtr)) :
    (nullOut same hs).reduceOption = hs.reduceOption.eraseP same := by
  induction hs with
  | nil => rfl
  | cons q hs ih =>
    cases q with
    | none =>
      rw [nullOut, List.reduceOption_cons_of_none, List.reduceOption_cons_of_none, ih]
    | some q =>
      rw [nullOut, List.reduceOption_cons_of_some, List.eraseP_cons]
      cases same q with
      | true => simp
      | false => simp [ih]

theorem eraseP_eq_erase {ps : List HandlerPtr} (h : ∀ q ∈ ps, same q = true ↔ q = p) :
    ps.eraseP same = ps.erase p := by
  induction ps with
  | nil => rfl
  | cons q ps ih =>
    obtain ⟨hq, hps⟩ := List.forall_mem_cons.mp h
    rw [List.eraseP_cons, List.erase_cons, ih hps]
    by_cases hqp : q = p
    · subst hqp
      simp [hq.mpr rfl]
    · have hf : same q = false := by
        rw [← Bool.not_eq_true, hq]
        exact hqp
      simp [hf, hqp]

end NullOut

/-- The invariant of the kernel, whichever calls are made. -/
structure Sane (k : Kernel) : Prop where
  idle : k.running = false
  wf : k.registry.WF
  /-- A handler is only in the vector of its own event, and as it was made. -/
  entity : ∀ e, ∀ p ∈ k.registry.installed e, k.heap[p]? = some (HandlerEntity.new (p + 1) e)
  ids : ∀ p, p < k.heap.length → k.idOf p = some (p + 1)
  next : k.globalHdlrId = k.heap.length
  map : ∀ hid p, k.handlerMap.lookup hid = some p → hid = p + 1 ∧ p < k.heap.length
  mapped : ∀ e, ∀ p ∈ k.registry.installed e, k.handlerMap.lookup (p + 1) = some p

section Steps

variable {k k' : Kernel} {p : HandlerPtr}

theorem Sane.ev (h : Sane k) {e : EventId} (hp : p ∈ k.registry.installed e) : evOf k.heap p = e := by
  rw [evOf, h.entity e p hp]
  rfl

theorem Sane.present_iff (h : Sane k) : k.Present p ↔ ∃ e, p ∈ k.registry.installed e := by
  constructor
  · exact fun hp => ⟨_, List.reduceOption_mem_iff.mpr hp⟩
  · rintro ⟨e, hp⟩
    rw [Kernel.Present, h.ev hp]
    exact List.reduceOption_mem_iff.mp hp

theorem Sane.active (h : Sane k) (hp : k.Present p) : k.isActive p = true := by
  obtain ⟨e, hp⟩ := h.present_iff.mp hp
  rw [Kernel.isActive, h.entity e p hp]
  rfl

theorem Sane.lt_of_present (h : Sane k) (hp : k.Present p) : p < k.heap.length := by
  obtain ⟨e, hp⟩ := h.present_iff.mp hp
  exact h.wf.lt e p hp

theorem idOf_eq_none (hp : ¬ p < k.heap.length) : k.idOf p = none := by
  rw [Kernel.idOf, List.getElem?_eq_none (Nat.le_of_not_lt hp)]
  rfl

theorem Sane.idOf_iff (h : Sane k) {hid : Nat} :
    k.idOf p = some hid ↔ p < k.heap.length ∧ hid = p + 1 := by
  by_cases hp : p < k.heap.length
  · rw [h.ids p hp]
    simp [hp, eq_comm]
  · rw [idOf_eq_none hp]
    simp [hp]

/-- The indexes agree when `handler_map_` has nothing more than `handlers_`. -/
theorem Sane.agree_iff (h : Sane k) :
    k.Agree ↔ ∀ p, k.handlerMap.lookup (p + 1) = some p → k.Present p := by
  constructor
  · exact fun ha p hp => ((ha.map _ _).mp hp).1
  · intro hle
    refine ⟨fun hid p => ?_, h.wf.nodup⟩
    constructor
    · intro hm
      obtain ⟨rfl, hlt⟩ := h.map hid p hm
      exact ⟨hle p hm, h.ids p hlt⟩
    · rintro ⟨hp, hid⟩
      obtain ⟨-, rfl⟩ := h.idOf_iff.mp hid
      obtain ⟨e, hp⟩ := h.present_iff.mp hp
      exact h.mapped e p hp

/-! ### `on` -/

theorem on_eq (h : Sane k) (eid : EventId) : k.on eid = (k.heap.length,
    { k with
      globalHdlrId := k.heap.length + 1
      heap := k.heap ++ [HandlerEntity.new (k.heap.length + 1) eid]
      handlerMap := k.handlerMap.insert (k.heap.length + 1) k.heap.length
      handlers := Function.update k.handlers eid (k.handlers eid ++ [some k.heap.length]) }) := by
  have hfresh : k.heap.length + 1 ∉ k.handlerMap := by
    intro hm
    obtain ⟨q, hq⟩ := Option.isSome_iff_exists.mp (AList.lookup_isSome.mpr hm)
    obtain ⟨heq, hlt⟩ := h.map _ q hq
    exact Nat.ne_of_gt hlt (Nat.succ.inj heq)
  have hid : (HandlerEntity.new (k.heap.length + 1) eid).id = k.heap.length + 1 := rfl
  unfold Kernel.on
  simp only [h.idle, h.next, Bool.false_eq_true, if_false, Kernel.addHandler,
    List.getElem?_concat_length, hid, if_neg hfresh, evOf_new]

theorem on_registry (h : Sane k) (eid : EventId) :
    (k.on eid).2.registry = k.registry.apply (.on eid) := by
  rw [on_eq h]
  simp only [Kernel.registry, Registry.apply, List.length_append, List.length_singleton, Registry.mk.injEq,
    and_true]
  funext e
  by_cases he : e = eid
  · subst he
    simp [List.reduceOption_append]
  · simp [he]

theorem on_heap (h : Sane k) (eid : EventId) :
    (k.on eid).2.heap = k.heap ++ [HandlerEntity.new (k.heap.length + 1) eid] := by
  rw [on_eq h]

/-- A handler that is installed after `on` is the new one, or was installed before. -/
theorem mem_installed_on (r : Registry) (eid e : EventId) (q : HandlerPtr) :
    q ∈ (r.apply (.on eid)).installed e ↔ q ∈ r.installed e ∨ e = eid ∧ q = r.made := by
  unfold Registry.apply
  by_cases he : e = eid
  · subst he
    simp
  · simp [he]

theorem Sane.on (h : Sane k) (eid : EventId) : Sane (k.on eid).2 := by
  have hheap := on_heap h eid
  have hold : ∀ q, q < k.heap.length → (k.on eid).2.heap[q]? = k.heap[q]? := fun q hq => by
    rw [hheap, List.getElem?_append_left hq]
  have hnew : (k.on eid).2.heap[k.heap.length]? = some (HandlerEntity.new (k.heap.length + 1) eid) := by
    rw [hheap, List.getElem?_concat_length]
  have hmap : (k.on eid).2.handlerMap = k.handlerMap.insert (k.heap.length + 1) k.heap.length := by
    rw [on_eq h]
  have hlen : (k.on eid).2.heap.length = k.heap.length + 1 := by
    rw [hheap, List.length_append, List.length_singleton]
  have hcases : ∀ {q}, q < (k.on eid).2.heap.length → q < k.heap.length ∨ q = k.heap.length := by
    intro q hq
    omega
  constructor
  case idle =>
    rw [on_eq h]
    exact h.idle
  case wf => exact on_registry h eid ▸ h.wf.apply _
  case entity =>
    intro e q hq
    rw [on_registry h, mem_installed_on] at hq
    rcases hq with hq | ⟨rfl, rfl⟩
    · rw [hold q (h.wf.lt e q hq), h.entity e q hq]
    · exact hnew
  case ids =>
    intro q hq
    rcases hcases hq with hlt | rfl
    · rw [Kernel.idOf, hold q hlt]
      exact h.ids q hlt
    · rw [Kernel.idOf, hnew]
      rfl
  case next =>
    rw [hlen, on_eq h]
  case map =>
    intro hid q hq
    rw [hmap] at hq
    by_cases hne : hid = k.heap.length + 1
    · subst hne
      rw [AList.lookup_insert] at hq
      obtain rfl := Option.some.inj hq
      exact ⟨rfl, hlen ▸ Nat.lt_succ_self _⟩
    · rw [AList.lookup_insert_ne hne] at hq
      obtain ⟨heq, hlt⟩ := h.map hid q hq
      exact ⟨heq, hlen ▸ Nat.lt_succ_of_lt hlt⟩
  case mapped =>
    intro e q hq
    rw [on_registry h, mem_installed_on] at hq
    rw [hmap]
    rcases hq with hq | ⟨rfl, rfl⟩
    · have hne : q + 1 ≠ k.heap.length + 1 := Nat.ne_of_lt (Nat.succ_lt_succ (h.wf.lt e q hq))
      rw [AList.lookup_insert_ne hne, h.mapped e q hq]
    · exact AList.lookup_insert _

/-! ### The two ways to clear -/

/-- What both leave alone when they clear `p`. -/
structure Removed (k k' : Kernel) (p : HandlerPtr) : Prop where
  running : k'.running = k.running
  global : k'.globalHdlrId = k.globalHdlrId
  registry : k'.registry = k.registry.apply (.destroy p)
  length : k'.heap.length = k.heap.length
  ids : ∀ q, k'.idOf q = k.idOf q
  heap : ∀ q, q ≠ p → k'.heap[q]? = k.heap[q]?
  map : ∀ hid, hid ≠ p + 1 → k'.handlerMap.lookup hid = k.handlerMap.lookup hid
  own : ∀ q, k'.handlerMap.lookup (p + 1) = some q → k.handlerMap.lookup (p + 1) = some q

theorem Sane.mem_destroy (h : Sane k) (hp : p < k.heap.length) (e : EventId) (q : HandlerPtr) :
    q ∈ (k.registry.apply (.destroy p)).installed e ↔ q ∈ k.registry.installed e ∧ q ≠ p := by
  have happly : (k.registry.apply (.destroy p)).installed e = (k.registry.installed e).erase p := by
    rw [Registry.apply, if_pos (show p < k.registry.made from hp)]
  rw [happly, (h.wf.nodup e).mem_erase_iff, and_comm]

theorem Sane.remove (h : Sane k) (hp : p < k.heap.length) (hr : Removed k k' p) : Sane k' := by
  have hmem : ∀ e q, q ∈ k'.registry.installed e ↔ q ∈ k.registry.installed e ∧ q ≠ p := by
    intro e q
    rw [hr.registry, h.mem_destroy hp]
  refine ⟨hr.running.trans h.idle, hr.registry ▸ h.wf.apply _, ?_, ?_, ?_, ?_, ?_⟩
  · intro e q hq
    obtain ⟨hq, hne⟩ := (hmem e q).mp hq
    rw [hr.heap q hne, h.entity e q hq]
  · intro q hq
    rw [hr.ids, h.ids q (hr.length ▸ hq)]
  · rw [hr.global, hr.length, h.next]
  · intro hid q hq
    rw [hr.length]
    by_cases hne : hid = p + 1
    · subst hne
      exact h.map _ q (hr.own q hq)
    · exact h.map hid q (hr.map hid hne ▸ hq)
  · intro e q hq
    obtain ⟨hq, hne⟩ := (hmem e q).mp hq
    rw [hr.map _ fun heq => hne (Nat.succ.inj heq), h.mapped e q hq]

/-- The registry after the vector of the event of `p` lost `p`. -/
theorem registry_update (h : Sane k) (hp : p < k.heap.length) {hs : List (Option HandlerPtr)}
    (hhs : hs.reduceOption = (k.registry.installed (evOf k.heap p)).erase p)
    (hk : k'.handlers = Function.update k.handlers (evOf k.heap p) hs)
    (hlen : k'.heap.length = k.heap.length) : k'.registry = k.registry.apply (.destroy p) := by
  rw [Registry.apply, if_pos (show p < k.registry.made from hp)]
  simp only [Kernel.registry, hlen, hk, Registry.mk.injEq, and_true]
  funext e
  by_cases he : e = evOf k.heap p
  · subst he
    rw [Function.update_self, hhs]
    rfl
  · rw [Function.update_of_ne he]
    refine (List.erase_of_not_mem fun hm => he ?_).symm
    exact (h.ev hm).symm

theorem clear_eq (h : Sane k) (p : HandlerPtr) : k.clear p = k.deleteHandler p := by
  rw [Kernel.clear, h.idle]
  rfl

theorem clear_absent (h : Sane k) (hp : ¬ k.Present p) : k.clear p = (false, k) := by
  rw [clear_eq h, Kernel.deleteHandler, if_neg (show ¬ some p ∈ k.handlers (evOf k.heap p) from hp)]

theorem clear_present (h : Sane k) (hp : k.Present p) : k.clear p = (true, { k with
    heap := k.heap.modify p fun h => h.destroy.2
    handlers := Function.update k.handlers (evOf k.heap p)
      ((k.handlers (evOf k.heap p)).erase (some p)) }) := by
  rw [clear_eq h, Kernel.deleteHandler, if_pos (show some p ∈ k.handlers (evOf k.heap p) from hp)]

/-- `clear(HandlerPtr)` keeps the entry in `handler_map_`. -/
theorem clear_handlerMap (h : Sane k) (p : HandlerPtr) : (k.clear p).2.handlerMap = k.handlerMap := by
  by_cases hp : k.Present p
  · rw [clear_present h hp]
  · rw [clear_absent h hp]

theorem destroy_id (h : HandlerEntity) : h.destroy.2.id = h.id := by
  unfold HandlerEntity.destroy
  split <;> rfl

theorem clear_removed (h : Sane k) (hp : k.Present p) : Removed k (k.clear p).2 p := by
  rw [clear_present h hp]
  refine ⟨rfl, rfl, ?_, List.length_modify _ _ _, fun q => ?_, fun q hq => ?_, fun _ _ => rfl, fun _ hq => hq⟩
  · exact registry_update h (h.lt_of_present hp) (reduceOption_erase p _) rfl (List.length_modify _ _ _)
  · simp only [Kernel.idOf, List.getElem?_modify]
    split
    · rename_i hpq
      cases k.heap[q]? with
      | none => rfl
      | some e => simp [destroy_id]
    · simp
  · simp [Ne.symm hq]

/-- The handler is not active behind `clear(HandlerPtr)`. -/
theorem clear_inactive (h : Sane k) (hp : k.Present p) : (k.clear p).2.isActive p = false := by
  obtain ⟨e, hm⟩ := h.present_iff.mp hp
  rw [clear_present h hp]
  simp [Kernel.isActive, h.entity e p hm, HandlerEntity.destroy, HandlerEntity.new]

theorem clearId_unknown {hid : Nat} (hm : k.handlerMap.lookup hid = none) :
    k.clearId hid = (false, k) := by
  rw [Kernel.clearId, hm]

theorem clearId_known {hid : Nat} (hm : k.handlerMap.lookup hid = some p) :
    k.clearId hid = (true, { k with
      handlerMap := k.handlerMap.erase hid
      handlers := Function.update k.handlers (evOf k.heap p)
        (nullOut (fun q => k.idOf q == k.idOf p) (k.handlers (evOf k.heap p))) }) := by
  rw [Kernel.clearId, hm]

theorem clearId_removed (h : Sane k) {hid : Nat} (hm : k.handlerMap.lookup hid = some p) :
    Removed k (k.clearId hid).2 p := by
  obtain ⟨rfl, hlt⟩ := h.map hid p hm
  have hsame : ∀ q ∈ k.registry.installed (evOf k.heap p), (k.idOf q == k.idOf p) = true ↔ q = p := by
    intro q hq
    rw [h.ids q (h.wf.lt _ q hq), h.ids p hlt]
    simp
  rw [clearId_known hm]
  refine ⟨rfl, rfl, ?_, rfl, fun _ => rfl, fun _ _ => rfl, fun hid hne => AList.lookup_erase_ne hne, ?_⟩
  · exact registry_update h hlt ((reduceOption_nullOut _).trans (eraseP_eq_erase hsame)) rfl rfl
  · intro q hq
    rw [AList.lookup_erase] at hq
    cases hq

/-- The handler that was cleared is not present. -/
theorem Removed.absent (h : Sane k) (hp : p < k.heap.length) (hr : Removed k k' p) : ¬ k'.Present p := by
  intro hpres
  obtain ⟨e, hm⟩ := (h.remove hp hr).present_iff.mp hpres
  rw [hr.registry, h.mem_destroy hp] at hm
  exact hm.2 rfl

/-- The others stay. -/
theorem Removed.present (h : Sane k) (hp : p < k.heap.length) (hr : Removed k k' p) {q : HandlerPtr}
    (hq : k.Present q) (hne : q ≠ p) : k'.Present q := by
  obtain ⟨e, hm⟩ := h.present_iff.mp hq
  refine (h.remove hp hr).present_iff.mpr ⟨e, ?_⟩
  rw [hr.registry, h.mem_destroy hp]
  exact ⟨hm, hne⟩

end Steps

/-! ## Runs -/

theorem sane_new : Sane Kernel.new where
  idle := rfl
  wf := ⟨fun _ => List.nodup_nil, fun _ _ hp => nomatch hp⟩
  entity _ _ hp := nomatch hp
  ids _ hp := nomatch hp
  next := rfl
  map _ _ hm := nomatch hm
  mapped _ _ hp := nomatch hp

section Runs

variable {k : Kernel} {tr : List RegCall}

/-- **What every call keeps.** -/
theorem Sane.exec (h : Sane k) (c : RegCall) : Sane (c.exec k) := by
  cases c with
  | on eid => exact h.on eid
  | clear p =>
    by_cases hp : k.Present p
    · exact h.remove (h.lt_of_present hp) (clear_removed h hp)
    · rw [RegCall.exec, clear_absent h hp]
      exact h
  | clearId hid =>
    cases hm : k.handlerMap.lookup hid with
    | none =>
      rw [RegCall.exec, clearId_unknown hm]
      exact h
    | some p => exact h.remove (h.map hid p hm).2 (clearId_removed h hm)

theorem registered_concat (tr : List RegCall) (c : RegCall) :
    registered (tr ++ [c]) = c.exec (registered tr) := by
  simp [registered]

theorem sane_registered (tr : List RegCall) : Sane (registered tr) := by
  induction tr using List.reverseRecOn with
  | nil => exact sane_new
  | append_singleton tr c ih => exact registered_concat tr c ▸ ih.exec c

/-! ### What the calls do to the registry -/

/-- The calls of a registry behind a call. A handler has its pointer plus 1 as its id. -/
def RegCall.effect : RegCall → List Call
  | .on eid => [.on eid]
  | .clear p => [.destroy p]
  | .clearId 0 => []
  | .clearId (p + 1) => [.destroy p]

/-- A handler that is not installed cannot be taken out. -/
theorem apply_destroy_absent (h : Sane k) {p : HandlerPtr} (hp : ¬ k.Present p) :
    k.registry.apply (.destroy p) = k.registry := by
  simp only [Registry.apply]
  split
  · have hno : ∀ e, (k.registry.installed e).erase p = k.registry.installed e := fun e =>
      List.erase_of_not_mem fun hm => hp (h.present_iff.mpr ⟨e, hm⟩)
    simp only [hno]
  · rfl

theorem RegCall.exec_registry (h : Sane k) (c : RegCall) :
    (c.exec k).registry = c.effect.foldl Registry.apply k.registry := by
  cases c with
  | on eid => exact on_registry h eid
  | clear p =>
    by_cases hp : k.Present p
    · exact (clear_removed h hp).registry
    · rw [RegCall.exec, clear_absent h hp]
      exact (apply_destroy_absent h hp).symm
  | clearId hid =>
    cases hm : k.handlerMap.lookup hid with
    | some p =>
      obtain ⟨rfl, -⟩ := h.map hid p hm
      exact (clearId_removed h hm).registry
    | none =>
      rw [RegCall.exec, clearId_unknown hm]
      cases hid with
      | zero => rfl
      | succ p =>
        refine (apply_destroy_absent h fun hp => ?_).symm
        obtain ⟨e, hp⟩ := h.present_iff.mp hp
        rw [h.mapped e p hp] at hm
        cases hm

/-- **The handlers that packets reach are those of the registry**, in which both ways to clear are one
call. -/
theorem registered_registry (tr : List RegCall) :
    (registered tr).registry = (tr.flatMap RegCall.effect).foldl Registry.apply ⟨fun _ => [], 0⟩ := by
  induction tr using List.reverseRecOn with
  | nil => rfl
  | append_singleton tr c ih =>
    rw [registered_concat, RegCall.exec_registry (sane_registered tr), ih, List.flatMap_append,
      List.foldl_append, List.flatMap_singleton]

/-! ### When the indexes agree -/

theorem Sane.agree_on (h : Sane k) (ha : k.Agree) (eid : EventId) : (k.on eid).2.Agree := by
  refine (h.on eid).agree_iff.mpr fun p hp => (h.on eid).present_iff.mpr ?_
  rw [on_eq h] at hp
  simp only [on_registry h, mem_installed_on]
  by_cases hne : p = k.heap.length
  · exact ⟨eid, .inr ⟨rfl, hne⟩⟩
  · rw [AList.lookup_insert_ne fun heq => hne (Nat.succ.inj heq)] at hp
    obtain ⟨e, hm⟩ := h.present_iff.mp (h.agree_iff.mp ha p hp)
    exact ⟨e, .inl hm⟩

theorem Sane.agree_clearId (h : Sane k) (ha : k.Agree) (hid : Nat) : (k.clearId hid).2.Agree := by
  cases hm : k.handlerMap.lookup hid with
  | none => exact clearId_unknown hm ▸ ha
  | some p =>
    obtain ⟨rfl, hlt⟩ := h.map hid p hm
    have hr := clearId_removed h hm
    refine (h.remove hlt hr).agree_iff.mpr fun q hq => ?_
    have hne : q ≠ p := by
      rintro rfl
      rw [clearId_known hm, AList.lookup_erase] at hq
      cases hq
    rw [hr.map _ fun heq => hne (Nat.succ.inj heq)] at hq
    exact hr.present h hlt (h.agree_iff.mp ha q hq) hne

/-- **`handler_map_` and `handlers_` agree in every state of a run exactly when no registered handler is
cleared by its pointer.** -/
theorem maps_agree_iff (tr : List RegCall) :
    (∀ pre post, tr = pre ++ post → (registered pre).Agree) ↔
      ∀ pre p post, tr = pre ++ .clear p :: post → ¬ (registered pre).Present p := by
  constructor
  · rintro hall pre p post rfl hp
    have h := sane_registered pre
    have hagree := hall (pre ++ [.clear p]) post (by simp)
    rw [registered_concat] at hagree
    -- the entry of the handler is still there, and the handler is not
    have hr := clear_removed h hp
    obtain ⟨e, hm⟩ := h.present_iff.mp hp
    refine hr.absent h (h.lt_of_present hp) (((h.exec _).agree_iff.mp hagree) p ?_)
    rw [RegCall.exec, clear_handlerMap h, h.mapped e p hm]
  · intro hno pre
    induction pre using List.reverseRecOn with
    | nil => exact fun _ _ => sane_new.agree_iff.mpr fun p hp => nomatch hp
    | append_singleton pre c ih =>
      rintro post rfl
      have h := sane_registered pre
      have ha := ih (c :: post) (by simp)
      rw [registered_concat]
      cases c with
      | on eid => exact h.agree_on ha eid
      | clear p =>
        rw [RegCall.exec, clear_absent h (hno pre p post (by simp))]
        exact ha
      | clearId hid => exact h.agree_clearId ha hid

/-! ### When everything is right -/

theorem Sane.right_on (h : Sane k) (eid : EventId) : (RegCall.on eid).Right k := by
  intro p hp heq
  rw [on_eq h, h.ids p hp] at heq
  simp only [Kernel.idOf, List.getElem?_concat_length] at heq
  exact Nat.ne_of_lt hp (Nat.succ.inj (Option.some.inj heq))

/-- `clear(HandlerPtr)` answers and deactivates as it should. -/
theorem Sane.right_clear (h : Sane k) (p : HandlerPtr) : (RegCall.clear p).Right k := by
  by_cases hp : k.Present p
  · refine ⟨iff_of_true ?_ hp, fun _ => clear_inactive h hp⟩
    rw [clear_present h hp]
  · rw [RegCall.Right, clear_absent h hp]
    exact ⟨iff_of_false Bool.false_ne_true hp, fun hf => absurd hf Bool.false_ne_true⟩

/-- `clear(hdlr_id)` leaves a registered handler active. -/
theorem Sane.not_right_clearId (h : Sane k) {hid : Nat} (hc : (RegCall.clearId hid).Clears k) :
    ¬ (RegCall.clearId hid).Right k := by
  obtain ⟨p, hp, hid⟩ := hc
  obtain ⟨-, rfl⟩ := h.idOf_iff.mp hid
  obtain ⟨e, hm⟩ := h.present_iff.mp hp
  have hmap := h.mapped e p hm
  rintro ⟨-, hoff⟩
  rw [clearId_known hmap] at hoff
  exact absurd (h.active hp) (Bool.eq_false_iff.mp (hoff rfl p hid))

theorem Kernel.Agree.right_clearId (ha : k.Agree) {hid : Nat}
    (hc : ¬ (RegCall.clearId hid).Clears k) : (RegCall.clearId hid).Right k := by
  cases hm : k.handlerMap.lookup hid with
  | some p => exact absurd ⟨p, (ha.map hid p).mp hm⟩ hc
  | none =>
    rw [RegCall.Right, clearId_unknown hm]
    exact ⟨iff_of_false Bool.false_ne_true hc, fun hf => absurd hf Bool.false_ne_true⟩

/-- The indexes agree in every state of the run, and each of its calls is right. -/
structure Consistent (tr : List RegCall) : Prop where
  agree : ∀ pre post, tr = pre ++ post → (registered pre).Agree
  right : ∀ pre c post, tr = pre ++ c :: post → c.Right (registered pre)

/-- **The registry is consistent over a run exactly when no call clears a handler that is registered.** -/
theorem registry_consistent_iff (tr : List RegCall) :
    Consistent tr ↔ ∀ pre c post, tr = pre ++ c :: post → ¬ c.Clears (registered pre) := by
  constructor
  · rintro hall pre c post htr hc
    cases c with
    | on eid => exact hc
    | clear p => exact (maps_agree_iff tr).mp hall.agree pre p post htr hc
    | clearId hid => exact (sane_registered pre).not_right_clearId hc (hall.right pre _ post htr)
  · intro hno
    have hagree := (maps_agree_iff tr).mpr fun pre p post htr => hno pre (.clear p) post htr
    refine ⟨hagree, fun pre c post htr => ?_⟩
    have h := sane_registered pre
    cases c with
    | on eid => exact h.right_on eid
    | clear p => exact h.right_clear p
    | clearId hid => exact (hagree pre _ htr).right_clearId (hno pre _ post htr)

end Runs

/-- **A handler that is cleared by its pointer can be cleared again by its id**, and one that is cleared by
its id stays active. -/
theorem clear_twice : ¬ Consistent [.on 0, .clear 0, .clearId 1] ∧ ¬ Consistent [.on 0, .clearId 1] ∧
    ((registered [.on 0, .clear 0]).clearId 1).1 = true ∧
    (registered [.on 0, .clearId 1]).isActive 0 = true := by
  have hsane := sane_registered [.on 0]
  have hpres : (registered [.on 0]).Present 0 := by decide
  refine ⟨fun h => ?_, fun h => ?_, by decide, by decide⟩
  · exact (maps_agree_iff _).mp h.agree [.on 0] 0 [.clearId 1] rfl hpres
  · exact hsane.not_right_clearId ⟨0, hpres, by decide⟩ (h.right [.on 0] (.clearId 1) [] rfl)

end PacketMachine.Machine
