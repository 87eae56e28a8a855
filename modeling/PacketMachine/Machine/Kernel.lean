import Mathlib

/-!
# `Kernel`: handlers, change requests and the packet loop

Model of `HandlerEntity`, `ChangeRequest` and `Kernel` (`kernel.hpp`, `kernel.cc`) and of the parts
of `Handler` and `Machine` that a callback can reach (`packetmachine.cc:82-122`, `216-222`).

* A `HandlerPtr` is the number of the `new HandlerEntity` that made it: `heap[p]` is the entity.
  `handler_map_` keeps a `shared_ptr` to every handler ever added, so no entity is freed while the
  kernel lives, and a `Handler`'s `weak_ptr` locks as soon as its entity exists.
* `handlers_` has one vector per event id; it is a function of the id. `clear(hdlr_id)` leaves
  `nullptr` entries, so an entry is an `Option`.
* `msg_channel_` is the list of queued requests, oldest first.
* A callback is the list of `Call`s it makes. A `Behaviour` gives that list from the log of all
  invocations up to and including the current one, so that over all behaviours every sequence of
  call lists occurs, whatever a callback reads or remembers.
* `invoked` is that log. `recv_pkt_` and `recv_size_` are left out: nothing here reads them.
-/

namespace PacketMachine.Machine

/-- `HandlerPtr`. -/
abbrev HandlerPtr := Nat

/-- `event_id`, of an event that exists. -/
abbrev EventId := Nat

/-! ## `HandlerEntity` -/

/-- `HandlerEntity`, without its callback (see `Behaviour`). -/
structure HandlerEntity where
  evId : EventId
  id : Nat
  active : Bool
  destroyed : Bool
  deriving DecidableEq, Repr

/-- `HandlerEntity::HandlerEntity`. -/
def HandlerEntity.new (hid : Nat) (evId : EventId) : HandlerEntity where
  evId := evId
  id := hid
  active := true
  destroyed := false

/-- `HandlerEntity::activate`. -/
def HandlerEntity.activate (h : HandlerEntity) : Bool × HandlerEntity :=
  if h.destroyed = true ∨ h.active = true then (false, h) else (true, { h with active := true })

/-- `HandlerEntity::deactivate`. -/
def HandlerEntity.deactivate (h : HandlerEntity) : Bool × HandlerEntity :=
  if h.destroyed = true ∨ h.active = false then (false, h) else (true, { h with active := false })

/-- `HandlerEntity::destroy`. -/
def HandlerEntity.destroy (h : HandlerEntity) : Bool × HandlerEntity :=
  if h.destroyed = true then (false, h) else (true, { h with active := false, destroyed := true })

/-! ## `Kernel` -/

/-- `AddHandler` and `DeleteHandler`. -/
inductive ChangeRequest where
  | add (ptr : HandlerPtr)
  | delete (ptr : HandlerPtr)
  deriving DecidableEq, Repr

/-- The handler a request is about. -/
def ChangeRequest.ptr : ChangeRequest → HandlerPtr
  | .add p => p
  | .delete p => p

/-- `Kernel`. -/
structure Kernel where
  handlers : EventId → List (Option HandlerPtr)
  handlerMap : AList (fun _ : Nat => HandlerPtr)
  globalHdlrId : Nat
  running : Bool
  msgs : List ChangeRequest
  heap : List HandlerEntity
  invoked : List HandlerPtr

/-- `Kernel::Kernel`. -/
def Kernel.new : Kernel where
  handlers := fun _ => []
  handlerMap := ∅
  globalHdlrId := 0
  running := false
  msgs := []
  heap := []
  invoked := []

/-- `ptr->ev_id()`. -/
def evOf (heap : List HandlerEntity) (p : HandlerPtr) : EventId :=
  match heap[p]? with
  | some h => h.evId
  | none => 0

/-- `ptr->is_active()`. -/
def Kernel.isActive (k : Kernel) (p : HandlerPtr) : Bool :=
  match k.heap[p]? with
  | some h => h.active
  | none => false

/-- `Kernel::add_handler`. `std::map::insert` keeps an entry that is already there. -/
def Kernel.addHandler (k : Kernel) (p : HandlerPtr) : Bool × Kernel :=
  let hid := match k.heap[p]? with
    | some h => h.id
    | none => 0
  let map := if hid ∈ k.handlerMap then k.handlerMap else k.handlerMap.insert hid p
  let eid := evOf k.heap p
  (true, { k with
    handlerMap := map
    handlers := Function.update k.handlers eid (k.handlers eid ++ [some p]) })

/-- `Kernel::delete_handler`. -/
def Kernel.deleteHandler (k : Kernel) (p : HandlerPtr) : Bool × Kernel :=
  let eid := evOf k.heap p
  if some p ∈ k.handlers eid then
    (true, { k with
      heap := k.heap.modify p fun h => h.destroy.2
      handlers := Function.update k.handlers eid ((k.handlers eid).erase (some p)) })
  else (false, k)

/-- `ChangeRequest::change`. -/
def ChangeRequest.change (k : Kernel) : ChangeRequest → Bool × Kernel
  | .add p => k.addHandler p
  | .delete p => k.deleteHandler p

/-- `Kernel::on` once `lookup_event_id` has found the event. -/
def Kernel.on (k : Kernel) (eid : EventId) : HandlerPtr × Kernel :=
  let hid := k.globalHdlrId + 1
  let entry := k.heap.length
  let k := { k with globalHdlrId := hid, heap := k.heap ++ [HandlerEntity.new hid eid] }
  if k.running then (entry, { k with msgs := k.msgs ++ [.add entry] })
  else (entry, (k.addHandler entry).2)

/-- `Kernel::clear(HandlerPtr)`. -/
def Kernel.clear (k : Kernel) (p : HandlerPtr) : Bool × Kernel :=
  if k.running then (true, { k with msgs := k.msgs ++ [.delete p] })
  else k.deleteHandler p

/-! ## What a callback can do -/

/-- A call to `Machine::on` with an existing event name, or to `destroy`, `activate` or `deactivate`
of a `Handler`. -/
inductive Call where
  | on (eid : EventId)
  | destroy (ptr : HandlerPtr)
  | activate (ptr : HandlerPtr)
  | deactivate (ptr : HandlerPtr)
  deriving DecidableEq, Repr

/-- The effect of a call. `Handler::destroy` goes through `Kernel::clear`; the two others change the
entity at once. A handler that was never made has no `Handler` object to call. -/
def Call.exec (k : Kernel) : Call → Kernel
  | .on eid => (k.on eid).2
  | .destroy p => if p < k.heap.length then (k.clear p).2 else k
  | .activate p => { k with heap := k.heap.modify p fun h => h.activate.2 }
  | .deactivate p => { k with heap := k.heap.modify p fun h => h.deactivate.2 }

/-- What the callbacks do: the calls of the latest invocation in the log. -/
abbrev Behaviour := List HandlerPtr → List Call

/-! ## The packet loop -/

/-- `(entry->callback())(prop)`. -/
def Kernel.invoke (beh : Behaviour) (k : Kernel) (p : HandlerPtr) : Kernel :=
  (beh (k.invoked ++ [p])).foldl Call.exec { k with invoked := k.invoked ++ [p] }

/-- The body of the loop over the handlers of one event. -/
def Kernel.visit (beh : Behaviour) (k : Kernel) : Option HandlerPtr → Kernel
  | none => k
  | some p => if k.isActive p then k.invoke beh p else k

/-- The two nested loops over the events of a packet and the handlers of each event. The inner
`for` runs over the vector as it stands when the loop reaches the event. -/
def Kernel.dispatch (beh : Behaviour) (k : Kernel) (evs : List EventId) : Kernel :=
  evs.foldl (fun k eid => (k.handlers eid).foldl (Kernel.visit beh) k) k

/-- The body of `while (has_msg())`, once per queued request. -/
def Kernel.handleRequests : List ChangeRequest → Kernel → Kernel
  | [], k => k
  | r :: rs, k => Kernel.handleRequests rs (r.change { k with msgs := rs }).2

/-- `while (has_msg()) { req = pull(); req->change(this); }`. -/
def Kernel.drain (k : Kernel) : Kernel := Kernel.handleRequests k.msgs k

/-- One turn of the loop in `Kernel::thread_main`: a packet with the events `evs` is dispatched, and
then the requests are handled. -/
def Kernel.packet (beh : Behaviour) (k : Kernel) (evs : List EventId) : Kernel :=
  (k.dispatch beh evs).drain

/-- `Kernel::thread_main` up to the end of the packets `pkts`, each given by its events. -/
def Kernel.packets (beh : Behaviour) (k : Kernel) (pkts : List (List EventId)) : Kernel :=
  pkts.foldl (Kernel.packet beh) { k with running := true }

end PacketMachine.Machine
