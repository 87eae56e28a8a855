import PacketMachine.Lib.Run

/-!
# `MsgQueue`: change requests on their way to the kernel thread

Model of `MsgQueue<T>` (`channel.hpp:152-199`) as a system of any number of threads that call `push`
and one thread that calls `has_msg` and `pull`. The bodies of `push` and `pull` run between
`pthread_mutex_lock` and `pthread_mutex_unlock`; `has_msg` loads `has_msg_` without the lock. So the
stores to `has_msg_` are actions of their own, and the consumer may load the flag between a
`push_back` and the store that announces it.

* `Tid` names the pushing threads; it is any type. A consumer that calls `push` itself (a handler
  that calls `on`) is one more of them, with fewer interleavings.
* The consumer calls `pull` only after `has_msg` returned true, as `Kernel::thread_main` does.
* Locking and unlocking a mutex that the thread does not hold, respectively holds, succeed, so the
  two exceptions about the mutex are left out. "no data in queue" is a state of its own (`threw`),
  and it leaves the mutex locked.
* `order` records the values in the order in which their `push` got the lock, `completed` those
  whose `push` has returned, `pulled` those `pull` has returned. No action reads them.

Results:
* `Inv`: the order of the lock is what was pulled, what `pull` holds in hand, the queue, and the
  value of a `push` that has not stored it yet; and the flag says whether anything is left once a
  popped value is put back and an unannounced one is taken away.
* `exactly_once_in_order`: the properties of the queue over every run.
-/

namespace PacketMachine.MsgQueue

open PacketMachine.Lib

variable {Tid T : Type}

/-! ## The threads -/

/-- Where a pushing thread stands. -/
inductive Producer (T : Type) where
  /-- Outside `push`. -/
  | idle
  /-- In `push(data)`, at `pthread_mutex_lock`. -/
  | call (data : T)
  /-- Has the lock, at `queue_.push_back(data)`. -/
  | locked (data : T)
  /-- At `has_msg_ = true`. -/
  | stored (data : T)
  /-- At `pthread_mutex_unlock`. -/
  | flagged (data : T)
  deriving DecidableEq, Repr

/-- Where the consumer stands. -/
inductive Consumer (T : Type) where
  /-- Outside `has_msg` and `pull`. -/
  | idle
  /-- `has_msg` has returned `b`. -/
  | seen (b : Bool)
  /-- In `pull`, has the lock, at the test `queue_.empty()`. -/
  | locked
  /-- `data` was popped; at `if (queue_.empty()) has_msg_ = false`. -/
  | popped (data : T)
  /-- At `pthread_mutex_unlock`. -/
  | settled (data : T)
  /-- `pull` has thrown "no data in queue". -/
  | threw
  deriving DecidableEq, Repr

/-- Who holds `lock_`. -/
inductive Owner (Tid : Type) where
  | producer (t : Tid)
  | consumer
  deriving DecidableEq, Repr

/-- The atomic actions. -/
inductive Action (Tid T : Type) where
  /-- Thread `t` calls `push(data)`. -/
  | push (t : Tid) (data : T)
  /-- `push`: `pthread_mutex_lock`. -/
  | lock (t : Tid)
  /-- `push`: `queue_.push_back(data)`. -/
  | store (t : Tid)
  /-- `push`: `has_msg_ = true`. -/
  | flag (t : Tid)
  /-- `push`: `pthread_mutex_unlock`, and return. -/
  | unlock (t : Tid)
  /-- `has_msg`: load `has_msg_`. -/
  | load
  /-- `pull`: `pthread_mutex_lock`. -/
  | pull
  /-- `pull`: the test, `queue_.front()` and `queue_.pop_front()`. -/
  | pop
  /-- `pull`: `has_msg_ = false` when the queue has become empty. -/
  | settle
  /-- `pull`: `pthread_mutex_unlock`, and return. -/
  | give
  deriving DecidableEq, Repr

/-- The fields of the queue, where the threads stand, and what went in and came out so far. -/
structure State (Tid T : Type) where
  hasMsg : Bool
  lock : Option (Owner Tid)
  queue : List T
  producer : Tid → Producer T
  consumer : Consumer T
  order : List T
  completed : List T
  pulled : List T

/-- The constructor, before any thread uses the queue. -/
def init : State Tid T where
  hasMsg := false
  lock := none
  queue := []
  producer := fun _ => .idle
  consumer := .idle
  order := []
  completed := []
  pulled := []

/-- Thread `t` moves to `p`. -/
def State.goto [DecidableEq Tid] (s : State Tid T) (t : Tid) (p : Producer T) : State Tid T :=
  { s with producer := Function.update s.producer t p }

/-- One atomic action; `none` when the thread stands elsewhere or the lock is taken. -/
def step [DecidableEq Tid] (s : State Tid T) : Action Tid T → Option (State Tid T)
  | .push t data => match s.producer t with
    | .idle => some (s.goto t (.call data))
    | _ => none
  | .lock t => match s.producer t, s.lock with
    | .call data, none => some { s.goto t (.locked data) with
        lock := some (.producer t), order := s.order ++ [data] }
    | _, _ => none
  | .store t => match s.producer t with
    | .locked data => some { s.goto t (.stored data) with queue := s.queue ++ [data] }
    | _ => none
  | .flag t => match s.producer t with
    | .stored data => some { s.goto t (.flagged data) with hasMsg := true }
    | _ => none
  | .unlock t => match s.producer t with
    | .flagged data => some { s.goto t .idle with
        lock := none, completed := s.completed ++ [data] }
    | _ => none
  | .load => match s.consumer with
    | .idle => some { s with consumer := .seen s.hasMsg }
    | .seen _ => some { s with consumer := .seen s.hasMsg }
    | _ => none
  | .pull => match s.consumer, s.lock with
    | .seen true, none => some { s with lock := some .consumer, consumer := .locked }
    | _, _ => none
  | .pop => match s.consumer, s.queue with
    | .locked, [] => some { s with consumer := .threw }
    | .locked, data :: rest => some { s with queue := rest, consumer := .popped data }
    | _, _ => none
  | .settle => match s.consumer with
    | .popped data => some { s with
        hasMsg := if s.queue = [] then false else s.hasMsg, consumer := .settled data }
    | _ => none
  | .give => match s.consumer with
    | .settled data => some { s with
        lock := none, consumer := .idle, pulled := s.pulled ++ [data] }
    | _ => none

/-- What each action does, and where it can happen. -/
inductive Move [DecidableEq Tid] (s : State Tid T) : Action Tid T → State Tid T → Prop
  | push {t : Tid} {data : T} (ht : s.producer t = .idle) :
      Move s (.push t data) (s.goto t (.call data))
  | lock {t : Tid} {data : T} (ht : s.producer t = .call data) (hl : s.lock = none) :
      Move s (.lock t) { s.goto t (.locked data) with
        lock := some (.producer t), order := s.order ++ [data] }
  | store {t : Tid} {data : T} (ht : s.producer t = .locked data) :
      Move s (.store t) { s.goto t (.stored data) with queue := s.queue ++ [data] }
  | flag {t : Tid} {data : T} (ht : s.producer t = .stored data) :
      Move s (.flag t) { s.goto t (.flagged data) with hasMsg := true }
  | unlock {t : Tid} {data : T} (ht : s.producer t = .flagged data) :
      Move s (.unlock t) { s.goto t .idle with
        lock := none, completed := s.completed ++ [data] }
  | load (hc : s.consumer = .idle ∨ ∃ b, s.consumer = .seen b) :
      Move s .load { s with consumer := .seen s.hasMsg }
  | pull (hc : s.consumer = .seen true) (hl : s.lock = none) :
      Move s .pull { s with lock := some .consumer, consumer := .locked }
  | throw (hc : s.consumer = .locked) (hq : s.queue = []) :
      Move s .pop { s with consumer := .threw }
  | pop {data : T} {rest : List T} (hc : s.consumer = .locked) (hq : s.queue = data :: rest) :
      Move s .pop { s with queue := rest, consumer := .popped data }
  | settle {data : T} (hc : s.consumer = .popped data) :
      Move s .settle { s with
        hasMsg := if s.queue = [] then false else s.hasMsg, consumer := .settled data }
  | give {data : T} (hc : s.consumer = .settled data) :
      Move s .give { s with lock := none, consumer := .idle, pulled := s.pulled ++ [data] }

theorem move_of_step [DecidableEq Tid] {s s' : State Tid T} {a : Action Tid T}
    (hs : step s a = some s') : Move s a s' := by
  cases a <;> simp only [step] at hs <;> split at hs <;> cases hs
  · rename_i ht
    exact .push ht
  · rename_i ht hl
    exact .lock ht hl
  · rename_i ht
    exact .store ht
  · rename_i ht
    exact .flag ht
  · rename_i ht
    exact .unlock ht
  · rename_i hc
    exact .load (.inl hc)
  · rename_i b hc
    exact .load (.inr ⟨b, hc⟩)
  · rename_i hc hl
    exact .pull hc hl
  · rename_i hc hq
    exact .throw hc hq
  · rename_i hc hq
    exact .pop hc hq
  · rename_i hc
    exact .settle hc
  · rename_i hc
    exact .give hc

/-! ## The invariant

The lock makes at most one thread stand inside `push` or `pull`. What this thread has in hand
tells how far the queue and the flag are from agreeing. -/

/-- The positions inside `push` at which the thread holds the lock. -/
def Producer.holds : Producer T → Bool
  | .idle => false
  | .call _ => false
  | .locked _ => true
  | .stored _ => true
  | .flagged _ => true

/-- The positions inside `pull` at which the consumer holds the lock. -/
def Consumer.holds : Consumer T → Bool
  | .idle => false
  | .seen _ => false
  | .locked => true
  | .popped _ => true
  | .settled _ => true
  | .threw => true

/-- The value of a `push` that has the lock and has not returned. -/
def Producer.held : Producer T → List T
  | .locked data => [data]
  | .stored data => [data]
  | .flagged data => [data]
  | _ => []

/-- The value of a `push` that has the lock and has not stored it. -/
def Producer.unstored : Producer T → List T
  | .locked data => [data]
  | _ => []

/-- How many values lie in the queue for which the flag is not yet set. -/
def Producer.unannounced : Producer T → Nat
  | .stored _ => 1
  | _ => 0

/-- The value `pull` has popped and not returned. -/
def Consumer.taken : Consumer T → List T
  | .popped data => [data]
  | .settled data => [data]
  | _ => []

/-- How many values have left the queue while the flag still counts them. -/
def Consumer.unsettled : Consumer T → Nat
  | .popped _ => 1
  | _ => 0

/-- The consumer has seen the flag and has not popped yet. -/
def Consumer.expects : Consumer T → Bool
  | .seen b => b
  | .locked => true
  | _ => false

/-- Where the thread stands that holds the lock in `push`. -/
def State.inPush (s : State Tid T) : Producer T :=
  match s.lock with
  | some (.producer t) => s.producer t
  | _ => .idle

/-- The invariant of the queue. -/
structure Inv (s : State Tid T) : Prop where
  producer : ∀ t, (s.producer t).holds = true ↔ s.lock = some (.producer t)
  consumer : s.consumer.holds = true ↔ s.lock = some .consumer
  /-- Nothing is lost on the way from the lock to the consumer. -/
  order : s.order = s.pulled ++ (s.consumer.taken ++ (s.queue ++ s.inPush.unstored))
  completed : s.order = s.completed ++ s.inPush.held
  flag : s.hasMsg = true ↔ s.inPush.unannounced < s.consumer.unsettled + s.queue.length
  unannounced : s.inPush.unannounced ≤ s.queue.length
  expects : s.consumer.expects = true → s.hasMsg = true
  no_throw : s.consumer ≠ .threw

theorem inv_init : Inv (init : State Tid T) where
  producer := by simp [init, Producer.holds]
  consumer := by simp [init, Consumer.holds]
  order := rfl
  completed := rfl
  flag := by simp [init, Consumer.unsettled]
  unannounced := Nat.le_refl _
  expects := by simp [init, Consumer.expects]
  no_throw := by simp [init]

section Producers

variable {s : State Tid T} {t : Tid}

/-- What the invariant says while thread `t` has the lock. -/
theorem Inv.inPush_eq (h : Inv s) (ht : (s.producer t).holds = true) :
    s.lock = some (.producer t) ∧ s.inPush = s.producer t := by
  have hl := (h.producer t).mp ht
  exact ⟨hl, by simp [State.inPush, hl]⟩

/-- No thread is inside `push` with the lock while the lock is free. -/
theorem inPush_free (hl : s.lock = none) : s.inPush = .idle := by
  simp [State.inPush, hl]

/-- Nor while the consumer has it. -/
theorem Inv.inPush_pull (h : Inv s) (hc : s.consumer.holds = true) :
    s.lock = some .consumer ∧ s.inPush = .idle := by
  have hl := h.consumer.mp hc
  exact ⟨hl, by simp [State.inPush, hl]⟩

/-- The consumer has nothing in hand while a thread inside `push` has the lock, or nobody has. -/
theorem Inv.consumer_out (h : Inv s) (hl : s.lock ≠ some .consumer) :
    s.consumer.holds = false ∧ s.consumer.taken = [] ∧ s.consumer.unsettled = 0 := by
  have hc : s.consumer.holds = false := by
    rw [← Bool.not_eq_true, h.consumer]
    exact hl
  refine ⟨hc, ?_⟩
  revert hc
  cases s.consumer <;> simp [Consumer.holds, Consumer.taken, Consumer.unsettled]

variable [DecidableEq Tid]

/-- The lock's owner is at the new position, or the owner is another thread. -/
theorem inPush_goto (p : Producer T) :
    (s.goto t p).inPush = if s.lock = some (.producer t) then p else s.inPush := by
  unfold State.inPush State.goto
  rcases h : s.lock with _ | u | _
  · simp
  · by_cases hu : u = t
    · simp [hu]
    · simp [hu]
  · simp

/-- A thread that holds no lock moves to a position at which it holds none. -/
theorem Inv.goto (h : Inv s) {p : Producer T} (hs : (s.producer t).holds = false)
    (hp : p.holds = false) : Inv (s.goto t p) := by
  have hl : s.lock ≠ some (.producer t) := by
    intro hl
    rw [← h.producer t, hs] at hl
    exact absurd hl (by simp)
  have hin : (s.goto t p).inPush = s.inPush := by rw [inPush_goto, if_neg hl]
  refine { h with
    producer := fun u => ?_, order := by rw [hin]; exact h.order,
    completed := by rw [hin]; exact h.completed, flag := by rw [hin]; exact h.flag,
    unannounced := by rw [hin]; exact h.unannounced }
  by_cases hu : u = t
  · subst hu
    simp [State.goto, hp, hl]
  · simpa [State.goto, hu] using h.producer u

/-- The other threads stand outside the lock before and after a move of the thread that has it, gets
it or returns it. -/
theorem Inv.others (h : Inv s) {p : Producer T} {o : Option (Owner Tid)}
    (hl : s.lock = none ∨ s.lock = some (.producer t))
    (ho : (o = none ∧ p.holds = false) ∨ (o = some (.producer t) ∧ p.holds = true)) (u : Tid) :
    (Function.update s.producer t p u).holds = true ↔ o = some (.producer u) := by
  by_cases hu : u = t
  · subst hu
    rcases ho with ⟨rfl, hp⟩ | ⟨rfl, hp⟩ <;> simp [hp]
  · have hout : ¬ (s.producer u).holds = true := by
      rw [h.producer u]
      rcases hl with hl | hl <;> simp [hl, Ne.symm hu]
    rcases ho with ⟨rfl, -⟩ | ⟨rfl, -⟩ <;> simp [hu, hout, Ne.symm hu]

theorem Inv.lock (h : Inv s) (data : T) (hl : s.lock = none) :
    Inv { s.goto t (.locked data) with
      lock := some (.producer t), order := s.order ++ [data] } := by
  obtain ⟨hc, htaken, hun⟩ := h.consumer_out (by simp [hl])
  have ho := h.order
  have hcomp := h.completed
  have hf := h.flag
  rw [inPush_free hl] at ho hcomp hf
  exact {
    producer := h.others (.inl hl) (.inr ⟨rfl, rfl⟩)
    consumer := by simp [State.goto, hc]
    order := by simp [State.inPush, State.goto, Producer.unstored, ho]
    completed := by simpa [State.inPush, State.goto, Producer.held] using hcomp
    flag := by simpa [State.inPush, State.goto, Producer.unannounced] using hf
    unannounced := by simp [State.inPush, State.goto, Producer.unannounced]
    expects := h.expects
    no_throw := h.no_throw }

theorem Inv.store (h : Inv s) {data : T} (ht : s.producer t = .locked data) :
    Inv { s.goto t (.stored data) with queue := s.queue ++ [data] } := by
  obtain ⟨hl, hin⟩ := h.inPush_eq (t := t) (by simp [ht, Producer.holds])
  obtain ⟨hc, htaken, hun⟩ := h.consumer_out (by simp [hl])
  have ho := h.order
  have hcomp := h.completed
  have hf := h.flag
  rw [hin, ht] at ho hcomp hf
  exact {
    producer := h.others (.inr hl) (.inr ⟨hl, rfl⟩)
    consumer := by simp [State.goto, hc, hl]
    order := by simpa [State.inPush, State.goto, hl, Producer.unstored] using ho
    completed := by simpa [State.inPush, State.goto, hl, Producer.held] using hcomp
    flag := by simpa [State.inPush, State.goto, hl, hun, Producer.unannounced] using hf
    unannounced := by simp [State.inPush, State.goto, hl, Producer.unannounced]
    expects := h.expects
    no_throw := h.no_throw }

/-- The value that was stored is still in the queue when the flag is set. -/
theorem Inv.announce (h : Inv s) {data : T} (ht : s.producer t = .stored data) :
    Inv { s.goto t (.flagged data) with hasMsg := true } := by
  obtain ⟨hl, hin⟩ := h.inPush_eq (t := t) (by simp [ht, Producer.holds])
  obtain ⟨hc, htaken, hun⟩ := h.consumer_out (by simp [hl])
  have ho := h.order
  have hcomp := h.completed
  have hq := h.unannounced
  rw [hin, ht] at ho hcomp hq
  exact {
    producer := h.others (.inr hl) (.inr ⟨hl, rfl⟩)
    consumer := by simp [State.goto, hc, hl]
    order := by simpa [State.inPush, State.goto, hl, Producer.unstored] using ho
    completed := by simpa [State.inPush, State.goto, hl, Producer.held] using hcomp
    flag := by
      simp only [State.inPush, State.goto, hl, Function.update_self, Producer.unannounced] at hq ⊢
      simp only [true_iff]
      omega
    unannounced := by simp [State.inPush, State.goto, hl, Producer.unannounced]
    expects := fun _ => rfl
    no_throw := h.no_throw }

theorem Inv.unlock (h : Inv s) {data : T} (ht : s.producer t = .flagged data) :
    Inv { s.goto t .idle with lock := none, completed := s.completed ++ [data] } := by
  obtain ⟨hl, hin⟩ := h.inPush_eq (t := t) (by simp [ht, Producer.holds])
  obtain ⟨hc, htaken, hun⟩ := h.consumer_out (by simp [hl])
  have ho := h.order
  have hcomp := h.completed
  have hf := h.flag
  rw [hin, ht] at ho hcomp hf
  exact {
    producer := h.others (.inr hl) (.inl ⟨rfl, rfl⟩)
    consumer := by simp [State.goto, hc]
    order := by simpa [State.inPush, State.goto, Producer.unstored] using ho
    completed := by simpa [State.inPush, State.goto, Producer.held] using hcomp
    flag := by simpa [State.inPush, State.goto, Producer.unannounced] using hf
    unannounced := by simp [State.inPush, Producer.unannounced]
    expects := h.expects
    no_throw := h.no_throw }

end Producers

section Consumer

variable {s : State Tid T}

theorem Inv.load (h : Inv s) (hc : s.consumer = .idle ∨ ∃ b, s.consumer = .seen b) :
    Inv { s with consumer := .seen s.hasMsg } := by
  obtain ⟨hout, htaken, hun⟩ : s.consumer.holds = false ∧ s.consumer.taken = [] ∧
      s.consumer.unsettled = 0 := by
    rcases hc with hc | ⟨b, hc⟩ <;> simp [hc, Consumer.holds, Consumer.taken, Consumer.unsettled]
  have hl : s.lock ≠ some .consumer := by
    rw [Ne, ← h.consumer, hout]
    simp
  have ho := h.order
  have hf := h.flag
  rw [htaken] at ho
  rw [hun] at hf
  exact {
    producer := h.producer
    consumer := by simp [Consumer.holds, hl]
    order := ho
    completed := h.completed
    flag := hf
    unannounced := h.unannounced
    expects := fun hb => hb
    no_throw := by simp }

theorem Inv.pull (h : Inv s) (hc : s.consumer = .seen true) (hl : s.lock = none) :
    Inv { s with lock := some .consumer, consumer := .locked } := by
  have ho := h.order
  have hcomp := h.completed
  have hf := h.flag
  rw [inPush_free hl, hc] at ho hf
  rw [inPush_free hl] at hcomp
  exact {
    producer := by simpa [hl] using h.producer
    consumer := by simp [Consumer.holds]
    order := ho
    completed := hcomp
    flag := hf
    unannounced := Nat.zero_le _
    expects := fun _ => h.expects (by simp [hc, Consumer.expects])
    no_throw := by simp }

/-- The consumer has seen the flag and only the consumer clears it, so under the lock the queue is
not empty. -/
theorem Inv.locked_nonempty (h : Inv s) (hc : s.consumer = .locked) : s.queue ≠ [] := by
  obtain ⟨hl, hin⟩ := h.inPush_pull (by simp [hc, Consumer.holds])
  have hf := h.flag.mp (h.expects (by simp [hc, Consumer.expects]))
  rw [hin, hc] at hf
  intro hq
  simp [hq, Producer.unannounced, Consumer.unsettled] at hf

theorem Inv.pop (h : Inv s) (hc : s.consumer = .locked) {data : T} {rest : List T}
    (hq : s.queue = data :: rest) : Inv { s with queue := rest, consumer := .popped data } := by
  obtain ⟨hl, hin⟩ := h.inPush_pull (by simp [hc, Consumer.holds])
  have ho := h.order
  have hm := h.expects (by simp [hc, Consumer.expects])
  rw [hin, hc, hq] at ho
  have hin' : State.inPush { s with queue := rest, consumer := .popped data } = .idle := hin
  exact {
    producer := h.producer
    consumer := by simp [Consumer.holds, hl]
    order := by simpa [hin', Consumer.taken] using ho
    completed := h.completed
    flag := by
      rw [hin']
      simp only [hm, true_iff, Producer.unannounced, Consumer.unsettled]
      omega
    unannounced := by simp [hin', Producer.unannounced]
    expects := by simp [Consumer.expects]
    no_throw := by simp }

theorem Inv.settle (h : Inv s) {data : T} (hc : s.consumer = .popped data) :
    Inv { s with
      hasMsg := if s.queue = [] then false else s.hasMsg, consumer := .settled data } := by
  obtain ⟨hl, hin⟩ := h.inPush_pull (by simp [hc, Consumer.holds])
  have ho := h.order
  have hf := h.flag
  rw [hin, hc] at hf
  rw [hc] at ho
  have hin' : State.inPush { s with
      hasMsg := if s.queue = [] then false else s.hasMsg, consumer := .settled data } = .idle := hin
  exact {
    producer := h.producer
    consumer := by simp [Consumer.holds, hl]
    order := ho
    completed := h.completed
    flag := by
      rw [hin']
      by_cases hq : s.queue = []
      · simp [hq, Producer.unannounced, Consumer.unsettled]
      · simp only [hq, if_false, Producer.unannounced, Consumer.unsettled] at hf ⊢
        have := List.length_pos_iff.mpr hq
        simp only [hf]
        omega
    unannounced := by rw [hin']; exact Nat.zero_le _
    expects := by simp [Consumer.expects]
    no_throw := by simp }

theorem Inv.give (h : Inv s) {data : T} (hc : s.consumer = .settled data) :
    Inv { s with lock := none, consumer := .idle, pulled := s.pulled ++ [data] } := by
  obtain ⟨hl, hin⟩ := h.inPush_pull (by simp [hc, Consumer.holds])
  have ho := h.order
  have hcomp := h.completed
  have hf := h.flag
  rw [hin, hc] at ho hf
  rw [hin] at hcomp
  exact {
    producer := by simpa [hl] using h.producer
    consumer := by simp [Consumer.holds]
    order := by simpa [State.inPush, Consumer.taken] using ho
    completed := by simpa [State.inPush] using hcomp
    flag := by simpa [State.inPush, Consumer.unsettled] using hf
    unannounced := by simp [State.inPush, Producer.unannounced]
    expects := by simp [Consumer.expects]
    no_throw := by simp }

end Consumer

/-! ## What the invariant says -/

/-- The lock order has grown by what was pulled first. -/
theorem Inv.pulled_prefix {s : State Tid T} (h : Inv s) : s.pulled <+: s.order :=
  ⟨_, h.order.symm⟩

/-- With the lock free, nothing is in hand and the flag is exact. -/
theorem Inv.flag_free {s : State Tid T} (h : Inv s) (hl : s.lock = none) :
    s.hasMsg = true ↔ s.queue ≠ [] := by
  obtain ⟨-, -, hun⟩ := h.consumer_out (by simp [hl])
  rw [h.flag, inPush_free hl, hun, ← List.length_pos_iff]
  simp [Producer.unannounced]

/-- While the flag is down, what is still in the queue and what is still to be stored belong to the
one `push` that has not returned. -/
theorem Inv.completed_prefix {s : State Tid T} (h : Inv s) (hout : s.consumer.holds = false)
    (hm : s.hasMsg = false) : s.completed <+: s.pulled := by
  have hl : s.lock ≠ some .consumer := by
    rw [Ne, ← h.consumer, hout]
    simp
  obtain ⟨-, htaken, hun⟩ := h.consumer_out hl
  have hq : s.queue.length ≤ s.inPush.unannounced := by
    have hf := h.flag
    rw [hm, hun] at hf
    simp only [Bool.false_eq_true, false_iff, not_lt, Nat.zero_add] at hf
    exact hf
  have hheld : s.inPush.unannounced + s.inPush.unstored.length ≤ s.inPush.held.length := by
    cases s.inPush <;> simp [Producer.unannounced, Producer.unstored, Producer.held]
  have ho := congrArg List.length h.order
  have hc := congrArg List.length h.completed
  simp only [htaken, List.length_append, List.length_nil] at ho hc
  have hle : s.completed.length ≤ s.pulled.length := by omega
  exact List.prefix_of_prefix_length_le ⟨_, h.completed.symm⟩ h.pulled_prefix hle

/-- With the flag down and no announced `push` under way, what has been pulled is what the returned
calls pushed. -/
theorem Inv.pulled_eq {s : State Tid T} (h : Inv s) (hout : s.consumer.holds = false)
    (hm : s.hasMsg = false) (hf : ∀ t d, s.producer t = .flagged d → s.hasMsg = true) :
    s.pulled = s.completed := by
  have hheld : s.inPush.held.length ≤ s.inPush.unannounced + s.inPush.unstored.length := by
    cases hin : s.inPush with
    | flagged d =>
      unfold State.inPush at hin
      split at hin
      · exact absurd (hf _ _ hin) (by simp [hm])
      · cases hin
    | _ => simp [Producer.unannounced, Producer.unstored, Producer.held]
  have ho := congrArg List.length h.order
  have hc := congrArg List.length h.completed
  have hq := h.unannounced
  simp only [List.length_append] at ho hc
  exact ((h.completed_prefix hout hm).eq_of_length_le (by omega)).symm

/-! ## Runs -/

section Runs

variable [DecidableEq Tid]

/-- **Every action keeps the invariant.** -/
theorem Inv.step {s s' : State Tid T} (h : Inv s) {a : Action Tid T} (hs : step s a = some s') :
    Inv s' := by
  cases move_of_step hs with
  | push ht => exact h.goto (by simp [ht, Producer.holds]) rfl
  | lock _ hl => exact h.lock _ hl
  | store ht => exact h.store ht
  | flag ht => exact h.announce ht
  | unlock ht => exact h.unlock ht
  | load hc => exact h.load hc
  | pull hc hl => exact h.pull hc hl
  | throw hc hq => exact absurd hq (h.locked_nonempty hc)
  | pop hc hq => exact h.pop hc hq
  | settle hc => exact h.settle hc
  | give hc => exact h.give hc

/-- A thread stands where it stood, unless it is the one that moved. -/
theorem goto_producer (s : State Tid T) (t u : Tid) (p : Producer T) :
    (s.goto t p).producer u = if u = t then p else s.producer u := by
  simp [State.goto, Function.update_apply]

/-- Once a call has begun, an action takes the lock for one of the calls that wait for it, or it
leaves the order alone and adds no call. -/
theorem step_calls {s s' : State Tid T} {a : Action Tid T} (hs : step s a = some s')
    (ha : ∀ t data, a ≠ .push t data) :
    (s'.order = s.order ∧ ∀ u d, s'.producer u = .call d → s.producer u = .call d) ∨
      ∃ t data, s.producer t = .call data ∧ s'.order = s.order ++ [data] ∧
        ∀ u d, s'.producer u = .call d → u ≠ t ∧ s.producer u = .call d := by
  -- a thread that is inside `push` moves to a place that is not `call`
  have moved : ∀ (t : Tid) (p : Producer T), (∀ d, p ≠ .call d) → ∀ u d,
      (s.goto t p).producer u = .call d → u ≠ t ∧ s.producer u = .call d := by
    intro t p hp u d hu
    rw [goto_producer] at hu
    split at hu
    · exact absurd hu (hp d)
    · rename_i hne
      exact ⟨hne, hu⟩
  cases move_of_step hs with
  | push _ => exact absurd rfl (ha _ _)
  | @lock t data ht _ => exact .inr ⟨t, data, ht, rfl, moved t _ (by simp)⟩
  | @store t _ _ => exact .inl ⟨rfl, fun u d hu => (moved t _ (by simp) u d hu).2⟩
  | @flag t _ _ => exact .inl ⟨rfl, fun u d hu => (moved t _ (by simp) u d hu).2⟩
  | @unlock t _ _ => exact .inl ⟨rfl, fun u d hu => (moved t _ (by simp) u d hu).2⟩
  | load _ => exact .inl ⟨rfl, fun _ _ hu => hu⟩
  | pull _ _ => exact .inl ⟨rfl, fun _ _ hu => hu⟩
  | throw _ _ => exact .inl ⟨rfl, fun _ _ hu => hu⟩
  | pop _ _ => exact .inl ⟨rfl, fun _ _ hu => hu⟩
  | settle _ => exact .inl ⟨rfl, fun _ _ hu => hu⟩
  | give _ => exact .inl ⟨rfl, fun _ _ hu => hu⟩

/-- Only an announcement raises the flag. -/
theorem step_hasMsg {s s' : State Tid T} {a : Action Tid T} (hs : step s a = some s')
    (ha : ∀ t, a ≠ .flag t) (hm : s.hasMsg = false) : s'.hasMsg = false := by
  cases move_of_step hs with
  | flag _ => exact absurd rfl (ha _)
  | settle _ => simp [hm]
  | _ => exact hm

/-- The flag stays up until the `push` that raised it has returned. -/
theorem Inv.flagged_step {s s' : State Tid T} {a : Action Tid T} (h : Inv s)
    (hf : ∀ t d, s.producer t = .flagged d → s.hasMsg = true)
    (hs : MsgQueue.step s a = some s') :
    ∀ t d, s'.producer t = .flagged d → s'.hasMsg = true := by
  have moved : ∀ (t : Tid) (p : Producer T), (∀ d, p ≠ .flagged d) → ∀ u d,
      (s.goto t p).producer u = .flagged d → s.hasMsg = true := by
    intro t p hp u d hu
    rw [goto_producer] at hu
    split at hu
    · exact absurd hu (hp d)
    · exact hf u d hu
  cases move_of_step hs with
  | @push t data _ => exact moved t _ (by simp)
  | @lock t _ _ _ => exact moved t _ (by simp)
  | @store t _ _ => exact moved t _ (by simp)
  | flag _ => exact fun _ _ _ => rfl
  | @unlock t _ _ => exact moved t _ (by simp)
  | @settle data hc =>
    intro t d ht
    obtain ⟨hl, -⟩ := h.inPush_pull (by simp [hc, Consumer.holds])
    obtain ⟨hl', -⟩ := h.inPush_eq (t := t) (by simp [show s.producer t = _ from ht,
      Producer.holds])
    exact absurd (hl.symm.trans hl') (by simp)
  | load _ => exact hf
  | pull _ _ => exact hf
  | throw _ _ => exact hf
  | pop _ _ => exact hf
  | give _ => exact hf

/-- The invariant holds along every interleaving. -/
theorem inv_exec {tr : List (Action Tid T)} {s : State Tid T}
    (h : exec step init tr = some s) : Inv s :=
  exec_invariant inv_init (fun _ _ _ hi hs => hi.step hs) h

/-- **Every message is delivered once and in order.** In every interleaving, `pull` has not thrown;
what was pulled is a prefix of what was pushed, in the order of the lock; while the lock is free the
flag tells whether the queue is empty; and when `has_msg` returns false, every message whose `push`
has returned has been pulled. -/
theorem exactly_once_in_order (tr : List (Action Tid T)) (s : State Tid T)
    (h : exec step init tr = some s) :
    s.consumer ≠ .threw ∧ s.pulled <+: s.order ∧
      (s.lock = none → (s.hasMsg = true ↔ s.queue ≠ [])) ∧
      ∀ s', step s .load = some s' → s'.consumer = .seen false → s.completed <+: s'.pulled := by
  have hinv := inv_exec h
  refine ⟨hinv.no_throw, hinv.pulled_prefix, hinv.flag_free, fun s' hs hseen => ?_⟩
  have hinv' := hinv.step hs
  have hload : s' = { s with consumer := .seen s.hasMsg } := by
    simp only [step] at hs
    split at hs
    case h_1 => exact (Option.some.inj hs).symm
    case h_2 => exact (Option.some.inj hs).symm
    case h_3 => exact absurd hs (by simp)
  have hout : s'.consumer.holds = false := by rw [hseen]; rfl
  have hm : s'.hasMsg = false := by
    rw [hload] at hseen ⊢
    simpa using hseen
  have := hinv'.completed_prefix hout hm
  rwa [show s'.completed = s.completed by rw [hload]] at this

/-- Two threads push, and the consumer loads the flag between a `push_back` and its announcement. -/
def twoPushes : List (Action Bool Nat) :=
  [.push true 1, .push false 2, .lock false, .store false, .load, .flag false, .unlock false,
    .lock true, .store true, .load, .flag true, .unlock true, .pull, .pop, .settle, .give]

theorem exactly_once_two_threads :
    ∃ s, exec step init twoPushes = some s ∧ s.consumer ≠ .threw ∧ s.pulled <+: s.order ∧
      s.order = [2, 1] ∧ s.pulled = [2] := by
  have hs : exec step init twoPushes = some _ := rfl
  obtain ⟨hthrow, hprefix, -⟩ := exactly_once_in_order twoPushes _ hs
  exact ⟨_, hs, hthrow, hprefix, rfl, rfl⟩

end Runs

end PacketMachine.MsgQueue
