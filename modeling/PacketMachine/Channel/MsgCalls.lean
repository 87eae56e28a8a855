import PacketMachine.Channel.MsgQueue

/-!
# Calls of `MsgQueue` that may throw

Model of whole calls of `MsgQueue::push` and `MsgQueue::pull` (`channel.hpp:166-198`), with the ways a
call can end: it returns, it throws, or it waits for `lock_` for ever. `pthread_mutex_lock` on a free
lock and `pthread_mutex_unlock` succeed.

* A queue may be called again after a call has thrown. So the run goes on with the fields as that call
  left them.

Results:
* **`calls_release_iff`**: every call of a sequence releases the lock exactly when each `pull` finds
  something in the queue. On an empty queue `pull` throws with the lock taken.
* `push_steps`, `pull_steps` and `pull_throws`: a call is a run of the atomic actions of this queue.
-/

namespace PacketMachine.MsgQueue

open PacketMachine.Lib

variable {Tid T : Type}

/-! ## The code -/

/-- The fields of the queue; `held` says that `lock_` is taken. -/
structure Fields (T : Type) where
  hasMsg : Bool := false
  held : Bool := false
  queue : List T := []
  deriving DecidableEq, Repr

/-- Why a call does not return. -/
inductive Stop where
  /-- `Exception::RunTimeError`. -/
  | threw (text : String)
  /-- The call waits for `lock_`, which nobody will release. -/
  | blocked
  deriving DecidableEq, Repr

/-- Code that works on the fields. What it did before it stopped stays done. -/
abbrev Code (T α : Type) := ExceptT Stop (StateM (Fields T)) α

/-- `pthread_mutex_lock`. -/
def lock : Code T Unit := do
  if (← get).held then throw .blocked
  modify fun q => { q with held := true }

/-- `pthread_mutex_unlock`. -/
def unlock : Code T Unit := modify fun q => { q with held := false }

/-- `MsgQueue::push`. -/
def push (data : T) : Code T Unit := do
  lock
  modify fun q => { q with queue := q.queue ++ [data] }
  modify fun q => { q with hasMsg := true }
  unlock

/-- `MsgQueue::pull`. -/
def pull : Code T T := do
  lock
  match (← get).queue with
  | [] => throw (.threw "no data in queue")
  | data :: rest =>
    modify fun q => { q with queue := rest }
    if rest.isEmpty then modify fun q => { q with hasMsg := false }
    unlock
    return data

/-! ## Sequences of calls -/

/-- A call. -/
inductive Call (T : Type) where
  | push (data : T)
  | pull
  deriving DecidableEq, Repr

/-- How the call ends, and the fields then. -/
def Call.exec (q : Fields T) : Call T → Except Stop (Option T) × Fields T
  | .push data => (do MsgQueue.push data; return none : Code T (Option T)) q
  | .pull => (some <$> MsgQueue.pull : Code T (Option T)) q

/-- The fields after some calls, each of which returns or throws before the next. -/
def after (q : Fields T) (calls : List (Call T)) : Fields T :=
  calls.foldl (fun q c => (c.exec q).2) q

/-- The call ends, and leaves the lock free; and if it throws, the rest as it was. -/
structure Released (q : Fields T) (c : Call T) : Prop where
  proceeds : (c.exec q).1 ≠ .error .blocked
  free : (c.exec q).2.held = false
  kept : ∀ text, (c.exec q).1 = .error (.threw text) →
    (c.exec q).2.queue = q.queue ∧ (c.exec q).2.hasMsg = q.hasMsg

/-- The number of calls of `push`. -/
def pushes (calls : List (Call T)) : Nat := calls.countP fun | .push _ => true | .pull => false

/-- The number of calls of `pull`. -/
def pulls (calls : List (Call T)) : Nat := calls.countP fun | .push _ => false | .pull => true

/-- The lock is free, and what was pushed and not pulled is in the queue. -/
structure Balanced (calls : List (Call T)) (q : Fields T) : Prop where
  free : q.held = false
  count : q.queue.length + pulls calls = pushes calls

section Exec

variable {q : Fields T}

theorem push_free (h : q.held = false) (data : T) :
    (Call.push data).exec q = (.ok none, ⟨true, false, q.queue ++ [data]⟩) := by
  obtain ⟨hasMsg, held, queue⟩ := q
  subst h
  rfl

/-- On an empty queue `pull` throws between `pthread_mutex_lock` and `pthread_mutex_unlock`. -/
theorem pull_empty (h : q.held = false) (hq : q.queue = []) :
    Call.pull.exec q = (.error (.threw "no data in queue"), { q with held := true }) := by
  obtain ⟨hasMsg, held, queue⟩ := q
  subst h hq
  rfl

theorem pull_cons (h : q.held = false) {data : T} {rest : List T} (hq : q.queue = data :: rest) :
    Call.pull.exec q = (.ok (some data), ⟨if rest = [] then false else q.hasMsg, false, rest⟩) := by
  obtain ⟨hasMsg, held, queue⟩ := q
  subst h hq
  cases rest <;> rfl

theorem released_push (h : q.held = false) (data : T) : Released q (.push data) := by
  constructor
  all_goals simp [push_free h]

theorem released_pull_iff (h : q.held = false) : Released q .pull ↔ q.queue ≠ [] := by
  constructor
  · intro hr hq
    have hfree := hr.free
    rw [pull_empty h hq] at hfree
    cases hfree
  · intro hne
    obtain ⟨data, rest, hq⟩ := List.exists_cons_of_ne_nil hne
    constructor
    all_goals simp [pull_cons h hq]

theorem after_concat (q : Fields T) (calls : List (Call T)) (c : Call T) :
    after q (calls ++ [c]) = (c.exec (after q calls)).2 := by
  simp [after]

theorem Balanced.push {calls : List (Call T)} (hb : Balanced calls q) (data : T) :
    Balanced (calls ++ [.push data]) ((Call.push data).exec q).2 := by
  have hcount := hb.count
  rw [push_free hb.free]
  refine ⟨rfl, ?_⟩
  simp only [pushes, pulls, List.length_append, List.length_singleton, List.countP_append,
    List.countP_singleton] at hcount ⊢
  simp only [Bool.false_eq_true, if_false, if_true]
  omega

theorem Balanced.pull {calls : List (Call T)} (hb : Balanced calls q) (hne : q.queue ≠ []) :
    Balanced (calls ++ [.pull]) (Call.pull.exec q).2 := by
  obtain ⟨data, rest, hq⟩ := List.exists_cons_of_ne_nil hne
  have hcount := hb.count
  rw [pull_cons hb.free hq]
  refine ⟨rfl, ?_⟩
  rw [hq] at hcount
  simp only [pushes, pulls, List.length_cons, List.countP_append, List.countP_singleton] at hcount ⊢
  simp only [Bool.false_eq_true, if_false, if_true]
  omega

/-- There is something in the queue exactly when there were more calls of `push`. -/
theorem Balanced.queue_ne_nil {calls : List (Call T)} (hb : Balanced calls q) :
    q.queue ≠ [] ↔ pulls calls < pushes calls := by
  have hcount := hb.count
  rw [← List.length_pos_iff]
  omega

end Exec

/-- Each `pull` of the sequence comes after more calls of `push` than of `pull`. -/
def NeverEmpty (calls : List (Call T)) : Prop :=
  ∀ pre post, calls = pre ++ .pull :: post → pulls pre < pushes pre

/-- Each call of the sequence, from a new queue on, releases the lock. -/
def AllReleased (calls : List (Call T)) : Prop :=
  ∀ pre c post, calls = pre ++ c :: post → Released (after {} pre) c

section Runs

variable {calls : List (Call T)}

theorem NeverEmpty.init {c : Call T} (h : NeverEmpty (calls ++ [c])) : NeverEmpty calls := by
  rintro pre post rfl
  exact h pre (post ++ [c]) (by simp)

theorem AllReleased.init {c : Call T} (h : AllReleased (calls ++ [c])) : AllReleased calls := by
  rintro pre d post rfl
  exact h pre d (post ++ [c]) (by simp)

/-- A sequence is balanced when each `pull` of it finds something. The induction is on its end. -/
theorem balanced_of_finds {P : List (Call T) → Prop} (hinit : ∀ calls c, P (calls ++ [c]) → P calls)
    (hfinds : ∀ calls, P (calls ++ [.pull]) → Balanced calls (after {} calls) →
      (after {} calls).queue ≠ []) (h : P calls) : Balanced calls (after {} calls) := by
  induction calls using List.reverseRecOn with
  | nil => exact ⟨rfl, rfl⟩
  | append_singleton calls c ih =>
    have hb := ih (hinit calls c h)
    rw [after_concat]
    cases c with
    | push data => exact hb.push data
    | pull => exact hb.pull (hfinds calls h hb)

/-- While each `pull` finds something, the queue is balanced. -/
theorem NeverEmpty.balanced (h : NeverEmpty calls) : Balanced calls (after {} calls) := by
  refine balanced_of_finds (fun _ _ => NeverEmpty.init) (fun calls h hb => ?_) h
  exact hb.queue_ne_nil.mpr (h calls [] rfl)

/-- And while each call releases the lock. -/
theorem AllReleased.balanced (h : AllReleased calls) : Balanced calls (after {} calls) := by
  refine balanced_of_finds (fun _ _ => AllReleased.init) (fun calls h hb => ?_) h
  exact (released_pull_iff hb.free).mp (h calls .pull [] rfl)

/-- **Every call of a sequence releases the lock exactly when no `pull` finds the queue empty.** -/
theorem calls_release_iff (calls : List (Call T)) : AllReleased calls ↔ NeverEmpty calls := by
  constructor
  · rintro h pre post rfl
    have hpre : AllReleased pre := by
      rintro pre' c post' rfl
      exact h pre' c (post' ++ .pull :: post) (by simp)
    have hb := hpre.balanced
    exact hb.queue_ne_nil.mp ((released_pull_iff hb.free).mp (h pre .pull post rfl))
  · rintro h pre c post rfl
    have hpre : NeverEmpty pre := by
      rintro pre' post' rfl
      exact h pre' (post' ++ c :: post) (by simp)
    have hb := hpre.balanced
    cases c with
    | push data => exact released_push hb.free data
    | pull => exact (released_pull_iff hb.free).mpr (hb.queue_ne_nil.mpr (h pre post rfl))

end Runs

/-- **A `pull` on a new queue throws and keeps the lock**, and the next `push` waits for ever. -/
theorem pull_keeps_lock : ¬ AllReleased [Call.pull (T := Nat)] ∧
    ((Call.push 1).exec (after {} [Call.pull (T := Nat)])).1 = .error .blocked := by
  refine ⟨fun h => ?_, rfl⟩
  have hfree := (h [] .pull [] rfl).free
  cases hfree

/-! ## The atomic actions -/

/-- The fields, as the threads share them. -/
def State.fields (s : State Tid T) : Fields T := ⟨s.hasMsg, s.lock.isSome, s.queue⟩

section Steps

variable [DecidableEq Tid] {s : State Tid T}

/-- **A call of `push` that nobody interrupts.** -/
theorem push_steps {t : Tid} (ht : s.producer t = .idle) (hl : s.lock = none) (data : T) :
    ∃ s', exec step s [.push t data, .lock t, .store t, .flag t, .unlock t] = some s' ∧
      s'.fields = ((Call.push data).exec s.fields).2 := by
  have hfree : s.fields.held = false := by rw [State.fields, hl]; rfl
  rw [push_free hfree]
  simp [exec, step, ht, hl, State.goto, State.fields]

/-- **A call of `pull` on a queue that is not empty.** -/
theorem pull_steps (hc : s.consumer = .seen true) (hl : s.lock = none) {data : T} {rest : List T}
    (hq : s.queue = data :: rest) :
    ∃ s', exec step s [.pull, .pop, .settle, .give] = some s' ∧
      s'.fields = (Call.pull.exec s.fields).2 ∧ s'.pulled = s.pulled ++ [data] := by
  have hfree : s.fields.held = false := by rw [State.fields, hl]; rfl
  rw [pull_cons hfree (show s.fields.queue = data :: rest from hq)]
  simp [exec, step, hc, hl, hq, State.fields]

/-- **A call of `pull` on an empty queue.** -/
theorem pull_throws (hc : s.consumer = .seen true) (hl : s.lock = none) (hq : s.queue = []) :
    ∃ s', exec step s [.pull, .pop] = some s' ∧ s'.consumer = .threw ∧
      s'.fields = (Call.pull.exec s.fields).2 := by
  have hfree : s.fields.held = false := by rw [State.fields, hl]; rfl
  rw [pull_empty hfree (show s.fields.queue = [] from hq)]
  simp [exec, step, hc, hl, hq, State.fields]

end Steps

end PacketMachine.MsgQueue
