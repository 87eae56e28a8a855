import PacketMachine.Lib.Run

/-!
# `RingBuffer`: the packet channel between the capture thread and the kernel thread

Model of `RingBuffer<T>` (`channel.hpp:44-149`) as a two-thread system. Each load and store of
`push_idx_`, `pull_idx_`, `ring_` and `eos_` is one atomic action (`Action`), so a run is any
interleaving of the producer's and the consumer's actions.

* A slot pointer (`T*`) is the number of the `new T()` that made it, so `ring_[i]` starts as `i`;
  `mem d` is the content of slot `d`. The producer may rewrite the slot it retained any number of
  times before it pushes it (`fill`).
* `next` is computed in `uint32_t`. `RingSize` carries what the constructor promises of
  `ring_size_`: it fits in 32 bits (the source has `0xfff`), and it is at least 2.
* `pushed` and `pulled` record the contents at each return of `push` and `pull`, and `last` the slot
  `pull` returned last. No action reads them.
* `close` is allowed before a `retain` and also after one, which is how `Input::thread_main`
  (`packetmachine.cc:54-77`) leaves its loop.
* `push_wait_`, `pull_wait_` and the sleeps are left out: they are counters that nothing reads.

Results:
* `Inv`: `push_idx_` and `pull_idx_` are the numbers of pushed and pulled items modulo the ring
  size, the second is behind the first by less than the ring size, and every item that is not yet
  pulled, and the one pulled last, still lies in its slot.
* `spsc_fifo`: what was pulled is a prefix of what was pushed, and the slot the producer owns is
  never the one `pull` returned last.
* `drained_iff`: when `pull` returns `nullptr`, everything pushed has been pulled **iff** no push
  was completed after the consumer's last test for emptiness. `pull` tests emptiness and then
  `closed()`, and it does not look again at `push_idx_` when it finds the channel closed.
-/

namespace PacketMachine.RingBuffer

open PacketMachine.Lib

/-! ## Ring indices -/

/-- `ring_size_`: a `uint32_t`, at least 2. -/
structure RingSize where
  size : Nat
  two_le : 2 ≤ size
  lt_u32 : size < 2 ^ 32

/-- `RingBuffer::next`. -/
def next (N : RingSize) (idx : Nat) : Nat := (idx + 1) % 2 ^ 32 % N.size

theorem RingSize.pos (N : RingSize) : 0 < N.size := Nat.lt_of_lt_of_le (by decide) N.two_le

/-- On an index of the ring the 32-bit sum does not wrap, so `next` counts modulo the ring size. -/
theorem next_mod (N : RingSize) (m : Nat) : next N (m % N.size) = (m + 1) % N.size := by
  unfold next
  have h := Nat.mod_lt m N.pos
  have h' := N.lt_u32
  rw [Nat.mod_eq_of_lt (show m % N.size + 1 < 2 ^ 32 by omega), Nat.mod_add_mod]

/-- Two counters less than a ring apart have the same index only when they are equal. -/
theorem eq_of_mod_eq {a b n : Nat} (hab : a ≤ b) (hlt : b < a + n) (h : a % n = b % n) : a = b := by
  have hd : n ∣ b - a := (Nat.modEq_iff_dvd' hab).mp h
  have h0 : b - a = 0 := Nat.eq_zero_of_dvd_of_lt hd (by omega)
  omega

/-! ## The two threads -/

/-- Where the producer stands. -/
inductive Producer where
  /-- Outside `retain` and `push`. -/
  | idle
  /-- In `retain`, at the test `n == pull_idx_`. -/
  | wait (n : Nat)
  /-- In `retain`, past the loop, about to read `ring_[n]`. -/
  | take (n : Nat)
  /-- `retain` has returned `d`. -/
  | own (d : Nat)
  /-- In `push(d)`, about to store `ring_[n] = data`. -/
  | put (d n : Nat)
  /-- In `push(d)`, about to store `push_idx_ = n`. -/
  | commit (d n : Nat)
  /-- `close` has been called. -/
  | closed
  deriving DecidableEq, Repr

/-- Where the consumer stands. -/
inductive Consumer where
  /-- Outside `pull`. -/
  | idle
  /-- In `pull`, at the loop test `n == next(push_idx_)`. -/
  | test (n : Nat)
  /-- In the loop body, at `closed()`. -/
  | check (n : Nat)
  /-- Past the loop, about to read `ring_[n]`. -/
  | read (n : Nat)
  /-- About to store `pull_idx_ = n` and return `d`. -/
  | give (n d : Nat)
  /-- `pull` has returned `nullptr`. -/
  | done
  deriving DecidableEq, Repr

/-- The atomic actions of both threads. -/
inductive Action (α : Type) where
  /-- `retain`: load `push_idx_`. -/
  | retain
  /-- `retain`: load `pull_idx_` and compare. -/
  | testFull
  /-- `retain`: read `ring_[n]` and return it. -/
  | take
  /-- The caller of `retain` writes the slot. -/
  | fill (a : α)
  /-- `push`: load `push_idx_`. -/
  | push
  /-- `push`: store `ring_[n]`. -/
  | put
  /-- `push`: store `push_idx_` and return. -/
  | commit
  /-- `close`: store `eos_`. -/
  | close
  /-- `pull`: load `pull_idx_`. -/
  | pull
  /-- `pull`: load `push_idx_` and compare. -/
  | testEmpty
  /-- `pull`: load `eos_`. -/
  | testClosed
  /-- `pull`: read `ring_[n]`. -/
  | read
  /-- `pull`: store `pull_idx_` and return. -/
  | give
  deriving DecidableEq, Repr

/-- The shared fields, the two program counters, and what `push` and `pull` have returned so far. -/
structure State (α : Type) where
  pushIdx : Nat
  pullIdx : Nat
  ring : Nat → Nat
  mem : Nat → α
  eos : Bool
  prod : Producer
  cons : Consumer
  pushed : List α
  pulled : List α
  last : Option Nat

variable {α : Type}

/-- The constructor: `ring_[i] = new T()`, with whatever `T()` leaves in the slots. -/
def init (mem : Nat → α) : State α where
  pushIdx := 0
  pullIdx := 0
  ring := id
  mem := mem
  eos := false
  prod := .idle
  cons := .idle
  pushed := []
  pulled := []
  last := none

/-- The slot the producer owns, from the return of `retain` to the return of `push`. -/
def Producer.owned : Producer → Option Nat
  | .own d => some d
  | .put d _ => some d
  | .commit d _ => some d
  | _ => none

/-- One atomic action; `none` when the thread that would take it stands elsewhere. -/
def step (N : RingSize) (s : State α) : Action α → Option (State α)
  | .retain => match s.prod with
    | .idle => some { s with prod := .wait (next N s.pushIdx) }
    | _ => none
  | .testFull => match s.prod with
    | .wait n => some { s with prod := if n = s.pullIdx then .wait n else .take n }
    | _ => none
  | .take => match s.prod with
    | .take n => some { s with prod := .own (s.ring n) }
    | _ => none
  | .fill a => match s.prod with
    | .own d => some { s with mem := Function.update s.mem d a }
    | _ => none
  | .push => match s.prod with
    | .own d => some { s with prod := .put d (next N s.pushIdx) }
    | _ => none
  | .put => match s.prod with
    | .put d n => some { s with ring := Function.update s.ring n d, prod := .commit d n }
    | _ => none
  | .commit => match s.prod with
    | .commit d n => some { s with
        pushIdx := n, prod := .idle, pushed := s.pushed ++ [s.mem d] }
    | _ => none
  | .close => match s.prod with
    | .idle => some { s with eos := true, prod := .closed }
    | .own _ => some { s with eos := true, prod := .closed }
    | _ => none
  | .pull => match s.cons with
    | .idle => some { s with cons := .test (next N s.pullIdx) }
    | _ => none
  | .testEmpty => match s.cons with
    | .test n => some { s with cons := if n = next N s.pushIdx then .check n else .read n }
    | _ => none
  | .testClosed => match s.cons with
    | .check n => some { s with cons := if s.eos then .done else .test n }
    | _ => none
  | .read => match s.cons with
    | .read n => some { s with cons := .give n (s.ring n) }
    | _ => none
  | .give => match s.cons with
    | .give n d => some { s with
        pullIdx := n, cons := .idle, pulled := s.pulled ++ [s.mem d], last := some d }
    | _ => none

/-! ## The invariant

`P` items have been pushed and `C` pulled. The producer's loop test read `pull_idx_` at some
earlier moment; since `C` only grows, what it learnt there (`P + 1 < C + N`) stays true, and so does
what the consumer's loop test learnt (`C < P`), since `P` only grows. -/

/-- What the producer's position says about the counters. -/
def ProdInv (N P C : Nat) : Producer → Prop
  | .idle => True
  | .wait n => n = (P + 1) % N
  | .take n => n = (P + 1) % N ∧ P + 1 < C + N
  | .own d => d = (P + 1) % N ∧ P + 1 < C + N
  | .put d n => d = (P + 1) % N ∧ n = (P + 1) % N ∧ P + 1 < C + N
  | .commit d n => d = (P + 1) % N ∧ n = (P + 1) % N ∧ P + 1 < C + N
  | .closed => True

/-- What the consumer's position says about the counters. -/
def ConsInv (N P C : Nat) : Consumer → Prop
  | .idle => True
  | .test n => n = (C + 1) % N
  | .check n => n = (C + 1) % N
  | .read n => n = (C + 1) % N ∧ C < P
  | .give n d => n = (C + 1) % N ∧ d = (C + 1) % N ∧ C < P
  | .done => True

/-- The invariant of the channel. -/
structure Inv (N : RingSize) (s : State α) : Prop where
  push_idx : s.pushIdx = s.pushed.length % N.size
  pull_idx : s.pullIdx = s.pulled.length % N.size
  le : s.pulled.length ≤ s.pushed.length
  lt : s.pushed.length < s.pulled.length + N.size
  /-- `push` stores every slot pointer back where `retain` found it. -/
  ring : s.ring = id
  pulled_eq : s.pulled = s.pushed.take s.pulled.length
  /-- The items not yet pulled, and the one pulled last, lie untouched in their slots. -/
  slot : ∀ j, s.pulled.length ≤ j + 1 → j < s.pushed.length →
    s.pushed[j]? = some (s.mem ((j + 1) % N.size))
  last : s.last = if s.pulled.length = 0 then none else some (s.pulled.length % N.size)
  prod : ProdInv N.size s.pushed.length s.pulled.length s.prod
  cons : ConsInv N.size s.pushed.length s.pulled.length s.cons

theorem inv_init (N : RingSize) (mem : Nat → α) : Inv N (init mem) where
  push_idx := rfl
  pull_idx := rfl
  le := le_refl _
  lt := by simpa [init] using N.pos
  ring := rfl
  pulled_eq := rfl
  slot := by intro j _ hj; simp [init] at hj
  last := rfl
  prod := trivial
  cons := trivial

/-- A producer position keeps its meaning while the consumer advances. -/
theorem ProdInv.mono {N P C C' : Nat} (hC : C ≤ C') {pc : Producer} (h : ProdInv N P C pc) :
    ProdInv N P C' pc := by
  cases pc with
  | idle => trivial
  | wait n => exact h
  | take n => exact ⟨h.1, by have := h.2; omega⟩
  | own d => exact ⟨h.1, by have := h.2; omega⟩
  | put d n => exact ⟨h.1, h.2.1, by have := h.2.2; omega⟩
  | commit d n => exact ⟨h.1, h.2.1, by have := h.2.2; omega⟩
  | closed => trivial

/-- A consumer position keeps its meaning while the producer advances. -/
theorem ConsInv.mono {N P P' C : Nat} (hP : P ≤ P') {pc : Consumer} (h : ConsInv N P C pc) :
    ConsInv N P' C pc := by
  cases pc with
  | idle => trivial
  | test n => exact h
  | check n => exact h
  | read n => exact ⟨h.1, by have := h.2; omega⟩
  | give n d => exact ⟨h.1, h.2.1, by have := h.2.2; omega⟩
  | done => trivial

/-- An action that moves only the program counters keeps the invariant as soon as the new positions
say what they must. -/
theorem Inv.move {N : RingSize} {s : State α} (h : Inv N s) {p : Producer} {c : Consumer} {e : Bool}
    (hp : ProdInv N.size s.pushed.length s.pulled.length p)
    (hc : ConsInv N.size s.pushed.length s.pulled.length c) :
    Inv N { s with prod := p, cons := c, eos := e } :=
  { h with prod := hp, cons := hc }

/-- The slot after the last pushed one holds no item that is still to be pulled, nor the item
pulled last. -/
theorem free_slot {P C N j : Nat} (hfree : P + 1 < C + N) (hC : C ≤ j + 1) (hj : j < P) :
    (j + 1) % N ≠ (P + 1) % N := by
  intro h
  have := eq_of_mod_eq (by omega) (by omega) h
  omega

/-- The producer writes the slot it owns. -/
theorem Inv.fill {N : RingSize} {s : State α} (h : Inv N s) {d : Nat} (hd : s.prod = .own d)
    (a : α) : Inv N { s with mem := Function.update s.mem d a } := by
  have hp := h.prod
  rw [hd] at hp
  refine { h with slot := fun j hC hj => ?_ }
  have hne : (j + 1) % N.size ≠ d := by
    rw [hp.1]
    exact free_slot hp.2 hC hj
  simp only [Function.update_of_ne hne]
  exact h.slot j hC hj

/-- `push` returns: the pushed slot becomes the newest item. -/
theorem Inv.commit {N : RingSize} {s : State α} (h : Inv N s) {d n : Nat}
    (hd : s.prod = .commit d n) :
    Inv N { s with pushIdx := n, prod := .idle, pushed := s.pushed ++ [s.mem d] } := by
  have hp := h.prod
  rw [hd] at hp
  obtain ⟨rfl, rfl, hfree⟩ := hp
  have hle := h.le
  refine { h with
    push_idx := by simp, le := by simp; omega, lt := by simp; omega, pulled_eq := ?_, slot := ?_,
    prod := trivial, cons := h.cons.mono (by simp) }
  · rw [List.take_append_of_le_length hle]
    exact h.pulled_eq
  · intro j hC hj
    simp only [List.length_append, List.length_singleton] at hj
    rcases Nat.lt_or_ge j s.pushed.length with hlt | hge
    · rw [List.getElem?_append_left hlt]
      exact h.slot j hC hlt
    · obtain rfl : j = s.pushed.length := by omega
      simp

/-- `pull` returns: the oldest item moves to the consumer. -/
theorem Inv.give {N : RingSize} {s : State α} (h : Inv N s) {d n : Nat}
    (hd : s.cons = .give n d) :
    Inv N { s with
      pullIdx := n, cons := .idle, pulled := s.pulled ++ [s.mem d], last := some d } := by
  have hc := h.cons
  rw [hd] at hc
  obtain ⟨rfl, rfl, hlt⟩ := hc
  have hitem := h.slot s.pulled.length (by omega) hlt
  refine { h with
    pull_idx := by simp, le := by simp; omega, lt := ?_, pulled_eq := ?_, slot := ?_,
    last := by simp, prod := h.prod.mono (by simp), cons := trivial }
  · have := h.lt
    simp only [List.length_append, List.length_singleton]
    omega
  · simp only [List.length_append, List.length_singleton, List.take_add_one, ← h.pulled_eq, hitem,
      Option.toList_some]
  · intro j hC hj
    simp only [List.length_append, List.length_singleton] at hC
    exact h.slot j (by omega) hj

/-- The producer's test: `(P + 1) % N ≠ C % N`, so `P + 1` has not caught up with `C + N`. -/
theorem Inv.has_room {N : RingSize} {s : State α} (h : Inv N s)
    (hne : (s.pushed.length + 1) % N.size ≠ s.pullIdx) :
    s.pushed.length + 1 < s.pulled.length + N.size := by
  have hlt := h.lt
  rcases Nat.lt_or_ge (s.pushed.length + 1) (s.pulled.length + N.size) with h1 | h1
  · exact h1
  · have he : s.pushed.length + 1 = s.pulled.length + N.size := by omega
    rw [h.pull_idx, he, Nat.add_mod_right] at hne
    exact absurd rfl hne

/-- The consumer's test: the next slot to be pulled is not the one behind the last item. -/
theorem Inv.has_item {N : RingSize} {s : State α} (h : Inv N s)
    (hne : (s.pulled.length + 1) % N.size ≠ next N s.pushIdx) :
    s.pulled.length < s.pushed.length := by
  have hle := h.le
  rcases Nat.lt_or_ge s.pulled.length s.pushed.length with h1 | h1
  · exact h1
  · have he : s.pulled.length = s.pushed.length := by omega
    rw [h.push_idx, next_mod, he] at hne
    exact absurd rfl hne

/-- **Every atomic action keeps the invariant.** -/
theorem step_inv {N : RingSize} {s s' : State α} {a : Action α} (h : Inv N s)
    (hs : step N s a = some s') : Inv N s' := by
  have hp := h.prod
  have hc := h.cons
  cases a with
  | retain =>
    simp only [step] at hs
    split at hs <;> cases hs
    exact h.move (by simp [ProdInv, h.push_idx, next_mod]) hc
  | testFull =>
    simp only [step] at hs
    split at hs <;> cases hs
    rename_i n hn
    rw [hn] at hp
    refine h.move ?_ hc
    split
    · exact hp
    · rename_i hne
      exact ⟨hp, h.has_room (hp ▸ hne)⟩
  | take =>
    simp only [step] at hs
    split at hs <;> cases hs
    rename_i n hn
    rw [hn] at hp
    exact h.move ⟨by rw [h.ring]; exact hp.1, hp.2⟩ hc
  | fill b =>
    simp only [step] at hs
    split at hs <;> cases hs
    rename_i d hd
    exact h.fill hd b
  | push =>
    simp only [step] at hs
    split at hs <;> cases hs
    rename_i d hd
    rw [hd] at hp
    exact h.move ⟨hp.1, by rw [h.push_idx, next_mod], hp.2⟩ hc
  | put =>
    simp only [step] at hs
    split at hs <;> cases hs
    rename_i d n hd
    rw [hd] at hp
    have hring : Function.update s.ring n d = id := by
      rw [h.ring, hp.1, hp.2.1]
      exact Function.update_eq_self _ _
    exact { h with ring := hring, prod := hp }
  | commit =>
    simp only [step] at hs
    split at hs <;> cases hs
    rename_i d n hd
    exact h.commit hd
  | close =>
    simp only [step] at hs
    split at hs <;> cases hs
    · exact h.move trivial hc
    · exact h.move trivial hc
  | pull =>
    simp only [step] at hs
    split at hs <;> cases hs
    exact h.move hp (by simp [ConsInv, h.pull_idx, next_mod])
  | testEmpty =>
    simp only [step] at hs
    split at hs <;> cases hs
    rename_i n hn
    rw [hn] at hc
    refine h.move hp ?_
    split
    · exact hc
    · rename_i hne
      exact ⟨hc, h.has_item (hc ▸ hne)⟩
  | testClosed =>
    simp only [step] at hs
    split at hs <;> cases hs
    rename_i n hn
    rw [hn] at hc
    refine h.move hp ?_
    split
    · trivial
    · exact hc
  | read =>
    simp only [step] at hs
    split at hs <;> cases hs
    rename_i n hn
    rw [hn] at hc
    exact h.move hp ⟨hc.1, by rw [h.ring]; exact hc.1, hc.2⟩
  | give =>
    simp only [step] at hs
    split at hs <;> cases hs
    rename_i n d hd
    exact h.give hd

/-- **The invariant holds in every interleaving.** -/
theorem exec_inv {N : RingSize} {mem : Nat → α} {tr : List (Action α)} {s : State α}
    (h : exec (step N) (init mem) tr = some s) : Inv N s :=
  exec_invariant (inv_init N mem) (fun _ _ _ hi hs => step_inv hi hs) h

/-! ## First in, first out -/

/-- The slot the producer owns follows the last pushed one, with room left before the consumer. -/
theorem Inv.owned {N : RingSize} {s : State α} (h : Inv N s) {d : Nat}
    (hd : s.prod.owned = some d) :
    d = (s.pushed.length + 1) % N.size ∧ s.pushed.length + 1 < s.pulled.length + N.size := by
  have hp := h.prod
  cases hs : s.prod with
  | own d' => rw [hs] at hp hd; cases hd; exact hp
  | put d' n => rw [hs] at hp hd; cases hd; exact ⟨hp.1, hp.2.2⟩
  | commit d' n => rw [hs] at hp hd; cases hd; exact ⟨hp.1, hp.2.2⟩
  | idle | wait _ | take _ | closed => rw [hs] at hd; cases hd

/-- The slot `pull` returned last still holds the item it was returned with. -/
theorem Inv.last_item {N : RingSize} {s : State α} (h : Inv N s) {d : Nat}
    (hd : s.last = some d) :
    0 < s.pulled.length ∧ d = s.pulled.length % N.size ∧ s.pulled.getLast? = some (s.mem d) := by
  have hl := h.last
  rw [hd] at hl
  split at hl
  · exact absurd hl (by simp)
  · rename_i h0
    obtain rfl := Option.some.inj hl
    have hle := h.le
    refine ⟨Nat.pos_of_ne_zero h0, rfl, ?_⟩
    have hitem := h.slot (s.pulled.length - 1) (by omega) (by omega)
    rw [Nat.sub_add_cancel (Nat.pos_of_ne_zero h0)] at hitem
    rw [List.getLast?_eq_getElem?, ← hitem]
    conv_lhs => rw [h.pulled_eq]
    rw [List.getElem?_take_of_lt]
    · simp [Nat.min_eq_left hle]
    · simp only [List.length_take]; omega

/-- **`RingBuffer` is a safe single-producer single-consumer queue.** In every interleaving, for
every ring size and every sequence of slot contents, what `pull` returned is a prefix of what was
pushed. The slot the producer owns between `retain` and `push` is not the one `pull` returned last,
which still holds the item it was returned with. -/
theorem spsc_fifo (N : RingSize) (mem : Nat → α) (tr : List (Action α)) (s : State α)
    (h : exec (step N) (init mem) tr = some s) :
    s.pulled <+: s.pushed ∧
      ∀ d, s.last = some d → s.prod.owned ≠ some d ∧ s.pulled.getLast? = some (s.mem d) := by
  have hi := exec_inv h
  refine ⟨?_, fun d hd => ?_⟩
  · rw [hi.pulled_eq]
    exact List.take_prefix _ _
  · obtain ⟨hpos, hdl, hitem⟩ := hi.last_item hd
    refine ⟨fun ho => ?_, hitem⟩
    obtain ⟨hd', hfree⟩ := hi.owned ho
    have hle := hi.le
    rw [hdl] at hd'
    have := eq_of_mod_eq (by omega) (by omega) hd'
    omega

/-- The smallest ring. -/
def ringTwo : RingSize := ⟨2, by decide, by decide⟩

/-- One item on its way: it has been pulled, and the producer has retained the other slot. -/
def runOne : List (Action Nat) :=
  [.retain, .testFull, .take, .fill 7, .push, .put, .commit, .pull, .testEmpty, .read, .give,
    .retain, .testFull, .take]

theorem spsc_fifo_runOne :
    ∃ s, exec (step ringTwo) (init fun _ => 0) runOne = some s ∧
      (s.pushed, s.pulled, s.last, s.prod) = ([7], [7], some 1, .own 0) ∧
      s.pulled <+: s.pushed ∧
      ∀ d, s.last = some d → s.prod.owned ≠ some d ∧ s.pulled.getLast? = some (s.mem d) := by
  have h : (exec (step ringTwo) (init fun _ => 0) runOne).map
      (fun s => (s.pushed, s.pulled, s.last, s.prod)) = some ([7], [7], some 1, .own 0) := by decide
  obtain ⟨s, hs, he⟩ := Option.map_eq_some_iff.mp h
  exact ⟨s, hs, he, spsc_fifo _ _ _ s hs⟩

/-! ## Closing

`pull` leaves its loop with `nullptr` after two tests: `push_idx_` showed an empty ring, and then
`eos_` was set. A push that completes between the two is not seen. -/

/-- Some push was completed after the consumer's last test for emptiness. -/
def LatePush (tr : List (Action α)) : Prop :=
  ∃ before after, tr = before ++ .commit :: after ∧ .testEmpty ∉ after

theorem latePush_commit (tr : List (Action α)) : LatePush (tr ++ [.commit]) :=
  ⟨tr, [], rfl, List.not_mem_nil⟩

theorem not_latePush_testEmpty (tr : List (Action α)) : ¬ LatePush (tr ++ [.testEmpty]) := by
  rintro ⟨before, after, he, hn⟩
  rcases List.eq_nil_or_concat after with rfl | ⟨after', a, rfl⟩
  · have := (List.append_inj' he rfl).2
    simp at this
  · rw [List.concat_eq_append, ← List.cons_append, ← List.append_assoc] at he
    have := (List.append_inj' he rfl).2
    simp only [List.cons.injEq, and_true] at this
    exact hn (by rw [← this]; simp)

theorem latePush_snoc {tr : List (Action α)} {a : Action α} (hc : a ≠ .commit)
    (ht : a ≠ .testEmpty) : LatePush (tr ++ [a]) ↔ LatePush tr := by
  constructor
  · rintro ⟨before, after, he, hn⟩
    rcases List.eq_nil_or_concat after with rfl | ⟨after', b, rfl⟩
    · have := (List.append_inj' he rfl).2
      simp only [List.cons.injEq, and_true] at this
      exact absurd this hc
    · rw [List.concat_eq_append, ← List.cons_append, ← List.append_assoc] at he
      refine ⟨before, after', (List.append_inj' he rfl).1, fun hm => hn ?_⟩
      simp [hm]
  · rintro ⟨before, after, rfl, hn⟩
    refine ⟨before, after ++ [a], by simp, fun hm => ?_⟩
    rcases List.mem_append.mp hm with h | h
    · exact hn h
    · exact ht (List.mem_singleton.mp h).symm

/-- The consumer has seen an empty ring and has not tested it again. -/
def Consumer.sawEmpty : Consumer → Prop
  | .check _ => True
  | .done => True
  | _ => False

/-- What the run says about the end of the channel. -/
structure CloseInv (N : RingSize) (tr : List (Action α)) (s : State α) : Prop where
  inv : Inv N s
  eos : s.eos = true → s.prod = .closed
  late : s.cons.sawEmpty → (s.pulled.length < s.pushed.length ↔ LatePush tr)

theorem closeInv_init (N : RingSize) (mem : Nat → α) : CloseInv N [] (init mem) where
  inv := inv_init N mem
  eos := by simp [init]
  late := fun h => h.elim

/-- An action that leaves the items alone and brings the consumer to no new empty ring. -/
theorem CloseInv.quiet {N : RingSize} {tr : List (Action α)} {s s' : State α} {a : Action α}
    (h : CloseInv N tr s) (hi : Inv N s') (he : s'.eos = true → s'.prod = .closed)
    (hc : a ≠ .commit) (ht : a ≠ .testEmpty) (hpush : s'.pushed = s.pushed)
    (hpull : s'.pulled = s.pulled) (hsaw : s'.cons.sawEmpty → s.cons.sawEmpty) :
    CloseInv N (tr ++ [a]) s' where
  inv := hi
  eos := he
  late := fun hs => by rw [latePush_snoc hc ht, hpush, hpull]; exact h.late (hsaw hs)

theorem step_closeInv {N : RingSize} {tr : List (Action α)} {s s' : State α} {a : Action α}
    (h : CloseInv N tr s) (hs : step N s a = some s') : CloseInv N (tr ++ [a]) s' := by
  have hi := step_inv h.inv hs
  -- a producer that has not closed keeps `eos_` clear
  have hopen : s.prod ≠ .closed → s.eos = true → False := fun hn he => hn (h.eos he)
  cases a with
  | commit =>
    simp only [step] at hs
    split at hs <;> cases hs
    rename_i d n hd
    refine ⟨hi, fun he => (hopen (by rw [hd]; simp) he).elim, fun _ => ?_⟩
    have hle := h.inv.le
    simp only [List.length_append, List.length_singleton]
    exact ⟨fun _ => latePush_commit tr, fun _ => by omega⟩
  | testEmpty =>
    simp only [step] at hs
    split at hs <;> cases hs
    rename_i n hn
    refine ⟨hi, h.eos, fun hsaw => ?_⟩
    simp only at hsaw
    split at hsaw
    · rename_i he
      have hc := h.inv.cons
      rw [hn] at hc
      rw [hc, h.inv.push_idx, next_mod] at he
      have hle := h.inv.le
      have hlt := h.inv.lt
      have := eq_of_mod_eq (show s.pulled.length + 1 ≤ s.pushed.length + 1 by omega) (by omega) he
      exact ⟨fun h => absurd h (by simp only; omega),
        fun h => absurd h (not_latePush_testEmpty tr)⟩
    · exact hsaw.elim
  | retain =>
    simp only [step] at hs
    split at hs <;> cases hs
    rename_i hp
    exact h.quiet hi (fun he => (hopen (by rw [hp]; simp) he).elim) (by simp) (by simp) rfl rfl id
  | testFull =>
    simp only [step] at hs
    split at hs <;> cases hs
    rename_i hp
    exact h.quiet hi (fun he => (hopen (by rw [hp]; simp) he).elim) (by simp) (by simp) rfl rfl id
  | take =>
    simp only [step] at hs
    split at hs <;> cases hs
    rename_i hp
    exact h.quiet hi (fun he => (hopen (by rw [hp]; simp) he).elim) (by simp) (by simp) rfl rfl id
  | fill b =>
    simp only [step] at hs
    split at hs <;> cases hs
    exact h.quiet hi h.eos (by simp) (by simp) rfl rfl id
  | push =>
    simp only [step] at hs
    split at hs <;> cases hs
    rename_i hp
    exact h.quiet hi (fun he => (hopen (by rw [hp]; simp) he).elim) (by simp) (by simp) rfl rfl id
  | put =>
    simp only [step] at hs
    split at hs <;> cases hs
    rename_i hp
    exact h.quiet hi (fun he => (hopen (by rw [hp]; simp) he).elim) (by simp) (by simp) rfl rfl id
  | close =>
    simp only [step] at hs
    split at hs <;> cases hs
    · exact h.quiet hi (fun _ => rfl) (by simp) (by simp) rfl rfl id
    · exact h.quiet hi (fun _ => rfl) (by simp) (by simp) rfl rfl id
  | pull =>
    simp only [step] at hs
    split at hs <;> cases hs
    exact h.quiet hi h.eos (by simp) (by simp) rfl rfl False.elim
  | testClosed =>
    simp only [step] at hs
    split at hs <;> cases hs
    rename_i n hn
    exact h.quiet hi h.eos (by simp) (by simp) rfl rfl fun _ => by rw [hn]; trivial
  | read =>
    simp only [step] at hs
    split at hs <;> cases hs
    exact h.quiet hi h.eos (by simp) (by simp) rfl rfl False.elim
  | give =>
    simp only [step] at hs
    split at hs <;> cases hs
    exact ⟨hi, h.eos, False.elim⟩

theorem exec_closeInv {N : RingSize} {mem : Nat → α} {tr : List (Action α)} {s : State α}
    (h : exec (step N) (init mem) tr = some s) : CloseInv N tr s :=
  exec_induct (closeInv_init N mem) (fun _ _ _ _ hi hs => step_closeInv hi hs) tr h

/-- `eos_` is set once the producer has closed, and when `pull` has returned `nullptr`. -/
structure EosInv (s : State α) : Prop where
  closed : s.prod = .closed → s.eos = true
  done : s.cons = .done → s.eos = true

theorem step_eosInv {N : RingSize} {s s' : State α} {a : Action α} (h : EosInv s)
    (hs : step N s a = some s') : EosInv s' := by
  obtain ⟨hclosed, hdone⟩ := h
  cases a with
  | close =>
    simp only [step] at hs
    split at hs <;> cases hs <;> exact ⟨fun _ => rfl, fun _ => rfl⟩
  | testClosed =>
    simp only [step] at hs
    split at hs <;> cases hs
    refine ⟨hclosed, fun hc => ?_⟩
    by_contra he
    simp [he] at hc
  | fill _ =>
    simp only [step] at hs
    split at hs <;> cases hs
    exact ⟨hclosed, hdone⟩
  | testFull =>
    simp only [step] at hs
    split at hs <;> cases hs
    refine ⟨fun hc => ?_, hdone⟩
    simp only at hc
    split at hc <;> cases hc
  | retain | take | push | put | commit =>
    simp only [step] at hs
    split at hs <;> cases hs
    exact ⟨by rintro ⟨⟩, hdone⟩
  | testEmpty =>
    simp only [step] at hs
    split at hs <;> cases hs
    refine ⟨hclosed, fun hc => ?_⟩
    simp only at hc
    split at hc <;> cases hc
  | pull | read | give =>
    simp only [step] at hs
    split at hs <;> cases hs
    exact ⟨hclosed, by rintro ⟨⟩⟩

theorem exec_eosInv {N : RingSize} {mem : Nat → α} {tr : List (Action α)} {s : State α}
    (h : exec (step N) (init mem) tr = some s) : EosInv s :=
  exec_invariant (I := EosInv) ⟨by rintro ⟨⟩, by rintro ⟨⟩⟩ (fun _ _ _ hi hs => step_eosInv hi hs) h

/-- **When `pull` returns `nullptr`, the consumer has been given every pushed item iff no push was
completed after its last test for emptiness.** -/
theorem drained_iff (N : RingSize) (mem : Nat → α) (tr : List (Action α)) (s : State α)
    (h : exec (step N) (init mem) tr = some s) (hd : s.cons = .done) :
    s.pulled = s.pushed ↔ ¬ LatePush tr := by
  have hi := exec_closeInv h
  have hlate := hi.late (by rw [hd]; trivial)
  have hle := hi.inv.le
  rw [← hlate]
  constructor
  · intro he
    rw [he]
    exact Nat.lt_irrefl _
  · intro hn
    rw [hi.inv.pulled_eq, List.take_of_length_le (by omega)]

/-- A run that pulls its one item and then finds the channel closed. -/
def runDrained : List (Action Nat) :=
  [.retain, .testFull, .take, .fill 7, .push, .put, .commit, .pull, .testEmpty, .read, .give,
    .close, .pull, .testEmpty, .testClosed]

theorem drained_iff_runDrained :
    ∃ s, exec (step ringTwo) (init fun _ => 0) runDrained = some s ∧
      (s.cons, s.pushed) = (.done, [7]) ∧ (s.pulled = s.pushed ↔ ¬ LatePush runDrained) := by
  have h : (exec (step ringTwo) (init fun _ => 0) runDrained).map
      (fun s => (s.cons, s.pushed)) = some (.done, [7]) := by decide
  obtain ⟨s, hs, he⟩ := Option.map_eq_some_iff.mp h
  exact ⟨s, hs, he, drained_iff _ _ _ s hs (Prod.ext_iff.mp he).1⟩

/-- The consumer sees the ring empty; the producer pushes its only item and closes; the consumer
sees the channel closed. -/
def runLost : List (Action Nat) :=
  [.pull, .testEmpty, .retain, .testFull, .take, .fill 7, .push, .put, .commit, .close, .testClosed]

/-- `pull` returns `nullptr` and the item in the ring is never pulled. -/
theorem close_loses_item :
    ¬ ∀ (N : RingSize) (mem : Nat → Nat) (tr : List (Action Nat)) (s : State Nat),
      exec (step N) (init mem) tr = some s → s.cons = .done → s.pulled = s.pushed := by
  intro hall
  have h : (exec (step ringTwo) (init fun _ => 0) runLost).map
      (fun s => (s.cons, s.pushed, s.pulled)) = some (.done, [7], []) := by decide
  obtain ⟨s, hs, he⟩ := Option.map_eq_some_iff.mp h
  simp only [Prod.mk.injEq] at he
  have := hall _ _ _ s hs he.1
  rw [he.2.1, he.2.2] at this
  exact absurd this (by decide)

end PacketMachine.RingBuffer
