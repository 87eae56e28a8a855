import PacketMachine.Source.Input

/-!
# The end of the kernel thread

What is left of a run once the capture thread has closed the channel. The kernel thread then counts
down: `System.rank` is the number of actions that are still to come, in every schedule.

Results:
* `rank_step`: every action lowers the rank by one.
* `rank_progress`: while the rank is positive, some action can happen.
* **`kernel_drains`**: whatever the schedule, both threads come to their ends after that number of
  actions, and every packet is worked, unless the kernel thread was already behind an empty ring
  that has filled since.
* `never_both_wait`: before that, the two threads never wait for each other.
-/

namespace PacketMachine.Source

open PacketMachine.Lib
open PacketMachine.RingBuffer (RingSize)

section Progress

variable {κ : Type} {N : RingSize} {lay : Layout} {body : κ → Received → Except Decode.Fault κ}
  {k₀ : κ} {s s' s₀ : System κ} {tr : List Action}

/-- **The two threads never wait for each other**: the ring is not full for one and empty for the
other. -/
theorem never_both_wait (h₀ : Start s₀ k₀) (h : exec (System.step N lay body) s₀ tr = some s)
    {n m : Nat} (hn : s.ring.prod = .wait n) (hfull : n = s.ring.pullIdx)
    (hm : s.ring.cons = .test m) : m ≠ RingBuffer.next N s.ring.pushIdx := by
  have hinv := (exec_inv h₀ h).ring
  have hprod := hinv.prod
  have hcons := hinv.cons
  rw [hn] at hprod
  rw [hm] at hcons
  intro hempty
  rw [hcons, hinv.push_idx, RingBuffer.next_mod] at hempty
  rw [hprod, hinv.pull_idx] at hfull
  have hle := hinv.le
  have hlt := hinv.lt
  have htwo := N.two_le
  have := RingBuffer.eq_of_mod_eq (by omega) (by omega) hempty
  have := RingBuffer.eq_of_mod_eq (show s.ring.pulled.length ≤ s.ring.pushed.length + 1 by omega)
    (by omega) hfull.symm
  omega

/-! ## Behind `close` -/

/-- The actions that are still to come of the kernel thread, with `q` packets in the ring. -/
def kernelRank (q : Nat) : Phase → RingBuffer.Consumer → Nat
  | .work _, _ => 5 * q + 4
  | .pull, .idle => 5 * q + 3
  | .pull, .test _ => 5 * q + 2
  | .pull, .read _ => 5 * q + 1
  | .pull, .give _ _ => 5 * q
  | .pull, .check _ => 1
  | .pull, .done => 0

/-- Whether the capture thread is still to leave. -/
def Input.rank : Input → Nat
  | .closed _ => 1
  | _ => 0

/-- The actions that are still to come when the channel is closed. -/
def System.rank (s : System κ) : Nat :=
  kernelRank (s.ring.pushed.length - s.ring.pulled.length) s.phase s.ring.cons + s.input.rank

/-- The channel is closed. -/
structure Closing (N : RingSize) (body : κ → Received → Except Decode.Fault κ) (k₀ : κ)
    (s : System κ) : Prop where
  inv : Inv N body k₀ s
  closed : s.ring.prod = .closed
  eos : s.ring.eos = true

theorem closing_of_exec (h₀ : Start s₀ k₀) (h : exec (System.step N lay body) s₀ tr = some s)
    (hp : s.ring.prod = .closed) : Closing N body k₀ s :=
  ⟨exec_inv h₀ h, hp, (exec_channel h₀ h).1.mpr hp⟩

/-- The capture thread does nothing but leave. -/
theorem Closing.not_inputs (h : Closing N body k₀ s) {i j : Input}
    {a : RingBuffer.Action Packet}
    (ha : a = .retain ∨ a = .testFull ∨ a = .take ∨ a = .push ∨ a = .put ∨ a = .commit ∨
      a = .close) : s.inputs N i j a ≠ some s' := by
  intro hs
  obtain ⟨-, r, hr, -⟩ := inputs_eq hs
  rcases ha with rfl | rfl | rfl | rfl | rfl | rfl | rfl <;>
    simp only [RingBuffer.step, h.closed] at hr <;> cases hr

/-- All that the kernel thread has seen an empty ring of is pulled. -/
def System.Drained (s : System κ) : Prop :=
  s.ring.cons.sawEmpty → s.ring.pulled.length = s.ring.pushed.length

/-- One action behind `close`. -/
structure Counts (s s' : System κ) : Prop where
  prod : s'.ring.prod = s.ring.prod
  eos : s'.ring.eos = s.ring.eos
  delivered : s'.delivered = s.delivered
  rank : s'.rank + 1 = s.rank
  drained : s.Drained → s'.Drained

/-- An action of the kernel thread in `pull`, but for its end. -/
theorem Closing.pulls (h : Closing N body k₀ s) {a : RingBuffer.Action Packet}
    (hs : s.pulls N a = some s')
    (ha : a = .pull ∨ a = .testEmpty ∨ a = .testClosed ∨ a = .read) : Counts s s' := by
  obtain ⟨hphase, r, hr, rfl⟩ := pulls_eq hs
  have hcons := h.inv.ring.cons
  have hle := h.inv.ring.le
  rcases ha with rfl | rfl | rfl | rfl <;> simp only [RingBuffer.step] at hr <;>
    split at hr <;> cases hr
  · rename_i hc
    refine ⟨rfl, rfl, rfl, ?_, fun _ => False.elim⟩
    simp only [System.rank, hphase, hc, kernelRank]
    omega
  · rename_i n hc
    rw [hc] at hcons
    -- the ring is empty exactly when the test says so
    have hempty : n = RingBuffer.next N s.ring.pushIdx ↔
        s.ring.pulled.length = s.ring.pushed.length := by
      rw [hcons, h.inv.ring.push_idx, RingBuffer.next_mod]
      constructor
      · intro he
        have hlt := h.inv.ring.lt
        have := RingBuffer.eq_of_mod_eq (by omega) (by omega) he
        omega
      · intro he
        rw [he]
    refine ⟨rfl, rfl, rfl, ?_, fun _ hsaw => ?_⟩
    · simp only [System.rank, hphase, hc]
      split
      · rename_i he
        rw [hempty.mp he]
        simp only [kernelRank]
        omega
      · simp only [kernelRank]
        omega
    · simp only at hsaw
      split at hsaw
      · rename_i he
        exact hempty.mp he
      · exact hsaw.elim
  · rename_i n hc
    rw [if_pos h.eos]
    refine ⟨rfl, rfl, rfl, ?_, fun hd _ => hd ?_⟩
    · simp only [System.rank, hphase, hc, kernelRank]
      omega
    · rw [hc]
      trivial
  · rename_i n hc
    refine ⟨rfl, rfl, rfl, ?_, fun _ => False.elim⟩
    simp only [System.rank, hphase, hc, kernelRank]
    omega

/-- `pull` returns a packet. -/
theorem Closing.give (h : Closing N body k₀ s)
    (hs : System.step N lay body s .give = some s') : Counts s s' := by
  simp only [System.step] at hs
  split at hs
  · rename_i n d hd
    obtain ⟨t, ht, rfl⟩ := Option.map_eq_some_iff.mp hs
    obtain ⟨hphase, r, hr, rfl⟩ := pulls_eq ht
    have hcons := h.inv.ring.cons
    rw [hd] at hcons
    obtain ⟨-, -, hlt⟩ := hcons
    simp only [RingBuffer.step, hd] at hr
    obtain rfl := Option.some.inj hr
    refine ⟨rfl, rfl, rfl, ?_, fun _ => False.elim⟩
    simp only [System.rank, hphase, hd, kernelRank, List.length_append, List.length_singleton]
    omega
  · cases hs

/-- The loop body. -/
theorem Closing.work (h : Closing N body k₀ s)
    (hs : System.step N lay body s .work = some s') : Counts s s' := by
  simp only [System.step] at hs
  split at hs
  · rename_i d hd
    split at hs
    · split at hs
      · obtain rfl := Option.some.inj hs
        refine ⟨rfl, rfl, rfl, ?_, id⟩
        simp only [System.rank, hd, (h.inv.working d hd).1, kernelRank]
        omega
      · cases hs
    · cases hs
  · cases hs

/-- **Every action behind `close` counts down.** -/
theorem rank_step (h : Closing N body k₀ s) {a : Action}
    (hs : System.step N lay body s a = some s') : Counts s s' := by
  cases a with
  | retain => exact (h.not_inputs (by simp) hs).elim
  | testFull => exact (h.not_inputs (by simp) hs).elim
  | take => exact (h.not_inputs (by simp) hs).elim
  | push => exact (h.not_inputs (by simp) hs).elim
  | put => exact (h.not_inputs (by simp) hs).elim
  | commit => exact (h.not_inputs (by simp) hs).elim
  | read next found =>
    simp only [System.step] at hs
    split at hs
    · rename_i hprod
      rw [h.closed] at hprod
      cases hprod
    · cases hs
  | close =>
    simp only [System.step] at hs
    split at hs
    · exact (h.not_inputs (by simp) hs).elim
    · cases hs
  | leave =>
    simp only [System.step] at hs
    split at hs <;> cases hs
    · rename_i hi
      refine ⟨rfl, rfl, rfl, ?_, id⟩
      simp only [System.rank, hi, Input.rank, Nat.add_zero]
    · rename_i hi
      refine ⟨rfl, rfl, rfl, ?_, id⟩
      simp only [System.rank, hi, Input.rank, Nat.add_zero]
  | pull => exact h.pulls hs (by simp)
  | testEmpty => exact h.pulls hs (by simp)
  | testClosed => exact h.pulls hs (by simp)
  | slot => exact h.pulls hs (by simp)
  | give => exact h.give hs
  | work => exact h.work hs

theorem Closing.step (h : Closing N body k₀ s) {a : Action}
    (hs : System.step N lay body s a = some s') : Closing N body k₀ s' :=
  have hc := rank_step h hs
  ⟨inv_step h.inv hs, hc.prod.trans h.closed, hc.eos.trans h.eos⟩

/-- **The loop body can always be run** when it takes the packets that were delivered. -/
theorem work_progress (h : Inv N body k₀ s)
    (hbody : ∀ f ∈ s.delivered, ∀ r, Matches f r → ∃ k, body s.kernel r = .ok k) {d : Nat}
    (hd : s.phase = .work d) : ∃ s', System.step N lay body s .work = some s' := by
  obtain ⟨f, hf, hcarries, -⟩ := h.works hd
  obtain ⟨r, hr, hmatches⟩ := received_of_carries lay hcarries
  obtain ⟨k, hk⟩ := hbody f (List.mem_of_getElem? hf) r hmatches
  simp only [System.step, hd, hr, hk]
  exact ⟨_, rfl⟩

/-- **While something is to come, some action can happen.** -/
theorem rank_progress (h : Closing N body k₀ s)
    (hbody : ∀ f ∈ s.delivered, ∀ r, Matches f r → ∃ k, body s.kernel r = .ok k)
    (hr : s.rank ≠ 0) : ∃ a s', System.step N lay body s a = some s' := by
  by_cases hi : ∃ rc, s.input = .closed rc
  · obtain ⟨rc, hi⟩ := hi
    refine ⟨.leave, ?_⟩
    simp only [System.step, hi]
    cases rc <;> exact ⟨_, rfl⟩
  have hinput : s.input.rank = 0 := by
    cases hj : s.input with
    | closed rc => exact absurd ⟨rc, hj⟩ hi
    | _ => rfl
  unfold System.rank at hr
  rw [hinput, Nat.add_zero] at hr
  cases hp : s.phase with
  | work d => exact ⟨.work, work_progress h.inv hbody hp⟩
  | pull =>
    cases hc : s.ring.cons with
    | idle =>
      exact ⟨.pull, by simp [System.step, System.pulls, System.channel, RingBuffer.step, hp, hc]⟩
    | test n =>
      exact ⟨.testEmpty,
        by simp [System.step, System.pulls, System.channel, RingBuffer.step, hp, hc]⟩
    | check n =>
      exact ⟨.testClosed,
        by simp [System.step, System.pulls, System.channel, RingBuffer.step, hp, hc]⟩
    | read n =>
      exact ⟨.slot, by simp [System.step, System.pulls, System.channel, RingBuffer.step, hp, hc]⟩
    | give n d =>
      exact ⟨.give, by simp [System.step, System.pulls, System.channel, RingBuffer.step, hp, hc]⟩
    | done =>
      rw [hp, hc] at hr
      exact absurd rfl hr

/-- What it means that nothing is to come. -/
theorem Closing.ended (h : Closing N body k₀ s) (hr : s.rank = 0) :
    s.ring.cons = .done ∧ s.phase = .pull ∧
      (s.input = .returned ∨ ∃ text, s.input = .threw text) := by
  unfold System.rank at hr
  obtain ⟨hk, hi⟩ := Nat.add_eq_zero_iff.mp hr
  have hinput : s.input = .returned ∨ ∃ text, s.input = .threw text := by
    rcases h.inv.closed.mp h.closed with ⟨rc, hj⟩ | hj | hj
    · rw [hj] at hi
      cases hi
    · exact .inl hj
    · exact .inr hj
  have hcons := h.inv.ring.cons
  cases hp : s.phase with
  | work d =>
    rw [hp] at hk
    simp only [kernelRank] at hk
    omega
  | pull =>
    cases hc : s.ring.cons with
    | done => exact ⟨rfl, rfl, hinput⟩
    | give n d =>
      rw [hc] at hcons
      rw [hp, hc] at hk
      simp only [kernelRank] at hk
      have := hcons.2.2
      omega
    | idle | test _ | check _ | read _ =>
      rw [hp, hc] at hk
      simp only [kernelRank] at hk
      omega

/-- What a run behind `close` keeps: nothing more is delivered, and every action counts. -/
theorem Closing.exec (h : Closing N body k₀ s) {tr' : List Action} {t : System κ}
    (ht : exec (System.step N lay body) s tr' = some t) : Closing N body k₀ t ∧
      t.delivered = s.delivered ∧ (s.Drained → t.Drained) ∧ tr'.length + t.rank = s.rank := by
  obtain ⟨⟨hclosing, hdelivered, hdrained⟩, hlen⟩ := exec_rank
    (I := fun t => Closing N body k₀ t ∧ t.delivered = s.delivered ∧ (s.Drained → t.Drained))
    (fun u a u' hu hs => ⟨⟨hu.1.step hs, (rank_step hu.1 hs).delivered.trans hu.2.1,
      fun hd => (rank_step hu.1 hs).drained (hu.2.2 hd)⟩, (rank_step hu.1 hs).rank⟩) tr'
    ⟨h, rfl, id⟩ ht
  exact ⟨hclosing, hdelivered, hdrained, hlen⟩

/-- At rank 0 both threads are at their ends, and every packet is worked unless a `push` came late. -/
theorem exec_ended (h₀ : Start s₀ k₀) (h : exec (System.step N lay body) s₀ tr = some s)
    (hp : s.ring.prod = .closed) {tr' : List Action} {t : System κ}
    (ht : exec (System.step N lay body) s tr' = some t) (hr : t.rank = 0) :
    t.ring.cons = .done ∧ (t.input = .returned ∨ ∃ text, t.input = .threw text) ∧
      ((s.ring.cons.sawEmpty → ¬ LatePush tr) → List.Forall₂ Matches s.delivered t.worked) := by
  obtain ⟨hclosing, hdelivered, hdrained, -⟩ := (closing_of_exec h₀ h hp).exec ht
  obtain ⟨hdone, hphase, hinput⟩ := hclosing.ended hr
  refine ⟨hdone, hinput, fun hlate => ?_⟩
  obtain ⟨-, -, hiff⟩ := exec_channel h₀ h
  have hle := (exec_inv h₀ h).ring.le
  have hall : t.ring.pulled.length = t.ring.pushed.length := by
    refine hdrained (fun hsaw => ?_) (by rw [hdone]; trivial)
    have := mt (hiff hsaw).mp (hlate hsaw)
    omega
  have hpulled := hclosing.inv.pulled
  rw [if_pos hphase, Nat.add_zero] at hpulled
  have hpushed := hclosing.inv.all_pushed hclosing.closed
  have hmatched := hclosing.inv.matched
  rwa [List.take_of_length_le (by omega), hdelivered] at hmatched

/-- **Once the channel is closed, the program comes to its end in every schedule.** Each further run
is as long as the rank has gone down by; as long as the rank is not 0 some action can happen; and at
0 `pull` has returned `nullptr`, the capture thread has left, and the kernel thread is done with
every packet that was delivered, unless a `push` had come late when the channel was closed. -/
theorem kernel_drains (h₀ : Start s₀ k₀) (h : exec (System.step N lay body) s₀ tr = some s)
    (hp : s.ring.prod = .closed)
    (hbody : ∀ (rs : List Received) (k : κ), rs.foldlM body k₀ = .ok k →
      ∀ f ∈ s.delivered, ∀ r, Matches f r → ∃ k', body k r = .ok k') :
    ∀ tr' t, exec (System.step N lay body) s tr' = some t →
      tr'.length + t.rank = s.rank ∧
      (t.rank ≠ 0 → ∃ a t', System.step N lay body t a = some t') ∧
      (t.rank = 0 → t.ring.cons = .done ∧ (t.input = .returned ∨ ∃ text, t.input = .threw text) ∧
        ((s.ring.cons.sawEmpty → ¬ LatePush tr) → List.Forall₂ Matches s.delivered t.worked)) := by
  intro tr' t ht
  obtain ⟨hclosing, hdelivered, -, hlen⟩ := (closing_of_exec h₀ h hp).exec ht
  exact ⟨hlen, rank_progress hclosing (hdelivered ▸ hbody _ _ hclosing.inv.kernel),
    exec_ended h₀ h hp ht⟩

end Progress

/-- The kernel thread is at its first packet when the channel is closed. -/
def runClosed : List Action := runPulled ++ [.read .eof true, .close]

theorem kernel_drains_runClosed :
    ∃ s, exec (System.step RingBuffer.ringTwo flatLayout sumLengths)
        (fileStart 0) runClosed = some s ∧
      s.rank = 5 ∧
      ∀ tr' t, exec (System.step RingBuffer.ringTwo flatLayout sumLengths) s tr' = some t →
        tr'.length + t.rank = s.rank ∧
        (t.rank ≠ 0 → ∃ a t',
          System.step RingBuffer.ringTwo flatLayout sumLengths t a = some t') ∧
        (t.rank = 0 → t.ring.cons = .done ∧
          (t.input = .returned ∨ ∃ text, t.input = .threw text) ∧
          ((s.ring.cons.sawEmpty → ¬ LatePush runClosed) →
            List.Forall₂ Matches s.delivered t.worked)) := by
  have h : (exec (System.step RingBuffer.ringTwo flatLayout sumLengths) (fileStart 0) runClosed).map
      (fun s => (s.ring.prod, s.rank)) = some (.closed, 5) := by decide
  obtain ⟨s, hs, he⟩ := Option.map_eq_some_iff.mp h
  exact ⟨s, hs, congrArg Prod.snd he, kernel_drains (start_fileStart 0) hs (congrArg Prod.fst he :)
    fun _ k _ _ _ r _ => ⟨k + r.capLen, rfl⟩⟩

end PacketMachine.Source
