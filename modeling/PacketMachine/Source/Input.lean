import PacketMachine.Source.Pipeline

/-!
# The two ends of a capture

How `Input::thread_main` (`packetmachine.cc:54-77`) leaves its loop, and what the kernel thread has
done by the time that `pull` gives it `nullptr`, in every run of the two threads.

* `frames` are the packets that libpcap returned in a run, and `lastRead` its last answer.
* `LatePush` says of a run that a `push` was completed after the last test for an empty ring.

Results:
* **`input_ends`**: no packet of libpcap is skipped, but for one that there is no memory for, which
  ends the capture; the channel is closed exactly once, behind all packets; the thread returns at
  the end of the file, and throws the text of the error that stopped it.
* **`all_worked_iff`**: at `nullptr` the kernel thread is done with every packet exactly when no
  `push` came late.
-/

namespace PacketMachine.Source

open PacketMachine.Lib
open PacketMachine.RingBuffer (RingSize)

/-! ## What a run says of the capture -/

/-- The call of `read`, with what libpcap returned and whether memory was found. -/
def Action.read? : Action → Option (Next × Bool)
  | .read next found => some (next, found)
  | _ => none

/-- The calls of `read`. -/
def reads (tr : List Action) : List (Next × Bool) := tr.filterMap Action.read?

/-- The packets that libpcap returned. -/
def frames (tr : List Action) : List Frame := (reads tr).flatMap fun r => r.1.frames

/-- The last answer of libpcap. -/
def lastRead (tr : List Action) : Option (Next × Bool) := (reads tr).getLast?

/-- The calls of `close`. -/
def closes (tr : List Action) : Nat := tr.countP fun
  | .close => true
  | _ => false

/-- A result of `read` that ends the capture, by the last answer of libpcap. -/
def Ended (tr : List Action) (delivered : List Frame) : Result → String → Prop
  | .exit, _ => delivered = frames tr ∧ ∃ found, lastRead tr = some (.eof, found)
  | .error, text => delivered = frames tr ∧ (∃ found, lastRead tr = some (.failed text, found)) ∨
      text = "memory allocation error" ∧
        ∃ f, frames tr = delivered ++ [f] ∧ lastRead tr = some (.packet f, false)
  | _, _ => False

/-- What a run says of the capture thread, by where it stands. -/
def Told {κ : Type} (tr : List Action) (s : System κ) : Prop :=
  match s.input with
  | .close rc => Ended tr s.delivered rc s.cap.error ∧ closes tr = 0
  | .closed rc => Ended tr s.delivered rc s.cap.error ∧ closes tr = 1
  | .returned => Ended tr s.delivered .exit s.cap.error ∧ closes tr = 1
  | .threw text => Ended tr s.delivered .error text ∧ closes tr = 1
  | _ => s.delivered = frames tr ∧ closes tr = 0

section Capture

variable {κ : Type} {N : RingSize} {lay : Layout} {body : κ → Received → Except Decode.Fault κ}
  {k₀ : κ} {s s' s₀ : System κ} {tr : List Action}

theorem reads_snoc (tr : List Action) (a : Action) :
    reads (tr ++ [a]) = reads tr ++ a.read?.toList := by
  unfold reads
  rw [List.filterMap_append]
  cases h : a.read? <;> simp [h]

theorem frames_snoc (tr : List Action) (a : Action) :
    frames (tr ++ [a]) = frames tr ++ a.read?.toList.flatMap fun r => r.1.frames := by
  unfold frames
  rw [reads_snoc, List.flatMap_append]

theorem frames_read (tr : List Action) (next : Next) (found : Bool) :
    frames (tr ++ [.read next found]) = frames tr ++ next.frames := by
  rw [frames_snoc]
  simp [Action.read?]

theorem lastRead_read (tr : List Action) (next : Next) (found : Bool) :
    lastRead (tr ++ [.read next found]) = some (next, found) := by
  unfold lastRead
  rw [reads_snoc]
  simp [Action.read?]

/-- An action that is neither `read` nor `close` says nothing new. -/
theorem ended_snoc {a : Action} (ha : a.read? = none) (delivered : List Frame) (rc : Result)
    (text : String) : Ended (tr ++ [a]) delivered rc text ↔ Ended tr delivered rc text := by
  have hreads : reads (tr ++ [a]) = reads tr := by
    rw [reads_snoc, ha]
    exact List.append_nil _
  unfold Ended lastRead frames
  rw [hreads]

theorem closes_snoc {a : Action} (ha : a ≠ .close) : closes (tr ++ [a]) = closes tr := by
  unfold closes
  rw [List.countP_append]
  cases a <;> simp_all

/-- The capture thread stands where it stood, as far as `Told` sees. -/
theorem Told.snoc (h : Told tr s) {a : Action} (ha : a.read? = none) (hc : a ≠ .close)
    (hd : s'.delivered = s.delivered) (hcap : s'.cap = s.cap)
    (hi : s'.input = s.input ∨ (s.input = .top ∨ s.input = .push) ∧
      (s'.input = .top ∨ s'.input = .read)) : Told (tr ++ [a]) s' := by
  have hframes : frames (tr ++ [a]) = frames tr := by
    rw [frames_snoc, ha]
    exact List.append_nil _
  unfold Told at h ⊢
  rw [hd, hcap]
  simp only [ended_snoc ha, closes_snoc hc, hframes]
  rcases hi with hi | ⟨hi | hi, hi' | hi'⟩
  · rwa [hi]
  all_goals
    rw [hi] at h
    rw [hi']
    exact h

/-- What `read` returns, by the answer of libpcap. -/
theorem Told.read (h : Told tr s) (hinv : Inv N body k₀ s) {next : Next} {found : Bool}
    (hs : System.step N lay body s (.read next found) = some s') :
    Told (tr ++ [.read next found]) s' := by
  simp only [System.step] at hs
  split at hs
  · rename_i d hi hd
    have hready := hinv.ready (.inr (.inl hi))
    unfold Told at h
    simp only [hi] at h
    obtain ⟨hframes, hcloses⟩ := h
    have hcloses' : closes (tr ++ [.read next found]) = 0 := (closes_snoc (by simp)).trans hcloses
    split at hs
    · rename_i c h₁ pkt rc hread
      obtain ⟨r, hr, rfl⟩ := Option.map_eq_some_iff.mp hs
      by_cases hn : ∃ f, next = .packet f
      · obtain ⟨f, rfl⟩ := hn
        have hspec := read_packet hready (hinv.owns d) f found
        split at hspec
        · obtain ⟨h₂, pkt₂, hread₂, -⟩ := hspec
          obtain ⟨rfl, rfl, rfl, rfl⟩ : c = s.cap ∧ h₁ = h₂ ∧ pkt = pkt₂ ∧ rc = .ok := by
            simpa [hread] using hread₂
          refine ⟨?_, hcloses'⟩
          rw [frames_read, hframes]
          rfl
        · rename_i hf
          obtain ⟨h₂, pkt₂, hread₂, -⟩ := hspec
          obtain ⟨rfl, rfl, rfl, rfl⟩ : c = s.cap.setError "memory allocation error" ∧ h₁ = h₂ ∧
              pkt = pkt₂ ∧ rc = .error := by
            simpa [hread] using hread₂
          rw [Classical.not_imp, Bool.not_eq_true] at hf
          obtain ⟨-, rfl⟩ := hf
          refine ⟨.inr ⟨rfl, f, ?_, lastRead_read _ _ _⟩, hcloses'⟩
          rw [frames_read, ← hframes]
          simp [Next.frames]
      · obtain ⟨-, -, hrest⟩ := read_rest (fun _ f hf => hn ⟨f, hf⟩) found hread
        have hnone : frames (tr ++ [.read next found]) = frames tr := by
          rw [frames_read]
          cases next with
          | packet f => exact absurd ⟨f, rfl⟩ hn
          | _ => exact List.append_nil _
        rcases hrest with ⟨hrc, hc, -⟩ | ⟨-, ⟨hrc, hnext⟩ | ⟨hrc, hfail⟩⟩
        · dsimp only at hrc hc
          subst hrc
          subst hc
          refine ⟨?_, hcloses'⟩
          simpa [hnone] using hframes
        · dsimp only at hrc hnext
          subst hrc
          subst hnext
          refine ⟨⟨?_, found, lastRead_read _ _ _⟩, hcloses'⟩
          simpa [hnone] using hframes
        · rcases hfail with ⟨-, hnext⟩ | ⟨hnot, -⟩
          · dsimp only at hrc hnext
            subst hrc
            subst hnext
            refine ⟨.inl ⟨?_, found, lastRead_read _ _ _⟩, hcloses'⟩
            simpa [hnone] using hframes
          · rw [hready] at hnot
            cases hnot
    · cases hs
  · cases hs

theorem closes_close (tr : List Action) : closes (tr ++ [.close]) = closes tr + 1 := by
  unfold closes
  rw [List.countP_append]
  rfl

/-- The channel is closed. -/
theorem Told.close (h : Told tr s) (hs : System.step N lay body s .close = some s') :
    Told (tr ++ [.close]) s' := by
  simp only [System.step] at hs
  split at hs
  · rename_i rc hi
    obtain ⟨-, r, -, rfl⟩ := inputs_eq hs
    unfold Told at h
    simp only [hi] at h
    exact ⟨(ended_snoc rfl _ _ _).mpr h.1, by rw [closes_close, h.2]⟩
  · cases hs

/-- `break`, or `throw`. -/
theorem Told.leave (h : Told tr s) (hs : System.step N lay body s .leave = some s') :
    Told (tr ++ [.leave]) s' := by
  have hcloses : closes (tr ++ [.leave]) = closes tr := closes_snoc (by simp)
  simp only [System.step] at hs
  split at hs
  · rename_i hi
    obtain rfl := Option.some.inj hs
    unfold Told at h
    simp only [hi] at h
    exact ⟨(ended_snoc rfl _ _ _).mpr h.1, hcloses.trans h.2⟩
  · rename_i rc hne hi
    obtain rfl := Option.some.inj hs
    unfold Told at h
    simp only [hi] at h
    obtain ⟨hended, hone⟩ := h
    -- the loop is left with `ERROR` or `EXIT` only
    cases rc with
    | exit => exact ⟨(ended_snoc rfl _ _ _).mpr hended, hcloses.trans hone⟩
    | error => exact absurd rfl hne
    | ok => exact hended.elim
    | none => exact hended.elim
  · cases hs

/-- An action of the capture thread inside the channel, but for `close`. -/
theorem Told.inputs (h : Told tr s) {i j : Input} {a : RingBuffer.Action Packet} {b : Action}
    (hs : s.inputs N i j a = some s') (hb : b.read? = none) (hc : b ≠ .close)
    (hij : j = i ∨ (i = .top ∨ i = .push) ∧ (j = .top ∨ j = .read)) : Told (tr ++ [b]) s' := by
  obtain ⟨rfl, r, -, rfl⟩ := inputs_eq hs
  exact h.snoc hb hc rfl rfl hij

/-- An action of the kernel thread inside `pull`. -/
theorem Told.pulls (h : Told tr s) {a : RingBuffer.Action Packet} {b : Action}
    (hs : s.pulls N a = some s') (hb : b.read? = none) (hc : b ≠ .close) :
    Told (tr ++ [b]) s' := by
  obtain ⟨-, r, -, rfl⟩ := pulls_eq hs
  exact h.snoc hb hc rfl rfl (.inl rfl)

/-- **What a run says of the capture thread** is kept by every action of both. -/
theorem Told.step (h : Told tr s) (hinv : Inv N body k₀ s) {a : Action}
    (hs : System.step N lay body s a = some s') : Told (tr ++ [a]) s' := by
  cases a with
  | retain => exact h.inputs hs rfl (by simp) (.inl rfl)
  | testFull => exact h.inputs hs rfl (by simp) (.inl rfl)
  | take => exact h.inputs hs rfl (by simp) (.inr ⟨.inl rfl, .inr rfl⟩)
  | read next found => exact h.read hinv hs
  | push => exact h.inputs hs rfl (by simp) (.inl rfl)
  | put => exact h.inputs hs rfl (by simp) (.inl rfl)
  | commit => exact h.inputs hs rfl (by simp) (.inr ⟨.inr rfl, .inl rfl⟩)
  | close => exact h.close hs
  | leave => exact h.leave hs
  | pull => exact h.pulls hs rfl (by simp)
  | testEmpty => exact h.pulls hs rfl (by simp)
  | testClosed => exact h.pulls hs rfl (by simp)
  | slot => exact h.pulls hs rfl (by simp)
  | give =>
    simp only [System.step] at hs
    split at hs
    · obtain ⟨t, ht, rfl⟩ := Option.map_eq_some_iff.mp hs
      obtain ⟨-, r, -, rfl⟩ := pulls_eq ht
      exact h.snoc rfl (by simp) rfl rfl (.inl rfl)
    · cases hs
  | work =>
    simp only [System.step] at hs
    split at hs
    · split at hs
      · split at hs
        · obtain rfl := Option.some.inj hs
          exact h.snoc rfl (by simp) rfl rfl (.inl rfl)
        · cases hs
      · cases hs
    · cases hs

theorem told_start (h : Start s₀ k₀) : Told [] s₀ := by
  rw [h.rest]
  exact ⟨rfl, rfl⟩

theorem exec_told (h₀ : Start s₀ k₀) (h : exec (System.step N lay body) s₀ tr = some s) :
    Told tr s :=
  (exec_induct (I := fun tr s => Inv N body k₀ s ∧ Told tr s) ⟨inv_start h₀, told_start h₀⟩
    (fun _ _ _ _ hi hs => ⟨inv_step hi.1 hs, hi.2.step hi.1 hs⟩) tr h).2

/-! ## The run of the channel -/

/-- The action inside the channel, but for what a slot is filled with. -/
def Action.channel : Action → Option (RingBuffer.Action Unit)
  | .retain => some .retain
  | .testFull => some .testFull
  | .take => some .take
  | .read _ _ => some (.fill ())
  | .push => some .push
  | .put => some .put
  | .commit => some .commit
  | .close => some .close
  | .leave => none
  | .pull => some .pull
  | .testEmpty => some .testEmpty
  | .testClosed => some .testClosed
  | .slot => some .read
  | .give => some .give
  | .work => none

/-- An action of the channel, but for what a slot is filled with. -/
def shape : RingBuffer.Action Packet → RingBuffer.Action Unit
  | .retain => .retain
  | .testFull => .testFull
  | .take => .take
  | .fill _ => .fill ()
  | .push => .push
  | .put => .put
  | .commit => .commit
  | .close => .close
  | .pull => .pull
  | .testEmpty => .testEmpty
  | .testClosed => .testClosed
  | .read => .read
  | .give => .give

/-- An action of the system is an action of the channel, or none. -/
theorem channel_step {a : Action} (hs : System.step N lay body s a = some s') :
    (a.channel = none ∧ s'.ring = s.ring) ∨
      ∃ b, RingBuffer.step N s.ring b = some s'.ring ∧ a.channel = some (shape b) := by
  have hinputs : ∀ {i j b}, s.inputs N i j b = some s' →
      RingBuffer.step N s.ring b = some s'.ring := by
    intro i j b h
    obtain ⟨-, r, hr, rfl⟩ := inputs_eq h
    exact hr
  have hpulls : ∀ {b}, s.pulls N b = some s' → RingBuffer.step N s.ring b = some s'.ring := by
    intro b h
    obtain ⟨-, r, hr, rfl⟩ := pulls_eq h
    exact hr
  cases a with
  | retain => exact .inr ⟨_, hinputs hs, rfl⟩
  | testFull => exact .inr ⟨_, hinputs hs, rfl⟩
  | take => exact .inr ⟨_, hinputs hs, rfl⟩
  | push => exact .inr ⟨_, hinputs hs, rfl⟩
  | put => exact .inr ⟨_, hinputs hs, rfl⟩
  | commit => exact .inr ⟨_, hinputs hs, rfl⟩
  | pull => exact .inr ⟨_, hpulls hs, rfl⟩
  | testEmpty => exact .inr ⟨_, hpulls hs, rfl⟩
  | testClosed => exact .inr ⟨_, hpulls hs, rfl⟩
  | slot => exact .inr ⟨_, hpulls hs, rfl⟩
  | read next found =>
    simp only [System.step] at hs
    split at hs
    · split at hs
      · rename_i pkt _ _
        obtain ⟨r, hr, rfl⟩ := Option.map_eq_some_iff.mp hs
        exact .inr ⟨.fill pkt, hr, rfl⟩
      · cases hs
    · cases hs
  | close =>
    simp only [System.step] at hs
    split at hs
    · exact .inr ⟨_, hinputs hs, rfl⟩
    · cases hs
  | leave =>
    simp only [System.step] at hs
    split at hs <;> cases hs <;> exact .inl ⟨rfl, rfl⟩
  | give =>
    simp only [System.step] at hs
    split at hs
    · obtain ⟨t, ht, rfl⟩ := Option.map_eq_some_iff.mp hs
      obtain ⟨-, r, hr, rfl⟩ := pulls_eq ht
      exact .inr ⟨.give, hr, rfl⟩
    · cases hs
  | work =>
    simp only [System.step] at hs
    split at hs
    · split at hs
      · split at hs <;> cases hs
        exact .inl ⟨rfl, rfl⟩
      · cases hs
    · cases hs

/-- **Every run of the two threads is a run of the channel**, with the same actions in it. -/
theorem channel_run (h : exec (System.step N lay body) s₀ tr = some s) :
    ∃ rt, exec (RingBuffer.step N) s₀.ring rt = some s.ring ∧
      rt.map shape = tr.filterMap Action.channel := by
  refine exec_induct (I := fun tr s => ∃ rt, exec (RingBuffer.step N) s₀.ring rt = some s.ring ∧
    rt.map shape = tr.filterMap Action.channel) ⟨[], rfl, rfl⟩ ?_ tr h
  rintro tr t a t' ⟨rt, hrun, hmap⟩ hs
  rw [List.filterMap_append, ← hmap]
  rcases channel_step hs with ⟨hnone, hring⟩ | ⟨b, hb, hsome⟩
  · refine ⟨rt, hrun.trans (congrArg some hring.symm), ?_⟩
    simp [hnone]
  · refine ⟨rt ++ [b], ?_, ?_⟩
    · rw [exec_snoc, hrun]
      exact hb
    · simp [hsome]

/-- Some `push` was completed after the kernel thread's last test for an empty ring. -/
def LatePush (tr : List Action) : Prop := RingBuffer.LatePush (tr.filterMap Action.channel)

/-- What the slots are filled with does not matter. -/
theorem latePush_shape (rt : List (RingBuffer.Action Packet)) :
    RingBuffer.LatePush (rt.map shape) ↔ RingBuffer.LatePush rt := by
  have hcommit : ∀ b, shape b = .commit ↔ b = .commit := by
    intro b
    cases b <;> simp [shape]
  have htest : ∀ l : List (RingBuffer.Action Packet),
      .testEmpty ∈ l.map shape ↔ .testEmpty ∈ l := by
    intro l
    rw [List.mem_map]
    constructor
    · rintro ⟨b, hb, he⟩
      cases b with
      | testEmpty => exact hb
      | _ => cases he
    · exact fun hm => ⟨.testEmpty, hm, rfl⟩
  constructor
  · rintro ⟨before, after, he, hn⟩
    obtain ⟨before', l, rfl, rfl, hl⟩ := List.map_eq_append_iff.mp he
    obtain ⟨b, after', rfl, hb, rfl⟩ := List.map_eq_cons_iff.mp hl
    rw [(hcommit b).mp hb]
    exact ⟨before', after', rfl, fun hm => hn ((htest after').mpr hm)⟩
  · rintro ⟨before, after, rfl, hn⟩
    exact ⟨before.map shape, after.map shape, by rw [List.map_append, List.map_cons]; rfl,
      fun hm => hn ((htest after).mp hm)⟩

/-! ## The results -/

/-- The capture thread is behind its loop exactly when the channel is closed. -/
theorem Inv.closed (h : Inv N body k₀ s) : s.ring.prod = .closed ↔
    (∃ rc, s.input = .closed rc) ∨ s.input = .returned ∨ ∃ text, s.input = .threw text := by
  have hstands := h.stands
  constructor
  · intro hp
    rw [hp] at hstands
    cases hi : s.input with
    | closed rc => exact .inl ⟨rc, rfl⟩
    | returned => exact .inr (.inl rfl)
    | threw text => exact .inr (.inr ⟨text, rfl⟩)
    | top | read | push | close _ =>
      rw [hi] at hstands
      exact hstands.elim
  · intro hi
    cases hp : s.ring.prod with
    | closed => rfl
    | idle | wait _ | take _ | own _ | put _ _ | commit _ _ =>
      rw [hp] at hstands
      rcases hi with ⟨rc, hi⟩ | hi | ⟨text, hi⟩ <;> rw [hi] at hstands <;> exact hstands.elim

/-- What was delivered is pushed when the channel is closed. -/
theorem Inv.all_pushed (h : Inv N body k₀ s) (hp : s.ring.prod = .closed) :
    s.ring.pushed.length = s.delivered.length := by
  have hcount := h.count
  rw [if_neg] at hcount
  · exact hcount.symm
  · intro hi
    rcases h.closed.mp hp with ⟨rc, hj⟩ | hj | ⟨text, hj⟩ <;> rw [hi] at hj <;> cases hj

/-- The run of the channel in a run of the two threads, with what it says of the end. -/
theorem exec_channel (h₀ : Start s₀ k₀) (h : exec (System.step N lay body) s₀ tr = some s) :
    (s.ring.eos = true ↔ s.ring.prod = .closed) ∧ (s.ring.cons = .done → s.ring.eos = true) ∧
      (s.ring.cons.sawEmpty →
        (s.ring.pulled.length < s.ring.pushed.length ↔ LatePush tr)) := by
  obtain ⟨rt, hrun, hmap⟩ := channel_run h
  obtain ⟨mem, hring, -⟩ := h₀.ring
  rw [hring] at hrun
  have hclose := RingBuffer.exec_closeInv hrun
  have heos := RingBuffer.exec_eosInv hrun
  refine ⟨⟨hclose.eos, heos.closed⟩, heos.done, fun hd => ?_⟩
  unfold LatePush
  rw [← hmap, latePush_shape]
  exact hclose.late hd

/-- **How a capture ends**, in every interleaving and whatever libpcap returns. Every packet of
libpcap is delivered, but for one that there is no memory for, which is the last. The channel is
closed once, when all that was delivered is pushed. The thread returns when there are no more
packets, and otherwise throws what `pcap_geterr` said, or that there was no memory. -/
theorem input_ends (h₀ : Start s₀ k₀) (h : exec (System.step N lay body) s₀ tr = some s) :
    (s.delivered = frames tr ∨
      ∃ f, frames tr = s.delivered ++ [f] ∧ lastRead tr = some (.packet f, false)) ∧
    closes tr = (if s.ring.eos then 1 else 0) ∧
    (s.ring.eos = true → s.ring.pushed.length = s.delivered.length) ∧
    (s.input = .returned → s.delivered = frames tr ∧ ∃ found, lastRead tr = some (.eof, found)) ∧
    ∀ text, s.input = .threw text →
      s.delivered = frames tr ∧ (∃ found, lastRead tr = some (.failed text, found)) ∨
      text = "memory allocation error" ∧
        ∃ f, frames tr = s.delivered ++ [f] ∧ lastRead tr = some (.packet f, false) := by
  have hinv := exec_inv h₀ h
  have htold := exec_told h₀ h
  obtain ⟨heos, -, -⟩ := exec_channel h₀ h
  have hended : ∀ {rc text}, Ended tr s.delivered rc text → (s.delivered = frames tr ∨
      ∃ f, frames tr = s.delivered ++ [f] ∧ lastRead tr = some (.packet f, false)) := by
    intro rc text he
    cases rc with
    | exit => exact .inl he.1
    | error => exact he.imp And.left And.right
    | ok => exact he.elim
    | none => exact he.elim
  have hclosed := heos.trans hinv.closed
  unfold Told at htold
  refine ⟨?_, ?_, fun he => ?_, fun hi => ?_, fun text hi => ?_⟩
  · split at htold
    · exact hended htold.1
    · exact hended htold.1
    · exact hended htold.1
    · exact hended htold.1
    · exact .inl htold.1
  · cases hi : s.input with
    | top | read | push | close _ =>
      rw [if_neg (by rw [hclosed, hi]; simp)]
      simp only [hi] at htold
      exact htold.2
    | closed _ | returned | threw _ =>
      rw [if_pos (by rw [hclosed, hi]; simp)]
      simp only [hi] at htold
      exact htold.2
  · exact hinv.all_pushed (heos.mp he)
  · simp only [hi] at htold
    exact htold.1
  · simp only [hi] at htold
    exact htold.1

/-- **When `pull` has returned `nullptr`**, the kernel thread is done with every packet that was
delivered, each as libpcap gave it and in order, if and only if no `push` was completed after its
last test for an empty ring. -/
theorem all_worked_iff (h₀ : Start s₀ k₀) (h : exec (System.step N lay body) s₀ tr = some s)
    (hd : s.ring.cons = .done) :
    (List.Forall₂ Matches s.delivered s.worked ∧ s.worked.foldlM body k₀ = .ok s.kernel) ↔
      ¬ LatePush tr := by
  have hinv := exec_inv h₀ h
  obtain ⟨heos, hdone, hlate⟩ := exec_channel h₀ h
  have hpushed := hinv.all_pushed (heos.mp (hdone hd))
  have hphase : s.phase = .pull := by
    cases hp : s.phase with
    | pull => rfl
    | work d =>
      have := (hinv.working d hp).1
      rw [hd] at this
      cases this
  have hpulled := hinv.pulled
  rw [if_pos hphase, Nat.add_zero] at hpulled
  have hle := hinv.ring.le
  rw [← hlate (by rw [hd]; trivial)]
  constructor
  · rintro ⟨hm, -⟩
    have := hm.length_eq
    omega
  · intro hn
    refine ⟨?_, hinv.kernel⟩
    have hm := hinv.matched
    rwa [List.take_of_length_le (by omega)] at hm

end Capture

/-- The one packet of a file, and its end. -/
def runFile : List Action :=
  runPulled ++ [.read .timeout true, .read .eof true, .close, .leave, .work, .pull, .testEmpty,
    .testClosed]

theorem input_ends_runFile :
    ∃ s, exec (System.step RingBuffer.ringTwo flatLayout sumLengths)
        (fileStart 0) runFile = some s ∧
      s.input = .returned ∧
      (s.delivered = frames runFile ∨ ∃ f, frames runFile = s.delivered ++ [f] ∧
        lastRead runFile = some (.packet f, false)) ∧
      closes runFile = (if s.ring.eos then 1 else 0) ∧
      (s.ring.eos = true → s.ring.pushed.length = s.delivered.length) ∧
      (s.input = .returned → s.delivered = frames runFile ∧
        ∃ found, lastRead runFile = some (.eof, found)) ∧
      ∀ text, s.input = .threw text →
        s.delivered = frames runFile ∧ (∃ found, lastRead runFile = some (.failed text, found)) ∨
        text = "memory allocation error" ∧ ∃ f, frames runFile = s.delivered ++ [f] ∧
          lastRead runFile = some (.packet f, false) := by
  have h : (exec (System.step RingBuffer.ringTwo flatLayout sumLengths) (fileStart 0) runFile).map
      (fun s => s.input) = some .returned := by decide
  obtain ⟨s, hs, he⟩ := Option.map_eq_some_iff.mp h
  exact ⟨s, hs, he, input_ends (start_fileStart 0) hs⟩

theorem all_worked_iff_runFile :
    ∃ s, exec (System.step RingBuffer.ringTwo flatLayout sumLengths)
        (fileStart 0) runFile = some s ∧
      s.ring.cons = .done ∧
      ((List.Forall₂ Matches s.delivered s.worked ∧
        s.worked.foldlM sumLengths 0 = .ok s.kernel) ↔ ¬ LatePush runFile) := by
  have h : (exec (System.step RingBuffer.ringTwo flatLayout sumLengths) (fileStart 0) runFile).map
      (fun s => s.ring.cons) = some .done := by decide
  obtain ⟨s, hs, he⟩ := Option.map_eq_some_iff.mp h
  exact ⟨s, hs, he, all_worked_iff (start_fileStart 0) hs he⟩

end PacketMachine.Source
