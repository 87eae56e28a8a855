import PacketMachine.Machine.Protocol

/-!
# What the contract of `Machine` refuses goes wrong

`Machine/Protocol.lean` proves that the allowed orders of calls are safe. Here is the other half: of
every order that is not allowed there is a run that comes to a `Fault`, so that no larger contract
would do.

* The run is short: the capture thread finds no packet, and a stage has one place where the run is
  when its calls are done (`Waits`).
* A `join` with a timeout gives up when the capture thread has closed the channel. What becomes of
  it then depends on the result of its last `read` (`rc`), and either will be needed.

Results:
* `takes`, `closes_channel`, `finds_end`: the parts of a run inside the threads.
* `waits_call`, `waits_refused`: one call more, from a lemma for each of them (`Comes`).
* **`protocol_exact`**: an order of calls is allowed exactly when no run of it has a fault.
-/

namespace PacketMachine.Facade

open PacketMachine.Lib
open PacketMachine.RingBuffer (RingSize)
open PacketMachine.Source (Capture Layout Next Packet Received Result System)

/-! ## Inside the threads -/

section Threads

variable {κ : Type} {N : RingSize} {L : Layout} {B : κ → Received → Except Decode.Fault κ}
  {F : κ → κ} {w : World κ} {s t : System κ} {c k : Nat} {cap : Capture}

/-- The channel is empty, with room for more. -/
structure Empty (N : RingSize) (r : RingBuffer.State Packet) (eos : Bool) : Prop where
  eos : r.eos = eos
  idx : r.pullIdx = r.pushIdx
  room : RingBuffer.next N r.pushIdx ≠ r.pushIdx

/-- `retain` gives a slot. -/
theorem takes (hi : s.input = .top) (hp : s.ring.prod = .idle)
    (hroom : RingBuffer.next N s.ring.pushIdx ≠ s.ring.pullIdx) :
    exec (System.step N L B) s [.retain, .testFull, .take] = some { s with
      input := .read
      ring := { s.ring with prod := .own (s.ring.ring (RingBuffer.next N s.ring.pushIdx)) } } := by
  simp [exec, System.step, System.inputs, System.channel, RingBuffer.step, hi, hp, hroom]

/-- What libpcap says when the capture ends with this result. -/
def ending : Result → Next
  | .exit => .eof
  | _ => .failed "read error"

/-- `read` gives an end, and the channel is closed. -/
theorem closes_channel {d : Nat} {rc : Result} (hrc : rc = .exit ∨ rc = .error)
    (hi : s.input = .read) (hp : s.ring.prod = .own d) (hready : s.cap.ready = true) :
    ∃ mem, exec (System.step N L B) s [.read (ending rc) true, .close] = some { s with
      cap := if rc = .exit then s.cap.setReady false
        else (s.cap.setError "read error").setReady false
      input := .closed rc
      ring := { s.ring with mem, eos := true, prod := .closed } } := by
  refine ⟨Function.update s.ring.mem d (s.ring.mem d), ?_⟩
  obtain rfl | rfl := hrc
  · simp [exec, System.step, System.inputs, System.channel, RingBuffer.step, hi, hp, ending,
      Source.Capture.read_eq, Source.Capture.pcapRead, hready, Source.Input.after, pure,
      Except.pure]
  · simp [exec, System.step, System.inputs, System.channel, RingBuffer.step, hi, hp, ending,
      Source.Capture.read_eq, Source.Capture.pcapRead, hready, Source.Input.after, pure,
      Except.pure]

/-- `pull` gives `nullptr`. -/
theorem finds_end (hp : s.phase = .pull) (hc : s.ring.cons = .idle) (he : Empty N s.ring true) :
    exec (System.step N L B) s [.pull, .testEmpty, .testClosed] = some { s with
      ring := { s.ring with cons := .done } } := by
  simp [exec, System.step, System.pulls, System.channel, RingBuffer.step, hp, hc, he.eos, he.idx]

/-! ### In the program -/

/-- What the capture thread works on. -/
structure Works (w : World κ) (c k : Nat) (cap : Capture) : Prop where
  status : w.status = .fine
  caps : object? w.caps c = some cap
  inputs : object? w.inputs k = some ⟨c, .live⟩
  capture : w.capture = some k

theorem Works.source (h : Works w c k cap) : w.source? k = some (c, cap) := by
  unfold World.source?
  rw [h.inputs, Option.bind_some, h.caps]
  rfl

/-- Only `leave` comes out of `thread_main`. -/
theorem left_of_step {a : Source.Action} (ha : ofCapture a = true) (hne : a ≠ .leave)
    (hs : System.step N L B s a = some t) (w : World κ) (caps : List (Option Capture)) :
    ({ w with sys := t, caps } : World κ).left = { w with sys := t, caps } := by
  have hgoal : t.input ≠ .returned → (∀ text, t.input ≠ .threw text) →
      ({ w with sys := t, caps } : World κ).left = { w with sys := t, caps } := by
    intro hret hthrew
    unfold World.left
    cases hi : t.input <;> simp_all
  have hin : ∀ {i j b}, s.inputs N i j b = some t → j ≠ .returned → (∀ text, j ≠ .threw text) →
      ({ w with sys := t, caps } : World κ).left = { w with sys := t, caps } := by
    intro i j b h hret hthrew
    obtain ⟨-, r, -, rfl⟩ := Source.inputs_eq h
    exact hgoal hret hthrew
  cases a with
  | retain => exact hin hs (by simp) (by simp)
  | testFull => exact hin hs (by simp) (by simp)
  | take => exact hin hs (by simp) (by simp)
  | read next found =>
    simp only [System.step] at hs
    split at hs
    · split at hs
      · rename_i rc _
        obtain ⟨r, -, rfl⟩ := Option.map_eq_some_iff.mp hs
        cases rc <;> exact hgoal (by simp [Source.Input.after]) (by simp [Source.Input.after])
      · cases hs
    · cases hs
  | push => exact hin hs (by simp) (by simp)
  | put => exact hin hs (by simp) (by simp)
  | commit => exact hin hs (by simp) (by simp)
  | close =>
    simp only [System.step] at hs
    split at hs
    · exact hin hs (by simp) (by simp)
    · cases hs
  | leave => exact absurd rfl hne
  | _ => cases ha

/-- A part of `Input::thread_main` that stays in it. -/
theorem Works.goes (tr : List Source.Action) :
    ∀ {w : World κ} {cap : Capture} {t : System κ}, Works w c k cap →
      (∀ a ∈ tr, ofCapture a = true ∧ a ≠ .leave) →
      exec (System.step N L B) { w.sys with cap } tr = some t →
      ∃ sys caps, exec (World.step N L B F) w (tr.map .capture)
          = some { w with sys, caps } ∧
        { sys with cap := t.cap } = t ∧ object? caps c = some t.cap := by
  induction tr with
  | nil =>
    intro w cap t h _ ht
    obtain rfl := Option.some.inj ht
    exact ⟨w.sys, w.caps, rfl, rfl, h.caps⟩
  | cons a tr ih =>
    intro w cap t h ha ht
    obtain ⟨u, hu, ht⟩ := Option.bind_eq_some_iff.mp ht
    obtain ⟨hof, hne⟩ := ha a List.mem_cons_self
    have hstep : World.step N L B F w (.capture a)
        = some { w with sys := u, caps := w.caps.set c (some u.cap) } := by
      unfold World.step
      rw [if_neg (not_not.mpr h.status)]
      dsimp only
      rw [h.capture]
      dsimp only
      rw [if_pos hof, World.captures, h.source]
      dsimp only
      rw [hu, Option.map_some, left_of_step hof hne hu, h.capture]
    have hput : object? (w.caps.set c (some u.cap)) c = some u.cap := by
      rw [object?_put h.caps, if_pos rfl]
    have hw' : Works { w with sys := u, caps := w.caps.set c (some u.cap) } c k u.cap :=
      ⟨h.status, hput, h.inputs, h.capture⟩
    obtain ⟨sys, caps, hrun, hsys, hcaps⟩ :=
      ih hw' (fun b hb => ha b (List.mem_cons_of_mem a hb)) ht
    refine ⟨sys, caps, ?_, hsys, hcaps⟩
    rw [List.map_cons, exec, hstep]
    exact hrun

/-- A part of the loop in `Kernel::thread_main`. -/
theorem kernel_goes (tr : List Source.Action) : ∀ {w : World κ} {t : System κ},
    ¬ w.machine.isNone = true → w.status = .fine → w.loop = .loop →
      (∀ a ∈ tr, ofCapture a = false) → exec (System.step N L B) w.sys tr = some t →
      exec (World.step N L B F) w (tr.map .kernel) = some { w with sys := t } := by
  induction tr with
  | nil =>
    intro w t _ _ _ _ ht
    obtain rfl := Option.some.inj ht
    rfl
  | cons a tr ih =>
    intro w t hm hst hl ha ht
    obtain ⟨u, hu, ht⟩ := Option.bind_eq_some_iff.mp ht
    have hstep : World.step N L B F w (.kernel a) = some { w with sys := u } := by
      unfold World.step
      rw [if_neg (not_not.mpr hst)]
      dsimp only
      rw [if_pos ⟨hl, ha a List.mem_cons_self⟩, hu, Option.map_some, if_neg hm]
    rw [List.map_cons, exec, hstep]
    exact ih (w := { w with sys := u }) hm hst hl
      (fun b hb => ha b (List.mem_cons_of_mem a hb)) ht

theorem exec_trans {u v : World κ} {tr tr' : List Action}
    (h : exec (World.step N L B F) w tr = some u)
    (h' : exec (World.step N L B F) u tr' = some v) :
    exec (World.step N L B F) w (tr ++ tr') = some v := by
  rw [exec_append, h]
  exact h'

/-- The capture thread is at `read`. -/
theorem Works.reads (h : Works w c k cap) (hi : w.sys.input = .top) (hp : w.sys.ring.prod = .idle)
    {e : Bool} (he : Empty N w.sys.ring e) : ∃ sys caps d,
      exec (World.step N L B F) w
        [.capture .retain, .capture .testFull, .capture .take] = some { w with sys, caps } ∧
      sys.input = .read ∧ sys.phase = w.sys.phase ∧ sys.ring = { w.sys.ring with prod := .own d } ∧
      object? caps c = some cap := by
  obtain ⟨sys, caps, hrun, hsys, hcaps⟩ := h.goes (F := F) [.retain, .testFull, .take]
    (by simp [ofCapture])
    (takes (N := N) (L := L) (B := B) (s := { w.sys with cap }) hi hp
      (by simpa [he.idx] using he.room))
  refine ⟨sys, caps, _, hrun, (congrArg System.input hsys :), (congrArg System.phase hsys :),
    (congrArg System.ring hsys :), hcaps⟩

/-- From `read` the capture thread goes on to close the channel. -/
theorem Works.closes (h : Works w c k cap) (hi : w.sys.input = .read) {d : Nat}
    (hp : w.sys.ring.prod = .own d) (hready : cap.ready = true) {rc : Result}
    (hrc : rc = .exit ∨ rc = .error) : ∃ sys caps mem cap',
      exec (World.step N L B F) w
        [.capture (.read (ending rc) true), .capture .close] = some { w with sys, caps } ∧
      sys.input = .closed rc ∧ sys.phase = w.sys.phase ∧
      sys.ring = { w.sys.ring with mem, eos := true, prod := .closed } ∧
      object? caps c = some cap' ∧ cap'.ready = false := by
  obtain ⟨mem, hclose⟩ := closes_channel (N := N) (L := L) (B := B)
    (s := { w.sys with cap }) hrc hi hp hready
  obtain ⟨sys, caps, hrun, hsys, hcaps⟩ := h.goes (F := F) [.read (ending rc) true, .close]
    (by simp [ofCapture]) hclose
  refine ⟨sys, caps, mem, _, hrun, (congrArg System.input hsys :), (congrArg System.phase hsys :),
    (congrArg System.ring hsys :), hcaps, ?_⟩
  obtain rfl | rfl := hrc
  · rfl
  · rfl

/-- The end of the file: the capture thread returns. -/
theorem Works.returns (h : Works w c k cap) (hi : w.sys.input = .closed .exit) : ∃ sys caps,
      exec (World.step N L B F) w [.capture .leave] =
        some { w with sys, caps, capture := none } ∧
      sys.phase = w.sys.phase ∧ sys.ring = w.sys.ring ∧ object? caps c = some cap := by
  refine ⟨{ w.sys with cap, input := .returned }, w.caps.set c (some cap), ?_, rfl, rfl, ?_⟩
  · simp [exec, World.step, h.status, h.capture, ofCapture, World.captures, h.source, System.step,
      hi, World.left]
  · rw [object?_put h.caps, if_pos rfl]

/-- The kernel thread goes to its end. -/
theorem kernel_ends (hst : w.status = .fine) (hm : ¬ w.machine.isNone = true)
    (hl : w.loop = .entry) (hp : w.sys.phase = .pull) (hc : w.sys.ring.cons = .idle)
    (he : Empty N w.sys.ring true) : ∃ sys,
      exec (World.step N L B F) w runEmpty =
        some { w with sys, running := false, loop := .none } ∧
      sys.input = w.sys.input ∧ sys.ring = { w.sys.ring with cons := .done } := by
  let w₁ : World κ := { w with
    loop := .loop, running := true, sys := { w.sys with kernel := F w.sys.kernel } }
  have henter : exec (World.step N L B F) w [.enter] = some w₁ := by
    simp [exec, World.step, hst, hl, Bool.eq_false_iff.mpr hm, w₁]
  have hrun := kernel_goes (F := F) [.pull, .testEmpty, .testClosed] (w := w₁) hm hst rfl
    (by simp [ofCapture])
    (finds_end (N := N) (L := L) (B := B) (s := w₁.sys) hp hc he)
  let w₂ : World κ := { w₁ with sys := { w₁.sys with ring := { w.sys.ring with cons := .done } } }
  have hexit : exec (World.step N L B F) w₂ [.exit] =
      some { w₂ with running := false, loop := .none } := by
    simp [exec, World.step, hst, Bool.eq_false_iff.mpr hm, w₂, w₁]
  exact ⟨w₂.sys, exec_trans henter (exec_trans hrun hexit), rfl, rfl⟩

/-- The kernel thread comes to wait in `pull`. -/
theorem kernel_pulls (hst : w.status = .fine) (hm : ¬ w.machine.isNone = true)
    (hl : w.loop = .entry) (hp : w.sys.phase = .pull) (hc : w.sys.ring.cons = .idle) : ∃ sys n,
      exec (World.step N L B F) w [.enter, .kernel .pull] =
        some { w with sys, running := true, loop := .loop } ∧
      sys.phase = .pull ∧ sys.ring = { w.sys.ring with cons := .test n } := by
  let w₁ : World κ := { w with
    loop := .loop, running := true, sys := { w.sys with kernel := F w.sys.kernel } }
  have henter : exec (World.step N L B F) w [.enter] = some w₁ := by
    simp [exec, World.step, hst, hl, Bool.eq_false_iff.mpr hm, w₁]
  have hpull : exec (System.step N L B) w₁.sys [.pull] = some { w₁.sys with
      ring := { w.sys.ring with cons := .test (RingBuffer.next N w.sys.ring.pullIdx) } } := by
    simp [exec, System.step, System.pulls, System.channel, RingBuffer.step, hp, hc, w₁]
  have hrun := kernel_goes (F := F) [.pull] (w := w₁) hm hst rfl
    (by simp [ofCapture]) hpull
  exact ⟨_, _, exec_trans henter hrun, hp, rfl⟩

end Threads

/-! ## Where a run is between two calls -/

section Waits

variable {κ : Type} {N : RingSize} {L : Layout} {B : κ → Received → Except Decode.Fault κ}
  {F : κ → κ} {w : World κ} {e : Bool} {rc : Result} {c k : Nat} {cap : Capture}
  {i : Option Nat} {s s' : Stage}

/-- There is a source, and nothing is in the channel. -/
structure Kept (N : RingSize) (w : World κ) (e : Bool) (c : Nat) (cap : Capture) (i : Option Nat) :
    Prop where
  status : w.status = .fine
  machine : w.machine = some ⟨some c, i⟩
  caps : object? w.caps c = some cap
  ready : cap.ready = !e
  ring : Empty N w.sys.ring e

/-- Both threads are at their beginning. -/
structure Begun (w : World κ) (c k : Nat) : Prop where
  inputs : object? w.inputs k = some ⟨c, .live⟩
  th : w.th = .live
  capture : w.capture = some k
  loop : w.loop = .entry
  input : w.sys.input = .top
  phase : w.sys.phase = .pull
  prod : w.sys.ring.prod = .idle
  cons : w.sys.ring.cons = .idle

/-- Both threads are joined. -/
structure Over (w : World κ) (c k : Nat) : Prop where
  inputs : object? w.inputs k = some ⟨c, .joined⟩
  capture : w.capture = none
  loop : w.loop = .none

/-- A `join` has given up, and the capture thread is where it was. -/
structure Behind (N : RingSize) (rc : Result) (w : World κ) (e : Bool) (c k : Nat)
    (cap : Capture) : Prop where
  status : w.status = .fine
  machine : w.machine = some ⟨some c, some k⟩
  caps : object? w.caps c = some cap
  inputs : object? w.inputs k = some ⟨c, .live⟩
  th : w.th = .joined
  capture : w.capture = some k
  loop : w.loop = .none
  input : if e = true then w.sys.input = .top ∧ w.sys.ring.prod = .idle ∧ Empty N w.sys.ring true
    else w.sys.input = .closed rc

/-- Where the short run is when its calls have come to a stage. -/
def Waits (N : RingSize) (rc : Result) (w : World κ) : Stage → Prop
  | .bare => w.status = .fine ∧ w.user = .idle ∧ w.machine = some ⟨none, none⟩ ∧
      w.capture = none ∧ w.loop = .none ∧ Empty N w.sys.ring false
  | .opened .none e => w.user = .idle ∧ ∃ c cap, Kept N w e c cap none ∧
      w.capture = none ∧ w.loop = .none
  | .opened .both e => w.user = .idle ∧ ∃ c k cap, Kept N w e c cap (some k) ∧ Begun w c k
  | .opened .half e => w.user = .idle ∧ ∃ c k cap, Behind N rc w e c k cap
  | .opened .joined e => w.user = .idle ∧ ∃ c k cap, Kept N w e c cap (some k) ∧ Over w c k
  | .gone => w.status = .fine ∧ w.user = .idle ∧ w.machine = none
  | .stuck => False

theorem Kept.works (h : Kept N w e c cap (some k)) (hb : Begun w c k) : Works w c k cap :=
  ⟨h.status, h.caps, hb.inputs, hb.capture⟩

/-- A call comes to wait. -/
theorem Kept.asks (h : Kept N w e c cap i) (u : User) : Kept N { w with user := u } e c cap i :=
  ⟨h.status, h.machine, h.caps, h.ready, h.ring⟩

theorem Begun.asks (h : Begun w c k) (u : User) : Begun { w with user := u } c k :=
  ⟨h.inputs, h.th, h.capture, h.loop, h.input, h.phase, h.prod, h.cons⟩

theorem wait_input {timed : Bool} (hw : w.status = .fine)
    (hm : w.machine = some ⟨some c, some k⟩) (hu : w.user = .joinInput timed)
    (hc : w.capture = none) (hth : w.th = .live) :
    World.step N L B F w .wait = some { w with
      inputs := w.inputs.modify k (Option.map fun o => { o with th := .joined })
      user := .joinKernel } := by
  simp [World.step, World.wait, World.joinedInput, World.await, hw, hm, hu, hc, hth]

theorem wait_stop (hw : w.status = .fine) (hm : w.machine = some ⟨some c, some k⟩)
    (hu : w.user = .stopInput) (hc : w.capture = none) (hth : w.th = .live) :
    World.step N L B F w .wait = some { w with
      inputs := w.inputs.modify k (Option.map fun o => { o with th := .joined })
      user := .stopKernel } := by
  simp [World.step, World.wait, World.joinedInput, World.await, hw, hm, hu, hc, hth]

theorem wait_kernel {m : Machine} (hw : w.status = .fine) (hm : w.machine = some m)
    (hu : w.user = .joinKernel ∨ w.user = .stopKernel) (hl : w.loop = .none) :
    World.step N L B F w .wait = some ({ w with th := .joined }.gives .done) := by
  rcases hu with hu | hu
  · simp [World.step, World.wait, hw, hm, hu, hl]
  · simp [World.step, World.wait, hw, hm, hu, hl]

theorem object?_joined (h : object? w.inputs k = some ⟨c, .live⟩) :
    object? (w.inputs.modify k (Option.map fun o => { o with th := .joined })) k =
      some ⟨c, .joined⟩ := by
  rw [object?_modify, if_pos rfl, h]
  rfl

/-- **`join` returns**: the capture thread finds the end of the file, the kernel thread the end of
the channel. -/
theorem Begun.joins (hb : Begun w c k) (h : Kept N w false c cap (some k))
    (hu : w.user = .joinInput false) : ∃ w' cap',
      exec (World.step N L B F) w
        ([.capture .retain, .capture .testFull, .capture .take] ++
          ([.capture (.read (ending .exit) true), .capture .close] ++
            ([.capture .leave] ++ (runEmpty ++ [.wait, .wait])))) = some w' ∧
      w'.user = .idle ∧ Kept N w' true c cap' (some k) ∧ Over w' c k := by
  obtain ⟨sys₁, caps₁, d, hrun₁, hi₁, hp₁, hr₁, hcaps₁⟩ :=
    (h.works hb).reads (L := L) (B := B) (F := F) hb.input hb.prod h.ring
  obtain ⟨sys₂, caps₂, mem, cap', hrun₂, hi₂, hp₂, hr₂, hcaps₂, hready⟩ :=
    Works.closes (N := N) (L := L) (B := B) (F := F)
      (w := { w with sys := sys₁, caps := caps₁ })
      ⟨h.status, hcaps₁, hb.inputs, hb.capture⟩ hi₁ (congrArg _ hr₁) h.ready (.inl rfl)
  obtain ⟨sys₃, caps₃, hrun₃, hp₃, hr₃, hcaps₃⟩ :=
    Works.returns (N := N) (L := L) (B := B) (F := F)
      (w := { w with sys := sys₂, caps := caps₂ })
      ⟨h.status, hcaps₂, hb.inputs, hb.capture⟩ hi₂
  have hring : sys₃.ring = { w.sys.ring with prod := .closed, mem, eos := true } := by
    rw [hr₃]
    exact hr₂.trans (by rw [hr₁])
  have hempty : Empty N sys₃.ring true := by
    rw [hring]
    exact ⟨rfl, h.ring.idx, h.ring.room⟩
  obtain ⟨sys₄, hrun₄, -, hr₄⟩ :=
    kernel_ends (N := N) (L := L) (B := B) (F := F)
      (w := { w with sys := sys₃, caps := caps₃, capture := none })
      h.status (by simp [h.machine]) hb.loop (hp₃.trans (hp₂.trans (hp₁.trans hb.phase)))
      (by rw [hring]; exact hb.cons) hempty
  let w₄ : World κ := { w with
    sys := sys₄, caps := caps₃, capture := none, running := false, loop := .none }
  have hwait := wait_input (N := N) (L := L) (B := B) (F := F) (w := w₄)
    h.status h.machine hu rfl hb.th
  let w₅ : World κ := { w₄ with
    inputs := w.inputs.modify k (Option.map fun o => { o with th := .joined })
    user := .joinKernel }
  have hwait' := wait_kernel (N := N) (L := L) (B := B) (F := F) (w := w₅)
    h.status h.machine (.inl rfl) rfl
  have hwaits : exec (World.step N L B F) w₄ [.wait, .wait] =
      some ({ w₅ with th := .joined }.gives .done) := by
    rw [exec, hwait]
    exact (congrArg (fun o => o.bind some) hwait' :)
  refine ⟨{ w₅ with th := .joined }.gives .done, cap', exec_trans hrun₁ (exec_trans hrun₂
    (exec_trans hrun₃ (exec_trans hrun₄ hwaits))), rfl,
    ⟨h.status, h.machine, hcaps₃, hready, ?_⟩, object?_joined hb.inputs, rfl, rfl⟩
  show Empty N sys₄.ring true
  rw [hr₄]
  exact ⟨hempty.eos, hempty.idx, hempty.room⟩

theorem expires (hw : w.status = .fine) (hu : w.user = .joinInput true) :
    World.step N L B F w .expire = some (w.await w.th .joinKernel) := by
  simp [World.step, hw, hu]

/-- The user gives up waiting for the capture thread, and the kernel thread has ended. -/
theorem gives_up (hw : w.status = .fine) {m : Machine} (hm : w.machine = some m)
    (hu : w.user = .joinInput true) (hth : w.th = .live) (hl : w.loop = .none) :
    exec (World.step N L B F) w [.expire, .wait] =
      some ({ w with user := .joinKernel, th := .joined }.gives .done) := by
  have hwait := wait_kernel (N := N) (L := L) (B := B) (F := F)
    (w := { w with user := .joinKernel }) hw hm (.inl rfl) hl
  rw [exec, expires hw hu, World.await, if_pos hth]
  exact (congrArg (fun o => o.bind some) hwait :)

/-- **`join` gives up** when the channel is closed and the capture thread has not yet left. -/
theorem Begun.gives_up (hb : Begun w c k) (h : Kept N w false c cap (some k))
    (hu : w.user = .joinInput true) (hrc : rc = .exit ∨ rc = .error) : ∃ w' cap',
      exec (World.step N L B F) w
        ([.capture .retain, .capture .testFull, .capture .take] ++
          ([.capture (.read (ending rc) true), .capture .close] ++
            (runEmpty ++ [.expire, .wait]))) = some w' ∧
      w'.user = .idle ∧ Behind N rc w' false c k cap' := by
  obtain ⟨sys₁, caps₁, d, hrun₁, hi₁, hp₁, hr₁, hcaps₁⟩ :=
    (h.works hb).reads (L := L) (B := B) (F := F) hb.input hb.prod h.ring
  obtain ⟨sys₂, caps₂, mem, cap', hrun₂, hi₂, hp₂, hr₂, hcaps₂, -⟩ :=
    Works.closes (N := N) (L := L) (B := B) (F := F)
      (w := { w with sys := sys₁, caps := caps₁ })
      ⟨h.status, hcaps₁, hb.inputs, hb.capture⟩ hi₁ (congrArg _ hr₁) h.ready hrc
  have hring : sys₂.ring = { w.sys.ring with prod := .closed, mem, eos := true } :=
    hr₂.trans (by rw [hr₁])
  have hempty : Empty N sys₂.ring true := by
    rw [hring]
    exact ⟨rfl, h.ring.idx, h.ring.room⟩
  obtain ⟨sys₃, hrun₃, hi₃, -⟩ :=
    kernel_ends (N := N) (L := L) (B := B) (F := F)
      (w := { w with sys := sys₂, caps := caps₂ })
      h.status (by simp [h.machine]) hb.loop (hp₂.trans (hp₁.trans hb.phase))
      (by rw [hring]; exact hb.cons) hempty
  let w₃ : World κ := { w with sys := sys₃, caps := caps₂, running := false, loop := .none }
  have hend := Facade.gives_up (N := N) (L := L) (B := B) (F := F) (w := w₃)
    h.status h.machine hu hb.th rfl
  refine ⟨{ w₃ with user := .joinKernel, th := .joined }.gives .done, cap',
    exec_trans hrun₁ (exec_trans hrun₂ (exec_trans hrun₃ hend)), rfl,
    ⟨h.status, h.machine, hcaps₂, hb.inputs, rfl, hb.capture, rfl, ?_⟩⟩
  rw [if_neg (by simp)]
  exact hi₃.trans hi₂

/-- The same when the channel was closed before. -/
theorem Begun.gives_up_again (hb : Begun w c k) (rc : Result)
    (h : Kept N w true c cap (some k)) (hu : w.user = .joinInput true) : ∃ w',
      exec (World.step N L B F) w (runEmpty ++ [.expire, .wait]) = some w' ∧
      w'.user = .idle ∧ Behind N rc w' true c k cap := by
  obtain ⟨sys, hrun, hi, hr⟩ :=
    kernel_ends (N := N) (L := L) (B := B) (F := F) (w := w)
      h.status (by simp [h.machine]) hb.loop hb.phase hb.cons h.ring
  let w₁ : World κ := { w with sys, running := false, loop := .none }
  have hend := Facade.gives_up (N := N) (L := L) (B := B) (F := F) (w := w₁)
    h.status h.machine hu hb.th rfl
  refine ⟨{ w₁ with user := .joinKernel, th := .joined }.gives .done, exec_trans hrun hend, rfl,
    ⟨h.status, h.machine, h.caps, hb.inputs, rfl, hb.capture, rfl, ?_⟩⟩
  rw [if_pos rfl]
  refine ⟨hi.trans hb.input, (congrArg (fun r => r.prod) hr).trans hb.prod, ?_⟩
  show Empty N sys.ring true
  rw [hr]
  exact ⟨h.ring.eos, h.ring.idx, h.ring.room⟩

/-- **`halt` returns**: the capture thread is cancelled before its first packet. -/
theorem Begun.halts (hb : Begun w c k) (h : Kept N w e c cap (some k))
    (hu : w.user = .stopInput) : ∃ w',
      exec (World.step N L B F) w
        ([.capture .retain, .capture .testFull, .capture .take] ++ ([.cancelCapture, .wait] ++
          ([.enter, .kernel .pull] ++ [.cancelKernel, .wait]))) = some w' ∧
      w'.user = .idle ∧ Kept N w' e c cap (some k) ∧ Over w' c k := by
  obtain ⟨sys₁, caps₁, d, hrun₁, hi₁, hp₁, hr₁, hcaps₁⟩ :=
    (h.works hb).reads (L := L) (B := B) (F := F) hb.input hb.prod h.ring
  let w₁ : World κ := { w with sys := sys₁, caps := caps₁ }
  have hcancel : World.step N L B F w₁ .cancelCapture =
      some { w₁ with capture := none } := by
    have hsleeps : w₁.captureSleeps := .inl hi₁
    simp [World.step, w₁, h.status, hu, hb.capture] at hsleeps ⊢
    exact hsleeps
  have hwait := wait_stop (N := N) (L := L) (B := B) (F := F)
    (w := { w₁ with capture := none }) h.status h.machine hu rfl hb.th
  let w₂ : World κ := { w₁ with
    capture := none
    inputs := w.inputs.modify k (Option.map fun o => { o with th := .joined })
    user := .stopKernel }
  have hrun₂ : exec (World.step N L B F) w₁ [.cancelCapture, .wait] = some w₂ := by
    rw [exec, hcancel]
    exact (congrArg (fun o => o.bind some) hwait :)
  obtain ⟨sys₃, n, hrun₃, hp₃, hr₃⟩ :=
    kernel_pulls (N := N) (L := L) (B := B) (F := F) (w := w₂)
      h.status (by simp [w₂, w₁, h.machine]) hb.loop (hp₁.trans hb.phase)
      (by rw [show w₂.sys.ring = _ from hr₁]; exact hb.cons)
  let w₃ : World κ := { w₂ with sys := sys₃, running := true, loop := .loop }
  have hcancel' : World.step N L B F w₃ .cancelKernel =
      some { w₃ with loop := .none } := by
    have hsleeps : w₃.kernelSleeps := .inr ⟨hp₃, n, congrArg (fun r => r.cons) hr₃⟩
    simp [World.step, w₃, w₂, w₁, h.status] at hsleeps ⊢
    exact hsleeps
  have hwait' := wait_kernel (N := N) (L := L) (B := B) (F := F)
    (w := { w₃ with loop := .none }) h.status h.machine (.inr rfl) rfl
  have hrun₄ : exec (World.step N L B F) w₃ [.cancelKernel, .wait] =
      some ({ w₃ with loop := .none, th := .joined }.gives .done) := by
    rw [exec, hcancel']
    exact (congrArg (fun o => o.bind some) hwait' :)
  refine ⟨{ w₃ with loop := .none, th := .joined }.gives .done,
    exec_trans hrun₁ (exec_trans hrun₂ (exec_trans hrun₃ hrun₄)), rfl,
    ⟨h.status, h.machine, hcaps₁, h.ready, ?_⟩, object?_joined hb.inputs, rfl, rfl⟩
  show Empty N sys₃.ring e
  rw [hr₃, show w₂.sys.ring = _ from hr₁]
  exact ⟨h.ring.eos, h.ring.idx, h.ring.room⟩

/-- `start` brings both threads to their beginning. -/
theorem Kept.begins (h : Kept N w e c cap i) (hc : w.capture = none) (hl : w.loop = .none) :
    ∃ k w₁, Kept N w₁ e c cap (some k) ∧ Begun w₁ c k ∧
      ∀ behind, w.start ⟨some c, i⟩ behind = behind w₁ ⟨some c, some k⟩ := by
  refine ⟨w.inputs.length, { w with
    machine := some ⟨some c, some w.inputs.length⟩
    inputs := w.inputs ++ [some ⟨c, .live⟩]
    th := .live
    capture := some w.inputs.length
    loop := .entry
    sys := { w.sys with
      input := .top
      phase := .pull
      ring := { w.sys.ring with prod := .idle, cons := .idle } } },
    ⟨h.status, rfl, h.caps, h.ready, h.ring.eos, h.ring.idx, h.ring.room⟩,
    ⟨?_, rfl, rfl, rfl, rfl, rfl, rfl, rfl⟩, fun behind => ?_⟩
  · exact (object?_new ..).trans (if_pos rfl)
  · unfold World.start
    dsimp only
    rw [if_neg (by simp [hl, hc])]

/-! ## One call more -/

theorem Waits.still (h : Waits N rc w s) : w.status = .fine ∧ w.user = .idle := by
  cases s with
  | bare => exact ⟨h.1, h.2.1⟩
  | gone => exact ⟨h.1, h.2.1⟩
  | stuck => exact h.elim
  | opened t e =>
    cases t with
    | none =>
      obtain ⟨hu, c, cap, hk, -⟩ := h
      exact ⟨hk.status, hu⟩
    | both =>
      obtain ⟨hu, c, k, cap, hk, -⟩ := h
      exact ⟨hk.status, hu⟩
    | half =>
      obtain ⟨hu, c, k, cap, hb⟩ := h
      exact ⟨hb.status, hu⟩
    | joined =>
      obtain ⟨hu, c, k, cap, hk, -⟩ := h
      exact ⟨hk.status, hu⟩

/-- The call is made. -/
theorem Waits.calls (h : Waits N rc w s) (c : Call) (tr : List Action) :
    exec (World.step N L B F) w (.call c :: tr) =
      exec (World.step N L B F) (w.call c) tr := by
  have hstep : World.step N L B F w (.call c) = some (w.call c) := by
    simp [World.step, h.still.1, h.still.2]
  rw [exec, hstep]
  rfl

theorem Waits.goes (h : Waits N rc w s) {c : Call} {tr : List Action} {w₁ w' : World κ}
    (hcall : w.call c = w₁) (hrun : exec (World.step N L B F) w₁ tr = some w') :
    exec (World.step N L B F) w (.call c :: tr) = some w' := by
  rw [h.calls, hcall]
  exact hrun

theorem Waits.gives (h : Waits N rc w s) (o : Outcome) : Waits N rc (w.gives o) s := by
  cases s with
  | bare => exact ⟨h.1, rfl, h.2.2⟩
  | gone => exact ⟨h.1, rfl, h.2.2⟩
  | stuck => exact h
  | opened t e =>
    cases t with
    | none =>
      obtain ⟨-, c, cap, hk, hr⟩ := h
      exact ⟨rfl, c, cap, ⟨hk.status, hk.machine, hk.caps, hk.ready, hk.ring⟩, hr⟩
    | both =>
      obtain ⟨-, c, k, cap, hk, hb⟩ := h
      exact ⟨rfl, c, k, cap, ⟨hk.status, hk.machine, hk.caps, hk.ready, hk.ring⟩,
        ⟨hb.inputs, hb.th, hb.capture, hb.loop, hb.input, hb.phase, hb.prod, hb.cons⟩⟩
    | half =>
      obtain ⟨-, c, k, cap, hb⟩ := h
      exact ⟨rfl, c, k, cap, hb.status, hb.machine, hb.caps, hb.inputs, hb.th, hb.capture,
        hb.loop, hb.input⟩
    | joined =>
      obtain ⟨-, c, k, cap, hk, ho⟩ := h
      exact ⟨rfl, c, k, cap, ⟨hk.status, hk.machine, hk.caps, hk.ready, hk.ring⟩,
        ⟨ho.inputs, ho.capture, ho.loop⟩⟩

/-- With no thread at work. -/
theorem Waits.quiet {t : Threads} (h : Waits N rc w (.opened t e)) (ht : t = .none ∨ t = .joined) :
    ∃ c cap i, Kept N w e c cap i ∧ w.capture = none ∧ w.loop = .none ∧
      ∀ k, i = some k → ∃ o, object? w.inputs k = some o := by
  rcases ht with rfl | rfl
  · obtain ⟨-, c, cap, hk, hcap, hl⟩ := h
    exact ⟨c, cap, none, hk, hcap, hl, fun k hk => by cases hk⟩
  · obtain ⟨-, c, k, cap, hk, ho⟩ := h
    exact ⟨c, cap, some k, hk, ho.capture, ho.loop,
      fun j hj => Option.some.inj hj ▸ ⟨_, ho.inputs⟩⟩

/-- `cap_` points to a source. -/
theorem Waits.opened {t : Threads} (h : Waits N rc w (.opened t e)) :
    ∃ c cap i, w.machine = some ⟨some c, i⟩ ∧ object? w.caps c = some cap := by
  cases t with
  | none =>
    obtain ⟨-, c, cap, hk, -⟩ := h
    exact ⟨c, cap, none, hk.machine, hk.caps⟩
  | both =>
    obtain ⟨-, c, k, cap, hk, -⟩ := h
    exact ⟨c, cap, some k, hk.machine, hk.caps⟩
  | half =>
    obtain ⟨-, c, k, cap, hb⟩ := h
    exact ⟨c, cap, some k, hb.machine, hb.caps⟩
  | joined =>
    obtain ⟨-, c, k, cap, hk, -⟩ := h
    exact ⟨c, cap, some k, hk.machine, hk.caps⟩

theorem awaitInput_eq (hi : object? w.inputs k = some ⟨c, .live⟩) (u : User) :
    w.awaitInput ⟨some c, some k⟩ u = { w with user := u } := by
  unfold World.awaitInput
  dsimp only
  rw [hi]
  exact if_pos rfl

theorem calls_join (hm : w.machine = some ⟨some c, some k⟩)
    (hi : object? w.inputs k = some ⟨c, .live⟩) (timed : Bool) :
    w.call (.join timed) = { w with user := .joinInput timed } := by
  have hcall : w.call (.join timed) = w.awaitInput ⟨some c, some k⟩ (.joinInput timed) := by
    unfold World.call
    rw [hm]
  exact hcall.trans (awaitInput_eq hi _)

theorem calls_halt (hm : w.machine = some ⟨some c, some k⟩)
    (hi : object? w.inputs k = some ⟨c, .live⟩) : w.call .halt = { w with user := .stopInput } := by
  have hcall : w.call .halt = w.awaitInput ⟨some c, some k⟩ .stopInput := by
    unfold World.call
    rw [hm]
  exact hcall.trans (awaitInput_eq hi _)

/-- `~Machine` deletes both objects. -/
theorem destroy_eq (hcap : object? w.caps c = some cap)
    (hi : ∀ k, i = some k → ∃ o, object? w.inputs k = some o) : ∃ inputs,
      delete w.inputs i = some inputs ∧
      w.destroy ⟨some c, i⟩ = { w with
        machine := none, caps := w.caps.set c none, inputs }.gives .done := by
  obtain ⟨inputs, hinputs⟩ : ∃ inputs, delete w.inputs i = some inputs := by
    cases i with
    | none => exact ⟨_, rfl⟩
    | some k =>
      obtain ⟨o, ho⟩ := hi k rfl
      exact ⟨_, delete_some ho⟩
  refine ⟨inputs, hinputs, ?_⟩
  unfold World.destroy
  dsimp only
  rw [delete_some hcap, hinputs]

/-- `start`, or the first half of `loop`. -/
theorem Waits.starts {t : Threads} (h : Waits N rc w (.opened t e)) (ht : t = .none ∨ t = .joined) :
    ∃ c cap k w₁, Kept N w₁ e c cap (some k) ∧ Begun w₁ c k ∧ ∃ m, w.machine = some m ∧
      ∀ behind, w.start m behind = behind w₁ ⟨some c, some k⟩ := by
  obtain ⟨c, cap, i, hk, hcap, hl, -⟩ := h.quiet ht
  obtain ⟨k, w₁, hk₁, hb, hstart⟩ := hk.begins hcap hl
  exact ⟨c, cap, k, w₁, hk₁, hb, _, hk.machine, hstart⟩

/-- A run that begins with the call, and makes no other, ends where `P` holds. -/
def Comes (N : RingSize) (L : Layout) (B : κ → Received → Except Decode.Fault κ) (F : κ → κ)
    (w : World κ) (c : Call) (P : World κ → Prop) : Prop :=
  ∃ tr w', exec (World.step N L B F) w (.call c :: tr) = some w' ∧ calls tr = [] ∧ P w'

theorem Waits.comes (h : Waits N rc w s) {c : Call} {P : World κ → Prop} (hp : P (w.call c)) :
    Comes N L B F w c P := ⟨[], w.call c, h.goes rfl rfl, rfl, hp⟩

/-- `add` of a machine without a source. -/
theorem Waits.add (h : Waits N rc w .bare) (kind : Source.Kind) (name : String)
    (errbuf : Option String) : Waits N rc (w.add ⟨none, none⟩ (.new kind name errbuf))
      (if errbuf.isNone = true then .opened .none false else .bare) := by
  obtain ⟨hw, -, hm, hcap, hl, hr⟩ := h
  cases errbuf with
  | some text => exact ⟨hw, rfl, hm, hcap, hl, hr⟩
  | none =>
    refine ⟨rfl, w.caps.length, .new kind name none, ⟨hw, rfl, ?_, rfl, hr⟩, hcap, hl⟩
    exact (object?_new ..).trans (if_pos rfl)

/-- A call of a machine without a source. -/
theorem Waits.call_bare (h : Waits N rc w .bare) {c : Call} (hc : Stage.call .bare c = some s') :
    Waits N rc (w.call c) s' := by
  unfold World.call
  rw [h.2.2.1]
  cases c with
  | addPcapdev devName errbuf => exact Option.some.inj hc ▸ h.add .dev devName errbuf
  | addPcapfile filePath errbuf => exact Option.some.inj hc ▸ h.add .file filePath errbuf
  | dataSourceName => exact Option.some.inj hc ▸ h.gives _
  | start => exact Option.some.inj hc ▸ h.gives _
  | loop => exact Option.some.inj hc ▸ h.gives _
  | join timed => cases hc
  | halt => cases hc
  | destroy =>
    obtain rfl := Option.some.inj hc
    exact ⟨h.1, rfl, rfl⟩

/-- `start` behind the end of the threads. -/
theorem Waits.call_start {t : Threads} (h : Waits N rc w (.opened t e))
    (ht : t = .none ∨ t = .joined) : Waits N rc (w.call .start) (.opened .both e) := by
  obtain ⟨c, cap, k, w₁, hk, hb, m, hm, hstart⟩ := h.starts ht
  have hcall : w.call .start = w₁.gives .done := by
    unfold World.call
    rw [hm]
    exact hstart _
  rw [hcall]
  exact Waits.gives (w := { w₁ with user := .idle }) (s := .opened .both e)
    ⟨rfl, c, k, cap, hk.asks _, hb.asks _⟩ .done

/-- `~Machine` behind the end of the threads. -/
theorem Waits.call_destroy {t : Threads} (h : Waits N rc w (.opened t e))
    (ht : t = .none ∨ t = .joined) : Waits N rc (w.call .destroy) .gone := by
  obtain ⟨c, cap, i, hk, -, -, hi⟩ := h.quiet ht
  obtain ⟨inputs, -, hdestroy⟩ := destroy_eq hk.caps hi
  unfold World.call
  rw [hk.machine]
  dsimp only
  rw [hdestroy]
  exact ⟨hk.status, rfl, rfl⟩

/-- `loop` behind the end of the threads returns. -/
theorem Waits.call_loop {t : Threads} (h : Waits N rc w (.opened t false))
    (ht : t = .none ∨ t = .joined) :
    Comes N L B F w .loop (Waits N rc · (.opened .joined true)) := by
  obtain ⟨c, cap, k, w₁, hk, hb, m, hm, hstart⟩ := h.starts ht
  have hcall : w.call .loop = { w₁ with user := .joinInput false } := by
    have hcall' : w.call .loop = w.start m fun w m => w.awaitInput m (.joinInput false) := by
      unfold World.call
      rw [hm]
    exact hcall'.trans ((hstart _).trans (awaitInput_eq hb.inputs _))
  obtain ⟨w', cap', hrun, hu', hk', ho'⟩ :=
    (hb.asks (.joinInput false)).joins (L := L) (B := B) (F := F) (hk.asks _) rfl
  exact ⟨_, w', h.goes hcall hrun, rfl, hu', c, k, cap', hk', ho'⟩

/-- `join` with a timeout gives up. -/
theorem Waits.call_join_timed (h : Waits N rc w (.opened .both e))
    (hrc : rc = .exit ∨ rc = .error) :
    Comes N L B F w (.join true) (Waits N rc · (.opened .half e)) := by
  have hwaits := h
  obtain ⟨-, c, k, cap, hk, hb⟩ := h
  have hcall := calls_join hk.machine hb.inputs true
  have hb' := hb.asks (.joinInput true)
  have hk' := hk.asks (.joinInput true)
  cases e with
  | true =>
    obtain ⟨w', hrun, hu', hbehind⟩ :=
      hb'.gives_up_again (L := L) (B := B) (F := F) rc hk' rfl
    exact ⟨_, w', hwaits.goes hcall hrun, rfl, hu', c, k, cap, hbehind⟩
  | false =>
    obtain ⟨w', cap', hrun, hu', hbehind⟩ :=
      hb'.gives_up (L := L) (B := B) (F := F) hk' rfl hrc
    exact ⟨_, w', hwaits.goes hcall hrun, rfl, hu', c, k, cap', hbehind⟩

/-- `join` without one returns. -/
theorem Waits.call_join (h : Waits N rc w (.opened .both false)) :
    Comes N L B F w (.join false) (Waits N rc · (.opened .joined true)) := by
  have hwaits := h
  obtain ⟨-, c, k, cap, hk, hb⟩ := h
  have hcall := calls_join hk.machine hb.inputs false
  obtain ⟨w', cap', hrun, hu', hk', ho'⟩ :=
    (hb.asks (.joinInput false)).joins (L := L) (B := B) (F := F) (hk.asks _) rfl
  exact ⟨_, w', hwaits.goes hcall hrun, rfl, hu', c, k, cap', hk', ho'⟩

/-- `halt` returns. -/
theorem Waits.call_halt (h : Waits N rc w (.opened .both e)) :
    Comes N L B F w .halt (Waits N rc · (.opened .joined e)) := by
  have hwaits := h
  obtain ⟨-, c, k, cap, hk, hb⟩ := h
  have hcall := calls_halt hk.machine hb.inputs
  obtain ⟨w', hrun, hu', hk', ho'⟩ :=
    (hb.asks .stopInput).halts (L := L) (B := B) (F := F) (hk.asks _) rfl
  exact ⟨_, w', hwaits.goes hcall hrun, rfl, hu', c, k, cap, hk', ho'⟩

/-- **An allowed call comes to its stage.** -/
theorem waits_call (h : Waits N rc w s) (hrc : rc = .exit ∨ rc = .error) {c : Call}
    (hc : s.call c = some s') (hne : s' ≠ .stuck) : Comes N L B F w c (Waits N rc · s') := by
  cases s with
  | stuck => exact h.elim
  | gone => cases hc
  | bare => exact h.comes (h.call_bare hc)
  | opened t e =>
    obtain ⟨i, cap, j, hm, hcap⟩ := h.opened
    cases c with
    | addPcapdev devName errbuf =>
      refine h.comes ?_
      unfold World.call
      rw [hm]
      exact Option.some.inj hc ▸ h.gives _
    | addPcapfile filePath errbuf =>
      refine h.comes ?_
      unfold World.call
      rw [hm]
      exact Option.some.inj hc ▸ h.gives _
    | dataSourceName =>
      refine h.comes ?_
      unfold World.call
      rw [hm]
      dsimp only
      rw [dataSourceName_opened hcap]
      exact Option.some.inj hc ▸ h.gives _
    | start =>
      obtain ⟨ht, hc⟩ := Option.ite_none_right_eq_some.mp hc
      exact h.comes (Option.some.inj hc ▸ h.call_start ht)
    | loop =>
      obtain ⟨ht, hc⟩ := Option.ite_none_right_eq_some.mp hc
      obtain rfl := Option.some.inj hc
      cases e with
      | true => exact absurd rfl hne
      | false => exact h.call_loop ht
    | join timed =>
      cases timed with
      | true =>
        obtain ⟨rfl, hc⟩ := Option.ite_none_right_eq_some.mp hc
        exact Option.some.inj hc ▸ h.call_join_timed hrc
      | false =>
        rcases join_cases hc with ⟨rfl, rfl⟩ | ⟨-, -, rfl⟩
        · cases e with
          | true => exact absurd rfl hne
          | false => exact h.call_join
        · exact absurd rfl hne
    | halt =>
      obtain ⟨rfl, hc⟩ := Option.ite_none_right_eq_some.mp hc
      exact Option.some.inj hc ▸ h.call_halt
    | destroy =>
      obtain ⟨ht, hc⟩ := Option.ite_none_right_eq_some.mp hc
      exact h.comes (Option.some.inj hc ▸ h.call_destroy ht)

/-- The capture thread takes an action on a deleted `Input`. -/
theorem dangles (hw : w.status = .fine) (hc : w.capture = some k)
    (hi : object? w.inputs k = none) {a : Source.Action} {t : System κ} (ha : ofCapture a = true)
    (ht : System.step N L B w.sys a = some t) (hne : t.input ≠ .returned) :
    exec (World.step N L B F) w [.capture a] = some (w.fail .dangling) := by
  have hsrc : w.source? k = none := by
    unfold World.source?
    rw [hi]
    rfl
  simp [exec, World.step, hw, hc, ha, World.captures, hsrc, ht, hne]

/-- The destructor runs while the capture thread does. -/
theorem destroyed (hw : w.status = .fine) (hm : w.machine = some ⟨some c, some k⟩)
    (hcap : object? w.caps c = some cap) {o : Input} (hi : object? w.inputs k = some o)
    (hc : w.capture = some k) {a : Source.Action} {t : System κ} (ha : ofCapture a = true)
    (ht : System.step N L B w.sys a = some t) (hne : t.input ≠ .returned) : ∃ w₁ w',
      w.call .destroy = w₁ ∧ exec (World.step N L B F) w₁ [.capture a] = some w' ∧
      w'.status = .fault .dangling := by
  obtain ⟨inputs, hdel, hdestroy⟩ := destroy_eq hcap
    (i := some k) (fun j hj => ⟨o, Option.some.inj hj ▸ hi⟩)
  have hcall : w.call .destroy = w.destroy ⟨some c, some k⟩ := by
    unfold World.call
    rw [hm]
  let w₁ : World κ := { w with machine := none, caps := w.caps.set c none, inputs }.gives .done
  have hgone : object? w₁.inputs k = none := (object?_delete hdel k).trans (if_pos rfl)
  exact ⟨w₁, w₁.fail .dangling, hcall.trans hdestroy, dangles (w := w₁) hw hc hgone ha ht hne,
    rfl⟩

/-- The thread of the kernel was joined, and is to be joined again. -/
theorem joins_twice (hw : w.status = .fine) (hm : w.machine = some ⟨some c, some k⟩)
    (hu : (∃ timed, w.user = .joinInput timed) ∨ w.user = .stopInput) (hc : w.capture = none)
    (hth : w.th = .joined) : ∃ w',
      exec (World.step N L B F) w [.wait] = some w' ∧ w'.status = .fault .badThread := by
  have hrun : exec (World.step N L B F) w [.wait] = some (World.fail { w with
      inputs := w.inputs.modify k (Option.map fun o => { o with th := .joined }) } .badThread) := by
    rcases hu with ⟨timed, hu⟩ | hu
    · simp [exec, World.step, World.wait, World.await, World.joinedInput, hw, hm, hu, hc, hth]
    · simp [exec, World.step, World.wait, World.await, World.joinedInput, hw, hm, hu, hc, hth]
  exact ⟨_, hrun, rfl⟩

/-- How the short run closes the channel, so that the call behind it goes wrong. -/
def closing : Call → Result
  | .destroy => .error
  | _ => .exit

/-- There are threads already. -/
theorem start_twice {m : Machine} {i : Nat} (hcap : m.cap = some i)
    (h : w.loop ≠ .none ∨ w.capture.isSome = true) (behind : World κ → Machine → World κ) :
    w.start m behind = w.fail .twoThreads := by
  unfold World.start
  rw [hcap]
  exact if_pos h

/-- A machine without a source has no thread to wait for. -/
theorem refused_bare (h : Waits N rc w .bare) {c : Call} (hc : Stage.call .bare c = none) :
    w.call c = w.fail .nullPointer := by
  unfold World.call
  rw [h.2.2.1]
  cases c with
  | join timed => rfl
  | halt => rfl
  | _ => cases hc

/-- No more has a machine that was not started. -/
theorem refused_none (h : Waits N rc w (.opened .none e)) {c : Call}
    (hc : (Stage.opened .none e).call c = none) : w.call c = w.fail .nullPointer := by
  obtain ⟨-, i, cap, hk, -⟩ := h
  unfold World.call
  rw [hk.machine]
  cases c with
  | join timed => rfl
  | halt => rfl
  | _ => simp [Stage.call] at hc

/-- Threads that were joined are not joined again. -/
theorem refused_joined (h : Waits N rc w (.opened .joined e)) {c : Call}
    (hc : (Stage.opened .joined e).call c = none) : w.call c = w.fail .badThread := by
  obtain ⟨-, i, k, cap, hk, ho⟩ := h
  have hbad : ∀ u, w.awaitInput ⟨some i, some k⟩ u = w.fail .badThread := by
    intro u
    unfold World.awaitInput
    dsimp only
    rw [ho.inputs]
    exact if_neg (by simp)
  unfold World.call
  rw [hk.machine]
  cases c with
  | join timed => exact hbad _
  | halt => exact hbad _
  | _ => simp [Stage.call] at hc

/-- While both threads are at work there is no second start, and no end of the machine. -/
theorem refused_both {c : Call} (h : Waits N rc w (.opened .both e))
    (hc : (Stage.opened .both e).call c = none) :
    Comes N L B F w c fun w' => ∃ f, w'.status = .fault f := by
  have hwaits := h
  obtain ⟨-, i, k, cap, hk, hb⟩ := h
  have hstart : ∀ behind, w.start ⟨some i, some k⟩ behind = w.fail .twoThreads :=
    start_twice rfl (.inl (by simp [hb.loop]))
  cases c with
  | start =>
    refine hwaits.comes ?_
    unfold World.call
    rw [hk.machine]
    exact ⟨_, congrArg World.status (hstart _)⟩
  | loop =>
    refine hwaits.comes ?_
    unfold World.call
    rw [hk.machine]
    exact ⟨_, congrArg World.status (hstart _)⟩
  | destroy =>
    have ht : System.step N L B w.sys .retain = some { w.sys with
        ring := { w.sys.ring with prod := .wait (RingBuffer.next N w.sys.ring.pushIdx) } } := by
      simp [System.step, System.inputs, System.channel, RingBuffer.step, hb.input, hb.prod]
    obtain ⟨w₁, w', hcall, hrun, hst⟩ := destroyed (F := F) hk.status hk.machine hk.caps
      hb.inputs hb.capture rfl ht (by simp [hb.input])
    exact ⟨_, w', hwaits.goes hcall hrun, rfl, _, hst⟩
  | join timed => cases timed <;> simp [Stage.call] at hc
  | _ => simp [Stage.call] at hc

/-- The capture thread ends, and the thread of the kernel is joined again. -/
theorem Behind.ends (hb : Behind N .exit w e c k cap) {u : User}
    (hu : (∃ timed, u = .joinInput timed) ∧ e = false ∨ u = .stopInput) : ∃ tr w' f,
      exec (World.step N L B F) { w with user := u } tr = some w' ∧ calls tr = [] ∧
      w'.status = .fault f := by
  have hworks : Works { w with user := u } c k cap := ⟨hb.status, hb.caps, hb.inputs, hb.capture⟩
  have hin := hb.input
  cases e with
  | false =>
    rw [if_neg (by simp)] at hin
    obtain ⟨sys, caps, hrun, -⟩ := hworks.returns (N := N) (L := L) (B := B) (F := F) hin
    obtain ⟨w', hrun', hst⟩ := joins_twice (N := N) (L := L) (B := B) (F := F)
      (w := { w with user := u, sys, caps, capture := none }) hb.status hb.machine
      (hu.imp_left fun hu => hu.1) rfl hb.th
    exact ⟨_, w', _, exec_trans hrun hrun', rfl, hst⟩
  | true =>
    -- `read` does not return, so that the thread can be cancelled
    rw [if_pos rfl] at hin
    obtain rfl : u = .stopInput := hu.resolve_left fun hu => by cases hu.2
    obtain ⟨sys, caps, d, hrun, hi, -⟩ := hworks.reads (N := N) (L := L) (B := B) (F := F)
      hin.1 hin.2.1 hin.2.2
    have hcancel : exec (World.step N L B F)
        { w with user := .stopInput, sys, caps } [.cancelCapture] =
        some { w with user := .stopInput, sys, caps, capture := none } := by
      have hsleeps : World.captureSleeps { w with user := .stopInput, sys, caps } := .inl hi
      simp [exec, World.step, hb.status, hb.capture] at hsleeps ⊢
      exact hsleeps
    obtain ⟨w', hrun', hst⟩ := joins_twice (N := N) (L := L) (B := B) (F := F)
      (w := { w with user := .stopInput, sys, caps, capture := none }) hb.status hb.machine
      (.inr rfl) rfl hb.th
    exact ⟨_, w', _, exec_trans hrun (exec_trans hcancel hrun'), rfl, hst⟩

/-- The capture thread has another action to take. -/
theorem Behind.acts (hb : Behind N .error w e c k cap) : ∃ a t, ofCapture a = true ∧
    System.step N L B w.sys a = some t ∧ t.input ≠ .returned := by
  have hin := hb.input
  cases e with
  | false =>
    rw [if_neg (by simp)] at hin
    refine ⟨.leave, { w.sys with input := .threw w.sys.cap.error }, rfl, ?_, by simp⟩
    simp [System.step, hin]
  | true =>
    rw [if_pos rfl] at hin
    refine ⟨.retain, { w.sys with ring := { w.sys.ring with
      prod := .wait (RingBuffer.next N w.sys.ring.pushIdx) } }, rfl, ?_, by simp [hin.1]⟩
    simp [System.step, System.inputs, System.channel, RingBuffer.step, hin.1, hin.2.1]

/-- Behind a `join` that gave up, only another end of the threads is asked for. -/
theorem refused_half {c : Call} (h : Waits N (closing c) w (.opened .half e))
    (hc : (Stage.opened .half e).call c = none) :
    Comes N L B F w c fun w' => ∃ f, w'.status = .fault f := by
  have hwaits := h
  obtain ⟨-, i, k, cap, hb⟩ := h
  have hstart : ∀ behind, w.start ⟨some i, some k⟩ behind = w.fail .twoThreads :=
    start_twice rfl (.inr (by simp [hb.capture]))
  cases c with
  | start =>
    refine hwaits.comes ?_
    unfold World.call
    rw [hb.machine]
    exact ⟨_, congrArg World.status (hstart _)⟩
  | loop =>
    refine hwaits.comes ?_
    unfold World.call
    rw [hb.machine]
    exact ⟨_, congrArg World.status (hstart _)⟩
  | join timed =>
    have hcall := calls_join hb.machine hb.inputs timed
    cases timed with
    | false =>
      cases e with
      | true => simp [Stage.call] at hc
      | false =>
        obtain ⟨tr, w', f, hrun, hcalls, hst⟩ :=
          hb.ends (L := L) (B := B) (F := F) (.inl ⟨⟨false, rfl⟩, rfl⟩)
        exact ⟨tr, w', hwaits.goes hcall hrun, hcalls, f, hst⟩
    | true =>
      refine ⟨[.expire], World.fail { w with user := .joinInput true } .badThread,
        hwaits.goes hcall ?_, rfl, .badThread, rfl⟩
      rw [exec, expires (w := { w with user := .joinInput true }) hb.status rfl, World.await,
        if_neg (by simp [hb.th])]
      rfl
  | halt =>
    have hcall := calls_halt hb.machine hb.inputs
    obtain ⟨tr, w', f, hrun, hcalls, hst⟩ := hb.ends (L := L) (B := B) (F := F) (.inr rfl)
    exact ⟨tr, w', hwaits.goes hcall hrun, hcalls, f, hst⟩
  | destroy =>
    obtain ⟨a, t, ha, ht, hne⟩ := hb.acts (L := L) (B := B)
    obtain ⟨w₁, w', hcall, hrun, hst⟩ := destroyed (F := F) hb.status hb.machine
      hb.caps hb.inputs hb.capture ha ht hne
    exact ⟨_, w', hwaits.goes hcall hrun, rfl, _, hst⟩
  | _ => cases hc

/-- **A refused call goes wrong** in the run that comes to it. -/
theorem waits_refused {c : Call} (h : Waits N (closing c) w s) (hc : s.call c = none) :
    Comes N L B F w c fun w' => ∃ f, w'.status = .fault f := by
  have hone : ∀ {f}, w.call c = w.fail f → Comes N L B F w c fun w' => ∃ f, w'.status = .fault f :=
    fun hf => h.comes ⟨_, congrArg World.status hf⟩
  cases s with
  | stuck => cases hc
  | gone =>
    have hdangling : w.call c = w.fail .dangling := by
      unfold World.call
      rw [h.2.2]
    exact hone hdangling
  | bare => exact hone (refused_bare h hc)
  | opened t e =>
    cases t with
    | none => exact hone (refused_none h hc)
    | joined => exact hone (refused_joined h hc)
    | both => exact refused_both h hc
    | half => exact refused_half h hc

/-! ## All orders of calls -/

/-- A new machine has an empty channel. -/
theorem waits_new (h : New w) : Waits N rc w .bare := by
  obtain ⟨k, ⟨mem, hring, -⟩, -, -⟩ := h.sys
  have hempty : Empty N w.sys.ring false := by
    rw [hring]
    refine ⟨rfl, rfl, ?_⟩
    have hlt := N.lt_u32
    have htwo := N.two_le
    show (0 + 1) % 2 ^ 32 % N.size ≠ 0
    rw [Nat.mod_eq_of_lt (by omega), Nat.mod_eq_of_lt (by omega)]
    omega
  rw [h.rest]
  exact ⟨rfl, rfl, rfl, rfl, rfl, hempty⟩

/-- **Every allowed order** has its short run, as long as its calls return. -/
theorem waits_stage {w₀ : World κ} (h₀ : New w₀) (hrc : rc = .exit ∨ rc = .error) (cs : List Call) :
    ∀ {s}, stage cs = some s → s ≠ .stuck → ∃ tr w,
      exec (World.step N L B F) w₀ tr = some w ∧ calls tr = cs ∧ Waits N rc w s := by
  induction cs using List.reverseRecOn with
  | nil =>
    intro s hs _
    obtain rfl := Option.some.inj hs
    exact ⟨[], w₀, rfl, rfl, waits_new h₀⟩
  | append_singleton cs c ih =>
    intro s' hs' hne
    rw [stage_snoc] at hs'
    obtain ⟨s, hs, hc⟩ := Option.bind_eq_some_iff.mp hs'
    have hne' : s ≠ .stuck := by
      rintro rfl
      exact hne (Option.some.inj hc).symm
    obtain ⟨tr, w, hrun, rfl, hw⟩ := ih hs hne'
    obtain ⟨tr', w', hrun', hcalls, hw'⟩ :=
      waits_call (L := L) (B := B) (F := F) hw hrc hc hne
    refine ⟨tr ++ .call c :: tr', w', exec_trans hrun hrun', ?_, hw'⟩
    unfold calls at hcalls ⊢
    rw [List.filterMap_append,
      List.filterMap_cons_some (show Action.call? (.call c) = some c from rfl), hcalls]

/-- The first call that is refused. -/
theorem first_refused (cs : List Call) (h : stage cs = none) : ∃ pre c post s,
    cs = pre ++ c :: post ∧ stage pre = some s ∧ s.call c = none := by
  induction cs using List.reverseRecOn with
  | nil => cases h
  | append_singleton cs c ih =>
    rw [stage_snoc] at h
    cases hs : stage cs with
    | none =>
      obtain ⟨pre, d, post, s, rfl, hpre, hd⟩ := ih hs
      exact ⟨pre, d, post ++ [c], s, by simp, hpre, hd⟩
    | some s =>
      rw [hs] at h
      exact ⟨cs, c, [], s, rfl, hs, h⟩

theorem stage_append {cs cs' : List Call} (h : (stage (cs ++ cs')).isSome = true) :
    (stage cs).isSome = true := by
  unfold stage at h ⊢
  rw [List.foldlM_append] at h
  cases hs : List.foldlM Stage.call Stage.bare cs with
  | none =>
    rw [hs] at h
    cases h
  | some s => rfl

/-- **The contract is exact**: an order of calls is allowed if and only if no run that begins with
these calls comes to anything undefined, whatever the threads, libpcap and the memory do. -/
theorem protocol_exact {w₀ : World κ} (h₀ : New w₀) (cs : List Call) :
    (stage cs).isSome = true ↔ ∀ tr w f, exec (World.step N L B F) w₀ tr = some w →
      calls tr <+: cs → w.status ≠ .fault f := by
  constructor
  · rintro hs tr w f hrun ⟨rest, rfl⟩
    exact never_faults h₀ hrun (stage_append hs) f
  · intro hall
    rw [Option.isSome_iff_ne_none]
    intro hnone
    obtain ⟨pre, c, post, s, rfl, hpre, hc⟩ := first_refused cs hnone
    have hne : s ≠ .stuck := by
      rintro rfl
      cases hc
    have hrc : closing c = .exit ∨ closing c = .error := by
      cases c <;> simp [closing]
    obtain ⟨tr, w, hrun, rfl, hw⟩ :=
      waits_stage (N := N) (L := L) (B := B) (F := F) h₀ hrc pre hpre hne
    obtain ⟨tr', w', hrun', hcalls, f, hf⟩ :=
      waits_refused (L := L) (B := B) (F := F) hw hc
    refine hall (tr ++ .call c :: tr') w' f (exec_trans hrun hrun') ⟨post, ?_⟩ hf
    unfold calls at hcalls ⊢
    rw [List.filterMap_append,
      List.filterMap_cons_some (show Action.call? (.call c) = some c from rfl), hcalls]
    simp

end Waits

/-! ## An order -/

/-- A source, a run of both threads, and the end of the machine. -/
theorem protocol_exact_loop :
    stage [.addPcapfile "a.pcap" none, .loop, .destroy] = some .gone ∧ ∀ tr w f,
      exec (World.step RingBuffer.ringTwo Source.flatLayout Source.sumLengths id) (newMachine 0) tr
        = some w →
      calls tr <+: [.addPcapfile "a.pcap" none, .loop, .destroy] → w.status ≠ .fault f :=
  ⟨by decide, (protocol_exact (new_newMachine 0) _).mp (by decide)⟩

end PacketMachine.Facade
