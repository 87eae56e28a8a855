import PacketMachine.Lib.Objects
import PacketMachine.Setup.Init
import PacketMachine.Source.Pipeline

/-!
# `Machine`: the objects behind the interface and their threads

`Machine` (`packetmachine.hpp`, `packetmachine.cc:125-213`) and `Thread` (`thread.cc`): who makes
and deletes the sources and the `Input` objects, who starts, joins and cancels the two threads, and
what happens in between, as a step function. The threads are those of `Source/Pipeline.lean`, one
pair for each `start`.

* One thread of the user makes the calls, in any order. A call that waits for a thread is in parts:
  it returns when that thread has ended.
* `new` gives the next number, and `delete` leaves `none` there. Using what was deleted, a null
  pointer, and `pthread_join` or `pthread_cancel` of a thread that is not there any more have no
  defined behaviour: they are a `Fault`, with nothing after it. So is a second thread at one end of
  the channel, which is made for one producer and one consumer.
* `pthread_create` succeeds. A cancelled thread ends where it sleeps, waits for libpcap or runs
  callbacks; `running_` stays as it is. An exception out of `thread_main` ends the program.
* `pthread_timedjoin_np` may give up at any time. `Machine::join` does not look at what it returned.
* What `thread_main` of the kernel begins with is a parameter (`fresh`), like its loop body.
* `outcomes` are what the calls have given, and no action reads them.

Results:
* **`captures_owned`**: no object is deleted twice, and every `Capture` is deleted, those that did
  not open in their own call; a second `start` loses the first `Input`.
* **`source_first`**: the source is the first that opened, whatever else was asked for.
-/

namespace PacketMachine.Facade

open PacketMachine.Lib
open PacketMachine.RingBuffer (RingSize)
open PacketMachine.Setup (Exception)
open PacketMachine.Source (Capture Frame Layout Packet Received Result System)

/-! ## The objects -/

/-- What has no defined behaviour. -/
inductive Fault where
  | nullPointer
  | dangling
  | doubleDelete
  /-- `pthread_join` or `pthread_cancel` of a thread that was never made, or was joined. -/
  | badThread
  /-- A second producer or consumer in one channel. -/
  | twoThreads
  deriving DecidableEq, Repr

/-- `Thread::th_`, by what may be done with it. -/
inductive Handle where
  | unset
  | live
  | joined
  deriving DecidableEq, Repr

/-- The class `Input`. -/
structure Input where
  cap : Nat
  th : Handle
  deriving DecidableEq, Repr

/-- The members of `Machine` but for `kernel_`, which is never replaced. -/
structure Machine where
  cap : Option Nat := none
  input : Option Nat := none
  deriving DecidableEq, Repr

/-- What a call gives. -/
inductive Outcome where
  | done
  | name (text : String)
  | threw (e : Exception)
  deriving DecidableEq, Repr

/-- The program goes on, or has come to its end. -/
inductive Status where
  | fine
  | fault (f : Fault)
  /-- `std::terminate`, with the text of the exception. -/
  | terminated (text : String)
  deriving DecidableEq, Repr

/-- Where the user's thread waits. -/
inductive User where
  | idle
  /-- In `input_->join()`. -/
  | joinInput (timed : Bool)
  /-- In `kernel_->join()`. -/
  | joinKernel
  /-- In `input_->stop()`. -/
  | stopInput
  /-- In `kernel_->stop()`. -/
  | stopKernel
  deriving DecidableEq, Repr

/-- The thread of the kernel. In the loop its position is that of the `System`. -/
inductive Loop where
  /-- None is at work. -/
  | none
  /-- At the start of `thread_main`. -/
  | entry
  | loop
  deriving DecidableEq, Repr

/-- A machine in its program. -/
structure World (κ : Type) where
  machine : Option Machine := some {}
  caps : List (Option Capture) := []
  inputs : List (Option Input) := []
  /-- `th_` of the kernel. -/
  th : Handle := .unset
  running : Bool := false
  /-- The `Input` object whose thread is at work. -/
  capture : Option Nat := none
  loop : Loop := .none
  /-- The channel, the memory and both positions. `cap` is the source as last read. -/
  sys : System κ
  user : User := .idle
  status : Status := .fine
  outcomes : List Outcome := []

/-- The calls. An `add` comes with what libpcap says: `none`, or the text in `errbuf`. -/
inductive Call where
  | addPcapdev (devName : String) (opened : Option String)
  | addPcapfile (filePath : String) (opened : Option String)
  | dataSourceName
  | start
  | loop
  | join (timed : Bool)
  | halt
  /-- `~Machine`. -/
  | destroy
  deriving DecidableEq, Repr

/-- What can happen next. -/
inductive Action where
  | call (c : Call)
  /-- The thread that the user waits for has ended. -/
  | wait
  /-- `pthread_timedjoin_np` gives up. -/
  | expire
  /-- An action of `Input::thread_main`. -/
  | capture (a : Source.Action)
  | cancelCapture
  /-- `running_ = true`, and what else comes before the loop. -/
  | enter
  /-- An action of the loop in `Kernel::thread_main`. -/
  | kernel (a : Source.Action)
  /-- `pull` has returned `nullptr`: `running_ = false`. -/
  | exit
  | cancelKernel

/-- Which of the two threads takes the action. -/
def ofCapture : Source.Action → Bool
  | .retain | .testFull | .take | .read _ _ | .push | .put | .commit | .close | .leave => true
  | .pull | .testEmpty | .testClosed | .slot | .give | .work => false

/-! ## The calls -/

section Calls

variable {κ : Type}

def World.fail (w : World κ) (f : Fault) : World κ := { w with status := .fault f }

/-- The call returns or throws. -/
def World.gives (w : World κ) (o : Outcome) : World κ :=
  { w with user := .idle, outcomes := w.outcomes ++ [o] }

/-- `add_pcapdev` and `add_pcapfile`, with the object that they make. -/
def World.add (w : World κ) (m : Machine) (cap : Capture) : World κ :=
  if m.cap.isSome then w.gives (.threw ⟨.configError, "data source has been configured"⟩)
  else
    let i := w.caps.length
    if ¬ cap.ready then
      -- `new` and `delete`
      { w with caps := w.caps ++ [none] }.gives (.threw ⟨.configError, cap.error⟩)
    else { w with
      caps := w.caps ++ [some cap]
      machine := some { m with cap := some i } }.gives .done

/-- `data_source_name`. -/
def World.dataSourceName (w : World κ) (m : Machine) : World κ :=
  match m.cap with
  | none => w.gives (.name "")
  | some i => match object? w.caps i with
    | some cap => w.gives (.name cap.srcName)
    | none => w.fail .dangling

/-- The first line of `pthread_join` and `pthread_cancel`. -/
def World.await (w : World κ) (th : Handle) (u : User) : World κ :=
  if th = .live then { w with user := u } else w.fail .badThread

/-- `input_->join()` and `input_->stop()`. -/
def World.awaitInput (w : World κ) (m : Machine) (u : User) : World κ :=
  match m.input with
  | none => w.fail .nullPointer
  | some i => match object? w.inputs i with
    | some o => w.await o.th u
    | none => w.fail .dangling

/-- `start`, with what comes behind it. A new thread is nowhere in the channel. -/
def World.start (w : World κ) (m : Machine) (behind : World κ → Machine → World κ) : World κ :=
  match m.cap with
  | none => w.gives (.threw ⟨.configError, "no input source is available"⟩)
  | some cap =>
    if w.loop ≠ .none ∨ w.capture.isSome then w.fail .twoThreads
    else
      let m := { m with input := some w.inputs.length }
      behind { w with
        machine := some m
        inputs := w.inputs ++ [some ⟨cap, .live⟩]
        th := .live
        capture := some w.inputs.length
        loop := .entry
        sys := { w.sys with
          input := .top
          phase := .pull
          ring := { w.sys.ring with prod := .idle, cons := .idle } } } m

/-- `~Machine`. -/
def World.destroy (w : World κ) (m : Machine) : World κ :=
  match delete w.caps m.cap, delete w.inputs m.input with
  | some caps, some inputs => { w with machine := none, caps, inputs }.gives .done
  | _, _ => w.fail .doubleDelete

/-- A call. -/
def World.call (w : World κ) (c : Call) : World κ :=
  match w.machine with
  | none => w.fail .dangling
  | some m => match c with
    | .addPcapdev devName opened => w.add m (Source.PcapDev.new devName opened)
    | .addPcapfile filePath opened => w.add m (Source.PcapFile.new filePath opened)
    | .dataSourceName => w.dataSourceName m
    | .start => w.start m fun w _ => w.gives .done
    | .loop => w.start m fun w m => w.awaitInput m (.joinInput false)
    | .join timed => w.awaitInput m (.joinInput timed)
    | .halt => w.awaitInput m .stopInput
    | .destroy => w.destroy m

/-- The thread of `input_` has been joined. -/
def World.joinedInput (w : World κ) (m : Machine) : World κ :=
  match m.input with
  | none => w
  | some i => { w with
      inputs := w.inputs.modify i (Option.map fun o => { o with th := .joined }) }

/-- The thread that the user waits for has ended. -/
def World.wait (w : World κ) : Option (World κ) :=
  match w.machine, w.user with
  | some m, .joinInput _ =>
    if w.capture.isNone then some ((w.joinedInput m).await w.th .joinKernel) else none
  | some m, .stopInput =>
    if w.capture.isNone then some ((w.joinedInput m).await w.th .stopKernel) else none
  | some _, .joinKernel | some _, .stopKernel =>
    if w.loop = .none then some ({ w with th := .joined }.gives .done) else none
  | _, _ => none

end Calls

/-! ## The threads -/

section Step

variable {κ : Type}

/-- The source of an `Input` object. -/
def World.source? (w : World κ) (i : Nat) : Option (Nat × Capture) :=
  (object? w.inputs i).bind fun o => (object? w.caps o.cap).map fun cap => (o.cap, cap)

/-- The capture thread has come out of `thread_main`. -/
def World.left (w : World κ) : World κ :=
  match w.sys.input with
  | .returned => { w with capture := none }
  | .threw text => { w with status := .terminated text }
  | _ => w

/-- An action of the capture thread. Only `break` uses none of its objects. -/
def World.captures (N : RingSize) (lay : Layout) (body : κ → Received → Except Decode.Fault κ)
    (w : World κ) (i : Nat) (a : Source.Action) : Option (World κ) :=
  match w.source? i with
  | some (c, cap) => (System.step N lay body { w.sys with cap } a).map fun s =>
      { w with sys := s, caps := w.caps.set c (some s.cap) }.left
  | none => (System.step N lay body w.sys a).map fun s =>
      if s.input = .returned then { w with sys := s }.left else w.fail .dangling

/-- Where a cancelled capture thread ends: it sleeps at a full ring, or waits for libpcap. -/
def World.captureSleeps (w : World κ) : Prop :=
  w.sys.input = .read ∨ w.sys.input = .top ∧ ∃ n, w.sys.ring.prod = .wait n

/-- Where a cancelled kernel thread ends: it sleeps at an empty ring, or runs callbacks. -/
def World.kernelSleeps (w : World κ) : Prop :=
  (∃ d, w.sys.phase = .work d) ∨ w.sys.phase = .pull ∧ ∃ n, w.sys.ring.cons = .test n

instance (w : World κ) : Decidable w.captureSleeps :=
  decidable_of_iff (w.sys.input = .read ∨ w.sys.input = .top ∧
      (match w.sys.ring.prod with | .wait _ => true | _ => false) = true) <| by
    unfold World.captureSleeps
    cases w.sys.ring.prod <;> simp

instance (w : World κ) : Decidable w.kernelSleeps :=
  decidable_of_iff (w.sys.phase ≠ .pull ∨ w.sys.phase = .pull ∧
      (match w.sys.ring.cons with | .test _ => true | _ => false) = true) <| by
    unfold World.kernelSleeps
    cases w.sys.phase <;> cases w.sys.ring.cons <;> simp

/-- One action. -/
def World.step (N : RingSize) (lay : Layout) (body : κ → Received → Except Decode.Fault κ)
    (fresh : κ → κ) (w : World κ) (a : Action) : Option (World κ) :=
  if w.status ≠ .fine then none
  else match a with
    | .call c => if w.user = .idle then some (w.call c) else none
    | .wait => w.wait
    | .expire => if w.user = .joinInput true then some (w.await w.th .joinKernel) else none
    | .capture a => match w.capture with
      | some i => if ofCapture a then w.captures N lay body i a else none
      | none => none
    | .cancelCapture =>
      if w.user = .stopInput ∧ w.capture.isSome ∧ w.captureSleeps then
        some { w with capture := none }
      else none
    | .enter =>
      if w.loop = .entry then
        if w.machine.isNone then some (w.fail .dangling)
        else some { w with
          loop := .loop, running := true, sys := { w.sys with kernel := fresh w.sys.kernel } }
      else none
    | .kernel a =>
      if w.loop = .loop ∧ ofCapture a = false then
        (System.step N lay body w.sys a).map fun s =>
          if w.machine.isNone then w.fail .dangling else { w with sys := s }
      else none
    | .exit =>
      if w.loop = .loop ∧ w.sys.ring.cons = .done then
        if w.machine.isNone then some (w.fail .dangling)
        else some { w with loop := .none, running := false }
      else none
    | .cancelKernel =>
      if w.user = .stopKernel ∧ w.loop = .loop ∧ w.kernelSleeps then
        some { w with loop := .none }
      else none

end Step

/-! ## What the capture thread does to its source -/

/-- What names a source. -/
def kindName (cap : Capture) : Source.Kind × String := (cap.kind, cap.srcName)

/-- The position of the capture thread and its source, before and after one of its actions. -/
inductive Moves : Source.Input → Capture → Source.Input → Capture → Prop where
  | top (cap : Capture) : Moves .top cap .top cap
  | take (cap : Capture) : Moves .top cap .read cap
  /-- `read` has returned `OK` or `NONE`. -/
  | read {cap : Capture} {rc : Result} (hready : cap.ready = true) (hrc : rc = .ok ∨ rc = .none) :
      Moves .read cap (.after rc) cap
  /-- `read` has returned `EXIT`. -/
  | eof {cap : Capture} (hready : cap.ready = true) :
      Moves .read cap (.close .exit) (cap.setReady false)
  /-- `read` has returned `ERROR`. -/
  | error {cap cap' : Capture} (hname : kindName cap' = kindName cap)
      (hready : cap.ready = false → cap'.ready = false ∧ cap'.error = "pcap is not ready") :
      Moves .read cap (.close .error) cap'
  | push (cap : Capture) : Moves .push cap .push cap
  | commit (cap : Capture) : Moves .push cap .top cap
  | close (rc : Result) (cap : Capture) : Moves (.close rc) cap (.closed rc) cap
  | throw (cap : Capture) : Moves (.closed .error) cap (.threw cap.error) cap
  | leave {rc : Result} (hrc : rc ≠ .error) (cap : Capture) : Moves (.closed rc) cap .returned cap

theorem Moves.kindName {i j : Source.Input} {cap cap' : Capture} (h : Moves i cap j cap') :
    kindName cap' = kindName cap := by
  cases h with
  | error hname hready => exact hname
  | _ => rfl

section Moves

variable {κ : Type} {N : RingSize} {lay : Layout} {body : κ → Received → Except Decode.Fault κ}
  {s s' : System κ}

/-- What one `read` leads to. -/
theorem read_moves {cap cap' : Capture} {h h' : Heap} {pkt pkt' : Packet} {next : Source.Next}
    {found : Bool} {rc : Result} (hr : cap.read h pkt next found = .ok (cap', h', pkt', rc)) :
    Moves .read cap (.after rc) cap' := by
  rw [Source.Capture.read_eq] at hr
  unfold Source.Capture.pcapRead at hr
  by_cases hready : cap.ready = true
  · rw [if_neg (not_not.mpr hready)] at hr
    cases next with
    | packet f =>
      obtain ⟨⟨h₁, pkt₁, ok⟩, -, hr⟩ := returns_of_bind hr
      cases ok with
      | true =>
        obtain ⟨rfl, -, -, rfl⟩ : cap = cap' ∧ _ ∧ _ ∧ _ := by simpa using Except.ok.inj hr
        exact .read hready (.inl rfl)
      | false =>
        obtain ⟨rfl, -, -, rfl⟩ : _ = cap' ∧ _ ∧ _ ∧ _ := by simpa using Except.ok.inj hr
        exact .error rfl fun hno => absurd hready (by simp [hno])
    | timeout =>
      obtain ⟨rfl, -, -, rfl⟩ : cap = cap' ∧ _ ∧ _ ∧ _ := by simpa using Except.ok.inj hr
      exact .read hready (.inr rfl)
    | failed text =>
      obtain ⟨rfl, -, -, rfl⟩ : _ = cap' ∧ _ ∧ _ ∧ _ := by simpa using Except.ok.inj hr
      exact .error rfl fun hno => absurd hready (by simp [hno])
    | eof =>
      obtain ⟨rfl, -, -, rfl⟩ : _ = cap' ∧ _ ∧ _ ∧ _ := by simpa using Except.ok.inj hr
      exact .eof hready
    | other rc => cases hr
  · rw [if_pos hready] at hr
    obtain ⟨rfl, -, -, rfl⟩ : _ = cap' ∧ _ ∧ _ ∧ _ := by simpa using Except.ok.inj hr
    exact .error rfl fun hno => ⟨hno, rfl⟩

/-- **What an action of the capture thread can do** to its position and its source. -/
theorem capture_moves {a : Source.Action} (ha : ofCapture a = true)
    (hs : System.step N lay body s a = some s') : Moves s.input s.cap s'.input s'.cap := by
  have hin : ∀ {i j b}, s.inputs N i j b = some s' → Moves i s.cap j s.cap →
      Moves s.input s.cap s'.input s'.cap := by
    intro i j b h hm
    obtain ⟨rfl, r, -, rfl⟩ := Source.inputs_eq h
    exact hm
  cases a with
  | retain => exact hin hs (.top _)
  | testFull => exact hin hs (.top _)
  | take => exact hin hs (.take _)
  | read next found =>
    simp only [System.step] at hs
    split at hs
    · rename_i d hi hd
      split at hs
      · rename_i hr
        obtain ⟨r, -, rfl⟩ := Option.map_eq_some_iff.mp hs
        rw [hi]
        exact read_moves hr
      · cases hs
    · cases hs
  | push => exact hin hs (.push _)
  | put => exact hin hs (.push _)
  | commit => exact hin hs (.commit _)
  | close =>
    simp only [System.step] at hs
    split at hs
    · exact hin hs (.close _ _)
    · cases hs
  | leave =>
    simp only [System.step] at hs
    split at hs
    · rename_i hi
      obtain rfl := Option.some.inj hs
      rw [hi]
      exact .throw _
    · rename_i rc hne hi
      obtain rfl := Option.some.inj hs
      rw [hi]
      exact .leave (fun h => hne (h ▸ rfl)) _
    · cases hs
  | _ => cases ha

/-- An action of the kernel thread leaves the capture thread where it is. -/
theorem kernel_keeps {a : Source.Action} (ha : ofCapture a = false)
    (hs : System.step N lay body s a = some s') : s'.input = s.input ∧ s'.cap = s.cap := by
  have hpull : ∀ {b t}, s.pulls N b = some t → t.input = s.input ∧ t.cap = s.cap := by
    intro b t h
    obtain ⟨-, r, -, rfl⟩ := Source.pulls_eq h
    exact ⟨rfl, rfl⟩
  cases a with
  | pull => exact hpull hs
  | testEmpty => exact hpull hs
  | testClosed => exact hpull hs
  | slot => exact hpull hs
  | give =>
    simp only [System.step] at hs
    split at hs
    · obtain ⟨t, ht, rfl⟩ := Option.map_eq_some_iff.mp hs
      exact (hpull ht :)
    · cases hs
  | work =>
    simp only [System.step] at hs
    split at hs
    · split at hs
      · split at hs
        · obtain rfl := Option.some.inj hs
          exact ⟨rfl, rfl⟩
        · cases hs
      · cases hs
    · cases hs
  | _ => cases ha

end Moves

/-! ## Who owns what -/

/-- The call is an `add` for a source that opens. -/
def Call.opens : Call → Option (Source.Kind × String)
  | .addPcapdev devName opened => if opened.isNone then some (.dev, devName) else none
  | .addPcapfile filePath opened => if opened.isNone then some (.file, filePath) else none
  | _ => none

/-- The first source that opens. -/
def source (cs : List Call) : Option (Source.Kind × String) := (cs.filterMap Call.opens).head?

/-- The call that an action begins. -/
def Action.call? : Action → Option Call
  | .call c => some c
  | _ => none

/-- The calls of a run. -/
def calls (tr : List Action) : List Call := tr.filterMap Action.call?

theorem calls_snoc (tr : List Action) (a : Action) :
    calls (tr ++ [a]) = calls tr ++ a.call?.toList := by
  unfold calls
  rw [List.filterMap_append]
  cases a <;> rfl

theorem source_snoc (cs : List Call) (c : Call) :
    source (cs ++ [c]) = (source cs).or c.opens := by
  unfold source
  rw [List.filterMap_append, List.head?_append]
  cases h : c.opens <;> simp [h]

/-- Every object but `cap_`, `input_` and the `Input`s that were replaced has been deleted. -/
structure Owned {κ : Type} (cs : List Call) (w : World κ) : Prop where
  status : w.status ≠ .fault .doubleDelete
  caps : ∀ i, (object? w.caps i).map kindName =
    if w.machine.bind Machine.cap = some i then source cs else none
  cap : ∀ m, w.machine = some m → (m.cap = none ↔ source cs = none)
  inputs : ∀ i, (object? w.inputs i).isSome = true ↔
    i < w.inputs.length ∧ (w.machine.isSome = true ∨ i + 1 < w.inputs.length)
  input : ∀ m, w.machine = some m →
    m.input = if w.inputs.length = 0 then none else some (w.inputs.length - 1)

/-- No object is made or deleted. -/
structure Same {κ : Type} (w w' : World κ) : Prop where
  status : w'.status ≠ .fault .doubleDelete
  machine : w'.machine = w.machine
  caps : ∀ i, (object? w'.caps i).map kindName = (object? w.caps i).map kindName
  inputs : ∀ i, (object? w'.inputs i).isSome = (object? w.inputs i).isSome
  length : w'.inputs.length = w.inputs.length

section Owned

variable {κ : Type} {N : RingSize} {lay : Layout} {body : κ → Received → Except Decode.Fault κ}
  {fresh : κ → κ} {w w' : World κ} {cs cs' : List Call} {m : Machine}

theorem Owned.congr (h : Owned cs w) (hcs : source cs' = source cs) : Owned cs' w :=
  ⟨h.status, hcs ▸ h.caps, hcs ▸ h.cap, h.inputs, h.input⟩

theorem Owned.same (h : Owned cs w) (hs : Same w w') (hcs : source cs' = source cs) :
    Owned cs' w' := by
  refine ⟨hs.status, fun i => ?_, fun m hm => ?_, fun i => ?_, fun m hm => ?_⟩
  · rw [hs.caps, hs.machine, hcs]
    exact h.caps i
  · rw [hcs]
    exact h.cap m (hs.machine ▸ hm)
  · rw [hs.inputs, hs.machine, hs.length]
    exact h.inputs i
  · rw [hs.length]
    exact h.input m (hs.machine ▸ hm)

theorem Same.trans {w'' : World κ} (h : Same w w') (h' : Same w' w'') : Same w w'' :=
  ⟨h'.status, h'.machine.trans h.machine, fun i => (h'.caps i).trans (h.caps i),
    fun i => (h'.inputs i).trans (h.inputs i), h'.length.trans h.length⟩

/-- The program has not failed yet. -/
theorem Same.refl (hw : w.status = .fine) : Same w w :=
  ⟨by simp [hw], rfl, fun _ => rfl, fun _ => rfl, rfl⟩

theorem same_fail (w : World κ) {f : Fault} (hf : f ≠ .doubleDelete) : Same w (w.fail f) :=
  ⟨by simpa [World.fail] using hf, rfl, fun _ => rfl, fun _ => rfl, rfl⟩

theorem same_gives (hw : w.status = .fine) (o : Outcome) : Same w (w.gives o) :=
  ⟨by simp [World.gives, hw], rfl, fun _ => rfl, fun _ => rfl, rfl⟩

theorem same_await (hw : w.status = .fine) (th : Handle) (u : User) : Same w (w.await th u) := by
  unfold World.await
  split
  · exact ⟨by simp [hw], rfl, fun _ => rfl, fun _ => rfl, rfl⟩
  · exact same_fail w (by simp)

theorem same_awaitInput (hw : w.status = .fine) (m : Machine) (u : User) :
    Same w (w.awaitInput m u) := by
  unfold World.awaitInput
  split
  · exact same_fail w (by simp)
  · split
    · exact same_await hw _ u
    · exact same_fail w (by simp)

theorem same_joinedInput (hw : w.status = .fine) (m : Machine) : Same w (w.joinedInput m) := by
  unfold World.joinedInput
  split
  · exact .refl hw
  · refine ⟨by simp [hw], rfl, fun _ => rfl, fun j => ?_, List.length_modify ..⟩
    simp only [object?_modify]
    split <;> simp

theorem status_joinedInput (w : World κ) (m : Machine) : (w.joinedInput m).status = w.status := by
  unfold World.joinedInput
  split <;> rfl

theorem same_left (hw : w.status = .fine) : Same w w.left := by
  unfold World.left
  split
  · exact ⟨by simp [hw], rfl, fun _ => rfl, fun _ => rfl, rfl⟩
  · exact ⟨by simp, rfl, fun _ => rfl, fun _ => rfl, rfl⟩
  · exact .refl hw

theorem same_captures (hw : w.status = .fine) {i : Nat} {a : Source.Action}
    (ha : ofCapture a = true) (h : w.captures N lay body i a = some w') : Same w w' := by
  unfold World.captures at h
  split at h
  · rename_i c cap hsrc
    obtain ⟨s, hs, rfl⟩ := Option.map_eq_some_iff.mp h
    obtain ⟨o, -, hcap⟩ := Option.bind_eq_some_iff.mp hsrc
    obtain ⟨cap', hcap', he⟩ := Option.map_eq_some_iff.mp hcap
    obtain ⟨rfl, rfl⟩ := Prod.mk.inj he
    refine Same.trans ?_ (same_left hw)
    refine ⟨by simp [hw], rfl, fun j => ?_, fun _ => rfl, rfl⟩
    rw [object?_put hcap']
    split
    · rename_i hj
      rw [hj, hcap']
      exact congrArg some (capture_moves ha hs).kindName
    · rfl
  · obtain ⟨s, -, rfl⟩ := Option.map_eq_some_iff.mp h
    split
    · have hsame : Same w { w with sys := s } :=
        ⟨by simp [hw], rfl, fun _ => rfl, fun _ => rfl, rfl⟩
      exact hsame.trans (same_left hw)
    · exact same_fail w (by simp)

/-- **Outside the calls** no object is made or deleted. -/
theorem step_same {a : Action} (ha : a.call? = none)
    (h : World.step N lay body fresh w a = some w') : Same w w' := by
  unfold World.step at h
  split at h
  · cases h
  · rename_i hw
    rw [not_not] at hw
    have hjoin : ∀ m u, Same w ((w.joinedInput m).await w.th u) := fun m u =>
      (same_joinedInput hw m).trans (same_await ((status_joinedInput w m).trans hw) _ u)
    cases a with
    | call c => cases ha
    | wait =>
      simp only [World.wait] at h
      split at h
      · obtain ⟨-, h⟩ := Option.ite_none_right_eq_some.mp h
        exact Option.some.inj h ▸ hjoin _ _
      · obtain ⟨-, h⟩ := Option.ite_none_right_eq_some.mp h
        exact Option.some.inj h ▸ hjoin _ _
      · obtain ⟨-, h⟩ := Option.ite_none_right_eq_some.mp h
        obtain rfl := Option.some.inj h
        exact ⟨by simp [World.gives, hw], rfl, fun _ => rfl, fun _ => rfl, rfl⟩
      · obtain ⟨-, h⟩ := Option.ite_none_right_eq_some.mp h
        obtain rfl := Option.some.inj h
        exact ⟨by simp [World.gives, hw], rfl, fun _ => rfl, fun _ => rfl, rfl⟩
      · cases h
    | expire =>
      obtain ⟨-, h⟩ := Option.ite_none_right_eq_some.mp h
      exact Option.some.inj h ▸ same_await hw _ _
    | capture a =>
      dsimp only at h
      split at h
      · obtain ⟨ha, h⟩ := Option.ite_none_right_eq_some.mp h
        exact same_captures hw ha h
      · cases h
    | cancelCapture =>
      obtain ⟨-, h⟩ := Option.ite_none_right_eq_some.mp h
      obtain rfl := Option.some.inj h
      exact ⟨by simp [hw], rfl, fun _ => rfl, fun _ => rfl, rfl⟩
    | enter =>
      obtain ⟨-, h⟩ := Option.ite_none_right_eq_some.mp h
      split at h
      · obtain rfl := Option.some.inj h
        exact same_fail w (by simp)
      · obtain rfl := Option.some.inj h
        exact ⟨by simp [hw], rfl, fun _ => rfl, fun _ => rfl, rfl⟩
    | kernel a =>
      obtain ⟨-, h⟩ := Option.ite_none_right_eq_some.mp h
      obtain ⟨s, -, rfl⟩ := Option.map_eq_some_iff.mp h
      split
      · exact same_fail w (by simp)
      · exact ⟨by simp [hw], rfl, fun _ => rfl, fun _ => rfl, rfl⟩
    | exit =>
      obtain ⟨-, h⟩ := Option.ite_none_right_eq_some.mp h
      split at h
      · obtain rfl := Option.some.inj h
        exact same_fail w (by simp)
      · obtain rfl := Option.some.inj h
        exact ⟨by simp [hw], rfl, fun _ => rfl, fun _ => rfl, rfl⟩
    | cancelKernel =>
      obtain ⟨-, h⟩ := Option.ite_none_right_eq_some.mp h
      obtain rfl := Option.some.inj h
      exact ⟨by simp [hw], rfl, fun _ => rfl, fun _ => rfl, rfl⟩

/-- The calls that make no source and no thread. -/
theorem Owned.still (h : Owned cs w) (hs : Same w w') {c : Call} (hc : c.opens = none) :
    Owned (cs ++ [c]) w' :=
  h.same hs (by rw [source_snoc, hc, Option.or_none])

/-- An `add`. -/
theorem Owned.add (h : Owned cs w) (hw : w.status = .fine) (hm : w.machine = some m)
    (kind : Source.Kind) (name : String) (opened : Option String) {c : Call}
    (hc : c.opens = if opened.isNone then some (kind, name) else none) :
    Owned (cs ++ [c]) (w.add m (.new kind name opened)) := by
  have hbind : w.machine.bind Machine.cap = m.cap := by rw [hm]; rfl
  have hcap := h.cap m hm
  unfold World.add
  cases hcm : m.cap with
  | some i =>
    rw [if_pos (Option.isSome_some : (some i).isSome = true)]
    refine h.same (same_gives hw _) ?_
    have hsrc : source cs ≠ none := fun hno => by simp [hcap.mpr hno] at hcm
    obtain ⟨x, hx⟩ := Option.ne_none_iff_exists'.mp hsrc
    rw [source_snoc, hx, Option.some_or]
  | none =>
    rw [if_neg (by simp)]
    have hsrc := hcap.mp hcm
    have hnone : ∀ i, (object? w.caps i).map kindName = none := fun i => by
      rw [h.caps i, hsrc, ite_self]
    cases opened with
    | some text =>
      dsimp only
      rw [if_pos (by simp [Capture.new])]
      refine h.same ⟨by simp [World.gives, hw], rfl, fun i => ?_, fun _ => rfl, rfl⟩
        (by rw [source_snoc, hc]; simp)
      simp only [World.gives, object?_new]
      split
      · rename_i hi
        rw [hi, object?_length]
      · rfl
    | none =>
      dsimp only
      rw [if_neg (by simp [Capture.new])]
      have hsnoc : source (cs ++ [c]) = some (kind, name) := by
        rw [source_snoc, hsrc, hc]
        rfl
      refine ⟨by simp [World.gives, hw], fun i => ?_, ?_, ?_, ?_⟩
      · simp only [World.gives, object?_new, Option.bind_some, hsnoc]
        by_cases hi : i = w.caps.length
        · rw [if_pos hi, if_pos (by rw [hi])]
          rfl
        · rw [if_neg hi, if_neg (fun he => hi (Option.some.inj he).symm)]
          exact hnone i
      · rintro m' hm'
        obtain rfl := Option.some.inj hm'
        simp [hsnoc]
      · intro i
        have := h.inputs i
        simpa [World.gives, hm] using this
      · rintro m' hm'
        obtain rfl := Option.some.inj hm'
        exact h.input m hm

/-- A new `Input` takes the place of the last one. -/
theorem Owned.start (h : Owned cs w) (hw : w.status = .fine) (hm : w.machine = some m)
    {behind : World κ → Machine → World κ}
    (hb : ∀ w' m', w'.status = .fine → Same w' (behind w' m')) :
    Owned cs (w.start m behind) := by
  unfold World.start
  split
  · exact h.same (same_gives hw _) rfl
  · rename_i cap hcap
    split
    · exact h.same (same_fail w (by simp)) rfl
    · refine Owned.same ?_ (hb _ _ hw) rfl
      refine ⟨by simp [hw], fun i => ?_, ?_, fun i => ?_, ?_⟩
      · have := h.caps i
        simpa [hm] using this
      · rintro m' hm'
        obtain rfl := Option.some.inj hm'
        exact h.cap m hm
      · have hi := h.inputs i
        rw [hm] at hi
        simp only [object?_new, List.length_append, List.length_singleton, Option.isSome_some,
          true_or, and_true] at hi ⊢
        split
        · simp only [Option.isSome_some, true_iff]
          omega
        · rw [hi]
          omega
      · rintro m' hm'
        obtain rfl := Option.some.inj hm'
        simp

/-- `~Machine`. -/
theorem Owned.destroy (h : Owned cs w) (hw : w.status = .fine) (hm : w.machine = some m) :
    Owned cs (w.destroy m) := by
  have hbind : w.machine.bind Machine.cap = m.cap := by rw [hm]; rfl
  have hcaps : ∃ caps, delete w.caps m.cap = some caps ∧ ∀ i, object? caps i = none := by
    cases hcm : m.cap with
    | none =>
      refine ⟨w.caps, rfl, fun i => ?_⟩
      have hi := h.caps i
      rw [hbind, hcm, if_neg (by simp)] at hi
      simpa using hi
    | some k =>
      have hk := h.caps k
      rw [hbind, hcm, if_pos rfl] at hk
      have hsrc : source cs ≠ none := fun hno => by simp [(h.cap m hm).mpr hno] at hcm
      obtain ⟨x, hx⟩ := Option.ne_none_iff_exists'.mp hsrc
      rw [hx, Option.map_eq_some_iff] at hk
      obtain ⟨c, hc, -⟩ := hk
      refine ⟨_, delete_some hc, fun i => ?_⟩
      rw [object?_put hc]
      split
      · rfl
      · rename_i hi
        have hci := h.caps i
        rw [hbind, hcm, if_neg (fun he => hi (Option.some.inj he).symm)] at hci
        simpa using hci
  have hinputs : ∃ inputs, delete w.inputs m.input = some inputs ∧
      inputs.length = w.inputs.length ∧ ∀ i, (object? inputs i).isSome = true ↔
        i + 1 < w.inputs.length := by
    have hlast := h.input m hm
    have hin := h.inputs
    rw [hm] at hin
    simp only [Option.isSome_some, true_or, and_true] at hin
    by_cases h0 : w.inputs.length = 0
    · rw [if_pos h0] at hlast
      refine ⟨w.inputs, by rw [hlast]; rfl, rfl, fun i => ?_⟩
      rw [hin]
      omega
    · rw [if_neg h0] at hlast
      obtain ⟨o, ho⟩ := Option.isSome_iff_exists.mp
        ((hin (w.inputs.length - 1)).mpr (by omega))
      refine ⟨_, by rw [hlast]; exact delete_some ho, by simp, fun i => ?_⟩
      rw [object?_put ho]
      split
      · simp only [Option.isSome_none, Bool.false_eq_true, false_iff]
        omega
      · rw [hin]
        omega
  obtain ⟨caps, hdc, hnone⟩ := hcaps
  obtain ⟨inputs, hdi, hlen, hrest⟩ := hinputs
  unfold World.destroy
  rw [hdc, hdi]
  refine ⟨by simp [World.gives, hw], fun i => ?_, ?_, fun i => ?_, ?_⟩
  · simp [World.gives, hnone]
  · rintro m' ⟨⟩
  · simp only [World.gives, hrest, hlen, Option.isSome_none, Bool.false_eq_true, false_or]
    omega
  · rintro m' ⟨⟩

/-- **Every call** keeps the accounts. -/
theorem Owned.call (h : Owned cs w) (hw : w.status = .fine) (c : Call) :
    Owned (cs ++ [c]) (w.call c) := by
  unfold World.call
  cases hm : w.machine with
  | none =>
    have hs := same_fail w (f := .dangling) (by simp)
    refine ⟨hs.status, fun i => ?_, ?_, h.inputs, ?_⟩
    · have hi := h.caps i
      rw [hm] at hi
      simpa [World.fail, hm] using hi
    · intro m hm'
      rw [hs.machine, hm] at hm'
      cases hm'
    · intro m hm'
      rw [hs.machine, hm] at hm'
      cases hm'
  | some m =>
    have hsnoc : ∀ {d : Call}, d.opens = none → source (cs ++ [d]) = source cs := fun hd => by
      rw [source_snoc, hd, Option.or_none]
    cases c with
    | addPcapdev devName opened => exact h.add hw hm .dev devName opened rfl
    | addPcapfile filePath opened => exact h.add hw hm .file filePath opened rfl
    | dataSourceName =>
      refine h.still ?_ rfl
      dsimp only
      unfold World.dataSourceName
      split
      · exact same_gives hw _
      · split
        · exact same_gives hw _
        · exact same_fail w (by simp)
    | start => exact (h.start hw hm fun w' m' hw' => same_gives hw' _).congr (hsnoc rfl)
    | loop => exact (h.start hw hm fun w' m' hw' => same_awaitInput hw' m' _).congr (hsnoc rfl)
    | join timed => exact h.still (same_awaitInput hw m _) rfl
    | halt => exact h.still (same_awaitInput hw m _) rfl
    | destroy => exact (h.destroy hw hm).congr (hsnoc rfl)

/-- **One action** keeps the accounts. -/
theorem Owned.step (h : Owned cs w) {a : Action}
    (hs : World.step N lay body fresh w a = some w') : Owned (cs ++ a.call?.toList) w' := by
  cases a with
  | call c =>
    unfold World.step at hs
    split at hs
    · cases hs
    · rename_i hw
      obtain ⟨-, hs⟩ := Option.ite_none_right_eq_some.mp hs
      exact Option.some.inj hs ▸ h.call (not_not.mp hw) c
  | _ => exact h.same (step_same rfl hs) (congrArg source (List.append_nil cs))

/-- A machine with its first members. -/
structure New (w : World κ) : Prop where
  rest : w = { sys := w.sys }
  sys : ∃ k, Source.Start w.sys k

theorem owned_new (h : New w) : Owned [] w := by
  rw [h.rest]
  refine ⟨by simp, fun i => by simp [object?], ?_, fun i => by simp [object?], ?_⟩
  · rintro m hm
    obtain rfl := Option.some.inj hm
    simp [source]
  · rintro m hm
    obtain rfl := Option.some.inj hm
    rfl

theorem exec_owned {w₀ : World κ} (h₀ : New w₀) {tr : List Action}
    (h : exec (World.step N lay body fresh) w₀ tr = some w) : Owned (calls tr) w :=
  exec_induct (I := fun tr w => Owned (calls tr) w) (owned_new h₀)
    (fun tr t a t' hi hs => by rw [calls_snoc]; exact hi.step hs) tr h

/-- **Who deletes what**, in every run: no object is deleted twice. The only `Capture` is the one
behind `cap_`, those that did not open being gone, and with the machine it is gone as well. An
`Input` is deleted with the machine when it was made last, and never otherwise. -/
theorem captures_owned {w₀ : World κ} (h₀ : New w₀) {tr : List Action}
    (h : exec (World.step N lay body fresh) w₀ tr = some w) :
    w.status ≠ .fault .doubleDelete ∧
      (∀ i, (object? w.caps i).isSome = true ↔ ∃ m, w.machine = some m ∧ m.cap = some i) ∧
      ∀ i, (object? w.inputs i).isSome = true ↔
        i < w.inputs.length ∧ (w.machine.isSome = true ∨ i + 1 < w.inputs.length) := by
  have ho := exec_owned h₀ h
  refine ⟨ho.status, fun i => ?_, ho.inputs⟩
  have hi := ho.caps i
  rw [← Option.isSome_map (f := kindName), hi]
  constructor
  · intro hsome
    split at hsome
    · rename_i hb
      obtain ⟨m, hm, hcap⟩ := Option.bind_eq_some_iff.mp hb
      exact ⟨m, hm, hcap⟩
    · cases hsome
  · rintro ⟨m, hm, hcap⟩
    rw [if_pos (Option.bind_eq_some_iff.mpr ⟨m, hm, hcap⟩), Option.isSome_iff_ne_none]
    intro hno
    rw [(ho.cap m hm).mpr hno] at hcap
    cases hcap

/-- **The source is the first that opened**, after any calls, whatever they were and whatever the
threads have done: that is what `data_source_name` says, and it is empty only before. -/
theorem source_first {w₀ : World κ} (h₀ : New w₀) {tr : List Action}
    (h : exec (World.step N lay body fresh) w₀ tr = some w) (hm : w.machine.isSome = true) :
    w.call .dataSourceName = w.gives (.name ((source (calls tr)).elim "" Prod.snd)) := by
  obtain ⟨m, hm⟩ := Option.isSome_iff_exists.mp hm
  have ho := exec_owned h₀ h
  have hbind : w.machine.bind Machine.cap = m.cap := by rw [hm]; rfl
  unfold World.call
  rw [hm]
  dsimp only
  unfold World.dataSourceName
  cases hcm : m.cap with
  | none =>
    rw [(ho.cap m hm).mp hcm]
    rfl
  | some i =>
    have hi := ho.caps i
    rw [hbind, hcm, if_pos rfl] at hi
    cases hsrc : source (calls tr) with
    | none =>
      rw [(ho.cap m hm).mpr hsrc] at hcm
      cases hcm
    | some x =>
      rw [hsrc] at hi
      obtain ⟨cap, hcap, rfl⟩ := Option.map_eq_some_iff.mp hi
      dsimp only
      rw [hcap]
      rfl

end Owned

/-! ## Runs -/

/-- A machine with new packets in its channel. -/
def newMachine {κ : Type} (k : κ) : World κ where
  sys := Source.fileStart k

theorem new_newMachine {κ : Type} (k : κ) : New (newMachine k) :=
  ⟨rfl, k, Source.start_fileStart k⟩

/-- A file that does not open, one that does, and a device. -/
def runAdds : List Action :=
  [.call (.addPcapfile "b.pcap" (some "no such file")), .call (.addPcapfile "a.pcap" none),
    .call (.addPcapdev "eth0" none)]

theorem source_first_runAdds :
    ∃ w, exec (World.step RingBuffer.ringTwo Source.flatLayout Source.sumLengths id) (newMachine 0)
        runAdds = some w ∧
      w.outcomes = [.threw ⟨.configError, "no such file"⟩, .done,
        .threw ⟨.configError, "data source has been configured"⟩] ∧
      w.call .dataSourceName = w.gives (.name "a.pcap") := by
  have h : (exec (World.step RingBuffer.ringTwo Source.flatLayout Source.sumLengths id)
      (newMachine 0) runAdds).map (fun w => (w.outcomes, w.machine.isSome)) =
      some ([.threw ⟨.configError, "no such file"⟩, .done,
        .threw ⟨.configError, "data source has been configured"⟩], true) := by decide
  obtain ⟨w, hw, he⟩ := Option.map_eq_some_iff.mp h
  exact ⟨w, hw, congrArg Prod.fst he, source_first (new_newMachine 0) hw (congrArg Prod.snd he :)⟩

/-- Two sources were made, and the machine is destroyed. -/
theorem captures_owned_runAdds :
    ∃ w, exec (World.step RingBuffer.ringTwo Source.flatLayout Source.sumLengths id) (newMachine 0)
        (runAdds ++ [.call .destroy]) = some w ∧ w.caps.length = 2 ∧
      w.status ≠ .fault .doubleDelete ∧
      (∀ i, (object? w.caps i).isSome = true ↔ ∃ m, w.machine = some m ∧ m.cap = some i) ∧
      ∀ i, (object? w.inputs i).isSome = true ↔
        i < w.inputs.length ∧ (w.machine.isSome = true ∨ i + 1 < w.inputs.length) := by
  have h : (exec (World.step RingBuffer.ringTwo Source.flatLayout Source.sumLengths id)
      (newMachine 0) (runAdds ++ [.call .destroy])).map (fun w => w.caps.length) = some 2 := by
    decide
  obtain ⟨w, hw, he⟩ := Option.map_eq_some_iff.mp h
  exact ⟨w, hw, he, captures_owned (new_newMachine 0) hw⟩

end PacketMachine.Facade
