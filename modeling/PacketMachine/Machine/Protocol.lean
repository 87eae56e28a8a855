import PacketMachine.Machine.Facade

/-!
# In which order a `Machine` may be used

The orders of calls that have a defined behaviour whatever the threads do, as an automaton over
the calls alone (`Stage`). It is the contract of `Machine` (`packetmachine.hpp:61-99`), for which
the source has no documentation.

* A `join` with a timeout may leave the capture thread behind, and its caller cannot know:
  afterwards nothing but `add` and `data_source_name` is safe (`Threads.half`).
* When the two threads were joined, the capture has come to its end, and the source is not ready any
  more: after the next `start` the capture thread cannot return (`Stage.stuck`).

Results:
* **`never_faults`**: in an allowed order nothing undefined happens, in any interleaving.
* **`second_loop_aborts`**: a `loop` after one that returned does not return, and the program can
  only come to its end with `RunTimeError`.
-/

namespace PacketMachine.Facade

open PacketMachine.Lib
open PacketMachine.RingBuffer (RingSize)
open PacketMachine.Source (Capture Layout Received System)

/-! ## The contract -/

/-- The threads of the last `start`, as far as the calls tell. -/
inductive Threads where
  /-- There was no `start`. -/
  | none
  /-- None of the two is joined. -/
  | both
  /-- The one of the kernel is joined, that of the capture perhaps. -/
  | half
  | joined
  deriving DecidableEq, Repr

/-- What the calls so far have come to. -/
inductive Stage where
  /-- There is no source. -/
  | bare
  /-- There is a source; `ended` when it surely is not ready any more. -/
  | opened (t : Threads) (ended : Bool)
  /-- The machine is destroyed. -/
  | gone
  /-- A call does not return. -/
  | stuck
  deriving DecidableEq, Repr

/-- The next call, when it is allowed. -/
def Stage.call : Stage → Call → Option Stage
  | .stuck, _ => some .stuck
  | .gone, _ => none
  | .bare, c => match c with
    | .addPcapdev _ errbuf | .addPcapfile _ errbuf =>
      some (if errbuf.isNone then .opened .none false else .bare)
    | .dataSourceName | .start | .loop => some .bare
    | .join _ | .halt => none
    | .destroy => some .gone
  | .opened t e, c => match c with
    | .addPcapdev _ _ | .addPcapfile _ _ | .dataSourceName => some (.opened t e)
    | .start => if t = .none ∨ t = .joined then some (.opened .both e) else none
    | .loop =>
      if t = .none ∨ t = .joined then some (if e then .stuck else .opened .joined true) else none
    | .join false =>
      if t = .both then some (if e then .stuck else .opened .joined true)
      else if t = .half ∧ e = true then some .stuck else none
    | .join true => if t = .both then some (.opened .half e) else none
    | .halt => if t = .both then some (.opened .joined e) else none
    | .destroy => if t = .none ∨ t = .joined then some .gone else none

/-- The calls in their order, when all of them are allowed. -/
def stage (cs : List Call) : Option Stage := cs.foldlM Stage.call .bare

theorem stage_snoc (cs : List Call) (c : Call) :
    stage (cs ++ [c]) = (stage cs).bind fun s => s.call c := by
  unfold stage
  rw [List.foldlM_append]
  cases List.foldlM Stage.call Stage.bare cs with
  | none => rfl
  | some s => exact (bind_pure (s.call c) :)

/-- `join` without a timeout is allowed twice: of both threads, and when it will not return. -/
theorem join_cases {t : Threads} {e : Bool} {s : Stage}
    (h : (Stage.opened t e).call (.join false) = some s) :
    t = .both ∧ s = (if e then .stuck else .opened .joined true) ∨
      t = .half ∧ e = true ∧ s = .stuck := by
  simp only [Stage.call] at h
  split at h
  · rename_i ht
    exact .inl ⟨ht, (Option.some.inj h).symm⟩
  · obtain ⟨⟨ht, he⟩, hs⟩ := Option.ite_none_right_eq_some.mp h
    exact .inr ⟨ht, he, (Option.some.inj hs).symm⟩

/-! ## What the stages say of the program -/

/-- Where the capture thread can be. When the source was not ready at the start (`e`), `read` gives
it `ERROR` only. -/
def Fits (e : Bool) (cap : Capture) : Source.Input → Prop
  | .top | .read => True
  | .push => e = false
  | .close rc | .closed rc => rc = .error ∧ (e = true → cap.error = "pcap is not ready") ∨
      rc = .exit ∧ e = false ∧ cap.ready = false
  | .returned | .threw _ => False

/-- One action of the capture thread, by what it leads to. -/
theorem Moves.fits {e : Bool} {i j : Source.Input} {cap cap' : Capture} (h : Moves i cap j cap')
    (hi : Fits e cap i) (he : e = true → cap.ready = false) :
    (e = true → cap'.ready = false) ∧ (Fits e cap' j ∨
      j = .returned ∧ e = false ∧ cap'.ready = false ∨
      ∃ text, j = .threw text ∧ (e = true → text = "pcap is not ready")) := by
  cases h with
  | top => exact ⟨he, .inl trivial⟩
  | take => exact ⟨he, .inl trivial⟩
  | read hready hrc =>
    have hfalse : e = false := by
      cases e with
      | false => rfl
      | true => simp [he rfl] at hready
    refine ⟨he, .inl ?_⟩
    obtain rfl | rfl := hrc
    · exact hfalse
    · trivial
  | eof hready =>
    have hfalse : e = false := by
      cases e with
      | false => rfl
      | true => simp [he rfl] at hready
    exact ⟨fun _ => rfl, .inl (.inr ⟨rfl, hfalse, rfl⟩)⟩
  | error hname hready =>
    exact ⟨fun h => (hready (he h)).1, .inl (.inl ⟨rfl, fun h => (hready (he h)).2⟩)⟩
  | push => exact ⟨he, .inl hi⟩
  | commit => exact ⟨he, .inl trivial⟩
  | close => exact ⟨he, .inl hi⟩
  | throw =>
    refine ⟨he, .inr (.inr ⟨_, rfl, fun h => ?_⟩)⟩
    rcases hi with ⟨-, htext⟩ | ⟨hrc, -⟩
    · exact htext h
    · cases hrc
  | leave hrc =>
    rcases hi with ⟨herr, -⟩ | ⟨-, hfalse, hready⟩
    · exact absurd herr hrc
    · exact ⟨he, .inr (.inl ⟨rfl, hfalse, hready⟩)⟩

/-- The machine has an `Input`, whose thread is at work or has come to its end as `q` says. -/
structure Shape {κ : Type} (w : World κ) (e : Bool) (th : Handle) (q : Capture → Prop) (c k : Nat)
    (cap : Capture) : Prop where
  machine : w.machine = some ⟨some c, some k⟩
  caps : object? w.caps c = some cap
  ended : e = true → cap.ready = false
  inputs : object? w.inputs k = some ⟨c, th⟩
  capture : w.capture = some k ∧ Fits e cap w.sys.input ∨ w.capture = none ∧ q cap

/-- The thread has returned by itself. -/
def Returned (e : Bool) (cap : Capture) : Prop := e = false ∧ cap.ready = false

/-- There are no threads, and `input_` may be null. -/
structure Quiet {κ : Type} (w : World κ) (e : Bool) : Prop where
  source : ∃ c cap i, w.machine = some ⟨some c, i⟩ ∧ object? w.caps c = some cap ∧
    (e = true → cap.ready = false) ∧ ∀ k, i = some k → ∃ o, object? w.inputs k = some o
  capture : w.capture = none
  loop : w.loop = .none

/-- The program between two calls. -/
def Rests {κ : Type} (w : World κ) : Stage → Prop
  | .bare => w.machine = some ⟨none, none⟩ ∧ w.capture = none ∧ w.loop = .none
  | .opened .none e => Quiet w e
  | .opened .both e => ∃ c k cap, Shape w e .live (Returned e) c k cap ∧ w.th = .live
  | .opened .half e => ∃ th c k cap, Shape w e th (fun _ => e = false) c k cap ∧
      (e = true → th = .live)
  | .opened .joined e => Quiet w e
  | .gone => w.machine = none ∧ w.capture = none ∧ w.loop = .none
  | .stuck => False

/-- The program, with the stage that its calls have come to. -/
def Stands {κ : Type} (w : World κ) (s : Stage) : Prop :=
  match w.user with
  | .idle => Rests w s
  | .joinInput false => ∃ c k cap,
      s = .opened .joined true ∧ Shape w false .live (Returned false) c k cap ∧ w.th = .live ∨
      s = .stuck ∧ Shape w true .live (fun _ => False) c k cap
  | .joinInput true => ∃ e c k cap, s = .opened .half e ∧ Shape w e .live (Returned e) c k cap ∧
      w.th = .live
  | .joinKernel => w.th = .live ∧ ((s = .opened .joined true ∧ w.capture = none ∧
        ∃ c k cap, Shape w true .joined (fun _ => True) c k cap) ∨
      ∃ e th c k cap, s = .opened .half e ∧ Shape w e th (fun _ => e = false) c k cap ∧
        (e = true → th = .live))
  | .stopInput => ∃ e c k cap, s = .opened .joined e ∧ Shape w e .live (fun _ => True) c k cap ∧
      w.th = .live
  | .stopKernel => ∃ e c k cap, s = .opened .joined e ∧ Shape w e .joined (fun _ => True) c k cap ∧
      w.capture = none ∧ w.th = .live

/-- Nothing undefined has happened. -/
def Safe {κ : Type} (w : World κ) (s : Stage) : Prop :=
  match w.status with
  | .fine => Stands w s
  | .terminated text => s = .stuck → text = "pcap is not ready"
  | .fault _ => False

/-! ## Safety -/

section Safe

variable {κ : Type} {N : RingSize} {lay : Layout} {body : κ → Received → Except Decode.Fault κ}
  {fresh : κ → κ} {w w' : World κ} {s s' : Stage} {e : Bool} {th : Handle}
  {q q' : Capture → Prop} {c k : Nat} {cap : Capture}

/-- What the user's thread and the kernel thread leave alone. -/
structure Frame (w w' : World κ) : Prop where
  machine : w'.machine = w.machine
  caps : w'.caps = w.caps
  inputs : w'.inputs = w.inputs
  capture : w'.capture = w.capture
  input : w'.sys.input = w.sys.input

theorem Shape.frame (h : Shape w e th q c k cap) (hf : Frame w w') : Shape w' e th q c k cap := by
  obtain ⟨hm, hc, he, hi, hcap⟩ := h
  refine ⟨hf.machine.trans hm, hf.caps ▸ hc, he, hf.inputs ▸ hi, ?_⟩
  rw [hf.capture, hf.input]
  exact hcap

theorem Shape.mono (h : Shape w e th q c k cap) (hq : q cap → q' cap) : Shape w e th q' c k cap :=
  ⟨h.machine, h.caps, h.ended, h.inputs, h.capture.imp_right fun hn => ⟨hn.1, hq hn.2⟩⟩

theorem Quiet.frame (h : Quiet w e) (hf : Frame w w') (hl : w'.loop = .none) : Quiet w' e :=
  ⟨by rw [hf.machine, hf.caps, hf.inputs]; exact h.source, hf.capture.trans h.capture, hl⟩

/-- With no thread at work, and the source known. -/
theorem Shape.quiet (h : Shape w e th q c k cap) (hc : w.capture = none) (hl : w.loop = .none) :
    Quiet w e :=
  ⟨⟨c, cap, _, h.machine, h.caps, h.ended, fun _ hk => Option.some.inj hk ▸ ⟨_, h.inputs⟩⟩, hc, hl⟩

/-- The kernel thread goes on. -/
theorem Stands.frame (h : Stands w s) (hf : Frame w w') (hth : w'.th = w.th)
    (hu : w'.user = w.user) (hl : w.loop = .none → w'.loop = .none) : Stands w' s := by
  unfold Stands at h ⊢
  rw [hu, hth]
  cases hwu : w.user with
  | idle =>
    simp only [hwu] at h ⊢
    cases s with
    | bare => exact ⟨hf.machine.trans h.1, hf.capture.trans h.2.1, hl h.2.2⟩
    | gone => exact ⟨hf.machine.trans h.1, hf.capture.trans h.2.1, hl h.2.2⟩
    | stuck => exact h
    | opened t e =>
      cases t with
      | none => exact Quiet.frame h hf (hl h.loop)
      | joined => exact Quiet.frame h hf (hl h.loop)
      | both =>
        obtain ⟨c, k, cap, hs, ht⟩ := h
        exact ⟨c, k, cap, hs.frame hf, hth.trans ht⟩
      | half =>
        obtain ⟨th, c, k, cap, hs, ht⟩ := h
        exact ⟨th, c, k, cap, hs.frame hf, ht⟩
  | joinInput timed =>
    simp only [hwu] at h ⊢
    cases timed with
    | false =>
      obtain ⟨c, k, cap, ⟨rfl, hs, ht⟩ | ⟨rfl, hs⟩⟩ := h
      · exact ⟨c, k, cap, .inl ⟨rfl, hs.frame hf, ht⟩⟩
      · exact ⟨c, k, cap, .inr ⟨rfl, hs.frame hf⟩⟩
    | true =>
      obtain ⟨e, c, k, cap, rfl, hs, ht⟩ := h
      exact ⟨e, c, k, cap, rfl, hs.frame hf, ht⟩
  | joinKernel =>
    simp only [hwu] at h ⊢
    obtain ⟨ht, ⟨rfl, hc, c, k, cap, hs⟩ | ⟨e, th, c, k, cap, rfl, hs, he⟩⟩ := h
    · exact ⟨ht, .inl ⟨rfl, hf.capture.trans hc, c, k, cap, hs.frame hf⟩⟩
    · exact ⟨ht, .inr ⟨e, th, c, k, cap, rfl, hs.frame hf, he⟩⟩
  | stopInput =>
    simp only [hwu] at h ⊢
    obtain ⟨e, c, k, cap, rfl, hs, ht⟩ := h
    exact ⟨e, c, k, cap, rfl, hs.frame hf, ht⟩
  | stopKernel =>
    simp only [hwu] at h ⊢
    obtain ⟨e, c, k, cap, rfl, hs, hc, ht⟩ := h
    exact ⟨e, c, k, cap, rfl, hs.frame hf, hf.capture.trans hc, ht⟩

/-- As long as the kernel thread is at work there is a machine. -/
theorem Stands.alive (h : Stands w s) (hl : w.loop ≠ .none) : ¬ w.machine.isNone = true := by
  have hshape : ∀ {e th q c k cap}, Shape w e th q c k cap → ¬ w.machine.isNone = true :=
    fun hs => by simp [hs.machine]
  unfold Stands at h
  cases hwu : w.user with
  | idle =>
    simp only [hwu] at h
    cases s with
    | bare => exact absurd h.2.2 hl
    | gone => exact absurd h.2.2 hl
    | stuck => exact h.elim
    | opened t e =>
      cases t with
      | none => exact absurd (Quiet.loop h) hl
      | joined => exact absurd (Quiet.loop h) hl
      | both =>
        obtain ⟨c, k, cap, hs, -⟩ := h
        exact hshape hs
      | half =>
        obtain ⟨th, c, k, cap, hs, -⟩ := h
        exact hshape hs
  | joinInput timed =>
    simp only [hwu] at h
    cases timed with
    | false =>
      obtain ⟨c, k, cap, ⟨-, hs, -⟩ | ⟨-, hs⟩⟩ := h
      · exact hshape hs
      · exact hshape hs
    | true =>
      obtain ⟨e, c, k, cap, -, hs, -⟩ := h
      exact hshape hs
  | joinKernel =>
    simp only [hwu] at h
    obtain ⟨-, ⟨-, -, c, k, cap, hs⟩ | ⟨e, th, c, k, cap, -, hs, -⟩⟩ := h
    · exact hshape hs
    · exact hshape hs
  | stopInput =>
    simp only [hwu] at h
    obtain ⟨e, c, k, cap, -, hs, -⟩ := h
    exact hshape hs
  | stopKernel =>
    simp only [hwu] at h
    obtain ⟨e, c, k, cap, -, hs, -, -⟩ := h
    exact hshape hs

/-- What an action of the capture thread leaves: either it is still as it was described, or the
program has come to its end. -/
structure Captured (w w' : World κ) (e : Bool) (th : Handle) (q : Capture → Prop) (c k : Nat) :
    Prop where
  handle : w'.th = w.th
  user : w'.user = w.user
  loop : w'.loop = w.loop
  status : (w'.status = .fine ∧ ∃ cap, Shape w' e th q c k cap) ∨
    ∃ text, w'.status = .terminated text ∧ (e = true → text = "pcap is not ready")

/-- **The capture thread** goes on. -/
theorem Shape.captures (h : Shape w e th q c k cap) (hw : w.status = .fine)
    (hq : ∀ cap, Returned e cap → q cap) (hc : w.capture = some k) {a : Source.Action}
    (ha : ofCapture a = true) (hs : w.captures N lay body k a = some w') :
    Captured w w' e th q c k := by
  have hsrc : w.source? k = some (c, cap) := by
    unfold World.source?
    rw [h.inputs, Option.bind_some, h.caps]
    rfl
  have hfits : Fits e cap w.sys.input := by
    rcases h.capture with ⟨-, hf⟩ | ⟨hn, -⟩
    · exact hf
    · rw [hc] at hn
      cases hn
  unfold World.captures at hs
  rw [hsrc] at hs
  obtain ⟨t, ht, rfl⟩ := Option.map_eq_some_iff.mp hs
  obtain ⟨he, hpos⟩ := (capture_moves ha ht).fits hfits h.ended
  have hput : object? (w.caps.set c (some t.cap)) c = some t.cap := by
    rw [object?_put h.caps, if_pos rfl]
  unfold World.left
  rcases hpos with hfit | ⟨hret, hfalse, hready⟩ | ⟨text, hthrew, htext⟩
  · cases hi : t.input with
    | returned => exact (hi ▸ hfit : Fits e t.cap .returned).elim
    | threw text => exact (hi ▸ hfit : Fits e t.cap (.threw text)).elim
    | _ => exact ⟨rfl, rfl, rfl, .inl ⟨hw, t.cap, h.machine, hput, he, h.inputs, .inl ⟨hc, hfit⟩⟩⟩
  · rw [hret]
    exact ⟨rfl, rfl, rfl, .inl ⟨hw, t.cap, h.machine, hput, he, h.inputs,
      .inr ⟨rfl, hq _ ⟨hfalse, hready⟩⟩⟩⟩
  · rw [hthrew]
    exact ⟨rfl, rfl, rfl, .inr ⟨text, rfl, htext⟩⟩

/-- What the program comes to by an action of the capture thread. -/
theorem Captured.safe (h : Captured w w' e th q c k) (hs : s = .stuck → e = true)
    (hst : ∀ cap, Shape w' e th q c k cap → Stands w' s) : Safe w' s := by
  unfold Safe
  rcases h.status with ⟨hfine, cap, hshape⟩ | ⟨text, hterm, htext⟩
  · rw [hfine]
    exact hst cap hshape
  · rw [hterm]
    exact fun h => htext (hs h)

/-- **An action of the capture thread** is safe. -/
theorem Stands.captures (h : Stands w s) (hw : w.status = .fine) (hc : w.capture = some k)
    {a : Source.Action} (ha : ofCapture a = true)
    (hs : w.captures N lay body k a = some w') : Safe w' s := by
  -- the `Input` whose thread is at work is the one behind `input_`
  have hkey : ∀ {e th q c k' cap}, Shape w e th q c k' cap → k' = k := by
    intro e th q c k' cap hshape
    rcases hshape.capture with ⟨hk, -⟩ | ⟨hn, -⟩
    · exact Option.some.inj (hk.symm.trans hc)
    · rw [hc] at hn
      cases hn
  have hnone : ¬ w.capture = none := by simp [hc]
  unfold Stands at h
  cases hwu : w.user with
  | idle =>
    simp only [hwu] at h
    cases s with
    | bare => exact absurd h.2.1 hnone
    | gone => exact absurd h.2.1 hnone
    | stuck => exact h.elim
    | opened t e =>
      cases t with
      | none => exact absurd (Quiet.capture h) hnone
      | joined => exact absurd (Quiet.capture h) hnone
      | both =>
        obtain ⟨c, k', cap, hshape, ht⟩ := h
        obtain rfl := hkey hshape
        have hcap := hshape.captures hw (fun _ hr => hr) hc ha hs
        refine hcap.safe (fun hst => by cases hst) fun cap' hshape' => ?_
        unfold Stands
        rw [hcap.user, hwu]
        exact ⟨c, k', cap', hshape', hcap.handle.trans ht⟩
      | half =>
        obtain ⟨th, c, k', cap, hshape, ht⟩ := h
        obtain rfl := hkey hshape
        have hcap := hshape.captures hw (fun _ hr => hr.1) hc ha hs
        refine hcap.safe (fun hst => by cases hst) fun cap' hshape' => ?_
        unfold Stands
        rw [hcap.user, hwu]
        exact ⟨th, c, k', cap', hshape', ht⟩
  | joinInput timed =>
    simp only [hwu] at h
    cases timed with
    | false =>
      obtain ⟨c, k', cap, ⟨rfl, hshape, ht⟩ | ⟨rfl, hshape⟩⟩ := h
      · obtain rfl := hkey hshape
        have hcap := hshape.captures hw (fun _ hr => hr) hc ha hs
        refine hcap.safe (fun hst => by cases hst) fun cap' hshape' => ?_
        unfold Stands
        rw [hcap.user, hwu]
        exact ⟨c, k', cap', .inl ⟨rfl, hshape', hcap.handle.trans ht⟩⟩
      · obtain rfl := hkey hshape
        have hcap := hshape.captures hw (fun _ hr => by cases hr.1) hc ha hs
        refine hcap.safe (fun _ => rfl) fun cap' hshape' => ?_
        unfold Stands
        rw [hcap.user, hwu]
        exact ⟨c, k', cap', .inr ⟨rfl, hshape'⟩⟩
    | true =>
      obtain ⟨e, c, k', cap, rfl, hshape, ht⟩ := h
      obtain rfl := hkey hshape
      have hcap := hshape.captures hw (fun _ hr => hr) hc ha hs
      refine hcap.safe (fun hst => by cases hst) fun cap' hshape' => ?_
      unfold Stands
      rw [hcap.user, hwu]
      exact ⟨e, c, k', cap', rfl, hshape', hcap.handle.trans ht⟩
  | joinKernel =>
    simp only [hwu] at h
    obtain ⟨ht, ⟨-, hn, -⟩ | ⟨e, th, c, k', cap, rfl, hshape, he⟩⟩ := h
    · exact absurd hn hnone
    · obtain rfl := hkey hshape
      have hcap := hshape.captures hw (fun _ hr => hr.1) hc ha hs
      refine hcap.safe (fun hst => by cases hst) fun cap' hshape' => ?_
      unfold Stands
      rw [hcap.user, hwu]
      exact ⟨hcap.handle.trans ht, .inr ⟨e, th, c, k', cap', rfl, hshape', he⟩⟩
  | stopInput =>
    simp only [hwu] at h
    obtain ⟨e, c, k', cap, rfl, hshape, ht⟩ := h
    obtain rfl := hkey hshape
    have hcap := hshape.captures hw (fun _ _ => trivial) hc ha hs
    refine hcap.safe (fun hst => by cases hst) fun cap' hshape' => ?_
    unfold Stands
    rw [hcap.user, hwu]
    exact ⟨e, c, k', cap', rfl, hshape', hcap.handle.trans ht⟩
  | stopKernel =>
    simp only [hwu] at h
    obtain ⟨e, c, k', cap, -, -, hn, -⟩ := h
    exact absurd hn hnone

/-! ### The user goes on -/

/-- The thread of `input_` is joined. -/
theorem Shape.joined (h : Shape w e th q c k cap) :
    w.joinedInput ⟨some c, some k⟩ = { w with
      inputs := w.inputs.modify k (Option.map fun o => { o with th := .joined }) } ∧
    (w.capture = none → q cap → Shape { w with
      inputs := w.inputs.modify k (Option.map fun o => { o with th := .joined }) }
      e .joined q c k cap) := by
  refine ⟨rfl, fun hc hq => ⟨h.machine, h.caps, h.ended, ?_, .inr ⟨hc, hq⟩⟩⟩
  simp only [object?_modify, h.inputs]
  rfl

theorem safe_of_stands (hw : w.status = .fine) (h : Stands w s) : Safe w s := by
  unfold Safe
  rw [hw]
  exact h

/-- **A call goes on**, when the thread it waits for has ended. -/
theorem Stands.wait (h : Stands w s) (hw : w.status = .fine) (hs : w.wait = some w') :
    Safe w' s := by
  unfold Stands at h
  unfold World.wait at hs
  cases hwu : w.user with
  | idle => simp only [hwu] at hs; split at hs <;> simp_all
  | joinInput timed =>
    cases timed with
    | false =>
      simp only [hwu] at h
      obtain ⟨c, k, cap, ⟨rfl, hshape, ht⟩ | ⟨rfl, hshape⟩⟩ := h
      · simp only [hwu, hshape.machine] at hs
        obtain ⟨hc, hs⟩ := Option.ite_none_right_eq_some.mp hs
        rw [Option.isNone_iff_eq_none] at hc
        obtain rfl := Option.some.inj hs
        have hret : Returned false cap := by
          rcases hshape.capture with ⟨hk, -⟩ | ⟨-, hr⟩
          · rw [hc] at hk
            cases hk
          · exact hr
        have hj := hshape.joined.2 hc hret
        rw [World.await, if_pos ht]
        exact safe_of_stands hw ⟨ht, .inl ⟨rfl, hc, c, k, cap, hj.machine, hj.caps,
          fun _ => hret.2, hj.inputs, .inr ⟨hc, trivial⟩⟩⟩
      · simp only [hwu, hshape.machine] at hs
        obtain ⟨hc, hs⟩ := Option.ite_none_right_eq_some.mp hs
        rw [Option.isNone_iff_eq_none] at hc
        rcases hshape.capture with ⟨hk, -⟩ | ⟨-, hr⟩
        · rw [hc] at hk
          cases hk
        · exact hr.elim
    | true =>
      simp only [hwu] at h
      obtain ⟨e, c, k, cap, rfl, hshape, ht⟩ := h
      simp only [hwu, hshape.machine] at hs
      obtain ⟨hc, hs⟩ := Option.ite_none_right_eq_some.mp hs
      rw [Option.isNone_iff_eq_none] at hc
      obtain rfl := Option.some.inj hs
      have hret : Returned e cap := by
        rcases hshape.capture with ⟨hk, -⟩ | ⟨-, hr⟩
        · rw [hc] at hk
          cases hk
        · exact hr
      have hj := hshape.joined.2 hc hret
      rw [World.await, if_pos ht]
      refine safe_of_stands hw ⟨ht, .inr ⟨e, .joined, c, k, cap, rfl, ?_, fun he => ?_⟩⟩
      · exact (hj.mono fun hr => hr.1).frame ⟨rfl, rfl, rfl, rfl, rfl⟩
      · rw [hret.1] at he
        cases he
  | joinKernel =>
    simp only [hwu] at h
    obtain ⟨ht, ⟨rfl, hc, c, k, cap, hshape⟩ | ⟨e, th, c, k, cap, rfl, hshape, he⟩⟩ := h
    · simp only [hwu, hshape.machine] at hs
      obtain ⟨hl, hs⟩ := Option.ite_none_right_eq_some.mp hs
      obtain rfl := Option.some.inj hs
      exact safe_of_stands hw
        ((hshape.quiet hc hl).frame ⟨hshape.machine.symm, rfl, rfl, rfl, rfl⟩ hl)
    · simp only [hwu, hshape.machine] at hs
      obtain ⟨hl, hs⟩ := Option.ite_none_right_eq_some.mp hs
      obtain rfl := Option.some.inj hs
      exact safe_of_stands hw
        ⟨th, c, k, cap, hshape.frame ⟨hshape.machine.symm, rfl, rfl, rfl, rfl⟩, he⟩
  | stopInput =>
    simp only [hwu] at h
    obtain ⟨e, c, k, cap, rfl, hshape, ht⟩ := h
    simp only [hwu, hshape.machine] at hs
    obtain ⟨hc, hs⟩ := Option.ite_none_right_eq_some.mp hs
    rw [Option.isNone_iff_eq_none] at hc
    obtain rfl := Option.some.inj hs
    have hj := hshape.joined.2 hc trivial
    rw [World.await, if_pos ht]
    exact safe_of_stands hw
      ⟨e, c, k, cap, rfl, hj.frame ⟨rfl, rfl, rfl, rfl, rfl⟩, hc, ht⟩
  | stopKernel =>
    simp only [hwu] at h
    obtain ⟨e, c, k, cap, rfl, hshape, hc, -⟩ := h
    simp only [hwu, hshape.machine] at hs
    obtain ⟨hl, hs⟩ := Option.ite_none_right_eq_some.mp hs
    obtain rfl := Option.some.inj hs
    exact safe_of_stands hw
      ((hshape.quiet hc hl).frame ⟨hshape.machine.symm, rfl, rfl, rfl, rfl⟩ hl)

/-- `pthread_timedjoin_np` gives up. -/
theorem Stands.expire (h : Stands w s) (hw : w.status = .fine) (hu : w.user = .joinInput true) :
    Safe (w.await w.th .joinKernel) s := by
  unfold Stands at h
  simp only [hu] at h
  obtain ⟨e, c, k, cap, rfl, hshape, ht⟩ := h
  unfold World.await
  rw [if_pos ht]
  exact safe_of_stands hw ⟨ht, .inr ⟨e, .live, c, k, cap, rfl,
    (hshape.mono fun hr => hr.1).frame ⟨rfl, rfl, rfl, rfl, rfl⟩, fun _ => rfl⟩⟩

/-- The capture thread is cancelled. -/
theorem Stands.cancelCapture (h : Stands w s) (hw : w.status = .fine)
    (hu : w.user = .stopInput) : Safe { w with capture := none } s := by
  unfold Stands at h
  simp only [hu] at h
  obtain ⟨e, c, k, cap, rfl, hshape, ht⟩ := h
  refine safe_of_stands hw ?_
  unfold Stands
  simp only [hu]
  exact ⟨e, c, k, cap, rfl,
    ⟨hshape.machine, hshape.caps, hshape.ended, hshape.inputs, .inr ⟨rfl, trivial⟩⟩, ht⟩

/-! ### Calls -/

/-- A call that returns or throws at once. -/
theorem Stands.gives (h : Stands w s) (hw : w.status = .fine) (hu : w.user = .idle) (o : Outcome) :
    Safe (w.gives o) s :=
  safe_of_stands hw (h.frame ⟨rfl, rfl, rfl, rfl, rfl⟩ rfl hu.symm id)

theorem dataSourceName_opened {i : Option Nat} (h : object? w.caps c = some cap) :
    w.dataSourceName ⟨some c, i⟩ = w.gives (.name cap.srcName) := by
  unfold World.dataSourceName
  dsimp only
  rw [h]

/-- `start` makes two threads, when there are none. -/
theorem Quiet.start (h : Quiet w e) (hw : w.status = .fine) : ∃ m, w.machine = some m ∧
    ∃ c k cap w₁, Shape w₁ e .live (fun _ => False) c k cap ∧ w₁.th = .live ∧
      w₁.status = .fine ∧ ∀ behind, w.start m behind = behind w₁ ⟨some c, some k⟩ := by
  obtain ⟨⟨c, cap, i, hm, hcap, he, -⟩, hc, hl⟩ := h
  refine ⟨_, hm, c, w.inputs.length, cap, { w with
    machine := some ⟨some c, some w.inputs.length⟩
    inputs := w.inputs ++ [some ⟨c, .live⟩]
    th := .live
    capture := some w.inputs.length
    loop := .entry
    sys := { w.sys with
      input := .top
      phase := .pull
      ring := { w.sys.ring with prod := .idle, cons := .idle } } }, ?_, rfl, hw, fun behind => ?_⟩
  · refine ⟨rfl, hcap, he, ?_, .inl ⟨rfl, trivial⟩⟩
    rw [object?_new, if_pos rfl]
  · unfold World.start
    dsimp only
    rw [if_neg (by simp [hl, hc])]

/-- `input_->join()` and `input_->stop()`, of a thread that was not joined. -/
theorem Shape.awaitInput (h : Shape w e .live q c k cap) (u : User) :
    w.awaitInput ⟨some c, some k⟩ u = { w with user := u } := by
  unfold World.awaitInput
  dsimp only
  rw [h.inputs]
  exact if_pos rfl

theorem Stands.rests (h : Stands w s) (hu : w.user = .idle) : Rests w s := by
  unfold Stands at h
  simpa only [hu] using h

/-- `add` of a machine without a source. -/
theorem Rests.add (h : Rests w .bare) (hw : w.status = .fine) (kind : Source.Kind) (name : String)
    (errbuf : Option String) : Safe (w.add ⟨none, none⟩ (.new kind name errbuf))
      (if errbuf.isNone = true then .opened .none false else .bare) := by
  obtain ⟨hm, hcap, hl⟩ := h
  cases errbuf with
  | some text => exact safe_of_stands hw ⟨hm, hcap, hl⟩
  | none =>
    have hq : Quiet (w.add ⟨none, none⟩ (.new kind name none)) false := by
      refine ⟨⟨w.caps.length, .new kind name none, none, rfl, ?_, fun he => ?_, fun k hk => ?_⟩,
        hcap, hl⟩
      · exact (object?_new ..).trans (if_pos rfl)
      · cases he
      · cases hk
    exact safe_of_stands hw hq

/-- A call of a machine without a source. -/
theorem Stands.call_bare (h : Stands w .bare) (hw : w.status = .fine) (hu : w.user = .idle)
    {c : Call} (hc : Stage.call .bare c = some s') : Safe (w.call c) s' := by
  have hrests : Rests w .bare := h.rests hu
  unfold World.call
  rw [hrests.1]
  cases c with
  | addPcapdev devName errbuf => exact Option.some.inj hc ▸ hrests.add hw .dev devName errbuf
  | addPcapfile filePath errbuf => exact Option.some.inj hc ▸ hrests.add hw .file filePath errbuf
  | dataSourceName => exact Option.some.inj hc ▸ h.gives hw hu _
  | start => exact Option.some.inj hc ▸ h.gives hw hu _
  | loop => exact Option.some.inj hc ▸ h.gives hw hu _
  | join timed => cases hc
  | halt => cases hc
  | destroy =>
    obtain rfl := Option.some.inj hc
    exact safe_of_stands hw ⟨rfl, hrests.2⟩

/-- `cap_` points to a source. -/
theorem Rests.source {t : Threads} (h : Rests w (.opened t e)) :
    ∃ c cap i, w.machine = some ⟨some c, i⟩ ∧ object? w.caps c = some cap := by
  cases t with
  | none =>
    obtain ⟨⟨c, cap, i, hm, hcap, -⟩, -⟩ := h
    exact ⟨c, cap, i, hm, hcap⟩
  | joined =>
    obtain ⟨⟨c, cap, i, hm, hcap, -⟩, -⟩ := h
    exact ⟨c, cap, i, hm, hcap⟩
  | both =>
    obtain ⟨c, k, cap, hs, -⟩ := h
    exact ⟨c, cap, some k, hs.machine, hs.caps⟩
  | half =>
    obtain ⟨th, c, k, cap, hs, -⟩ := h
    exact ⟨c, cap, some k, hs.machine, hs.caps⟩

theorem Rests.quiet {t : Threads} (h : Rests w (.opened t e)) (ht : t = .none ∨ t = .joined) :
    Quiet w e := by
  rcases ht with rfl | rfl
  · exact h
  · exact h

/-- `start` behind the end of the threads. -/
theorem Quiet.call_start (h : Quiet w e) (hw : w.status = .fine) :
    Safe (w.call .start) (.opened .both e) := by
  obtain ⟨m, hm, c, k, cap, w₁, hs, hth, hst, hstart⟩ := h.start hw
  unfold World.call
  rw [hm]
  dsimp only
  rw [hstart]
  exact safe_of_stands hst
    ⟨c, k, cap, (hs.mono False.elim).frame ⟨rfl, rfl, rfl, rfl, rfl⟩, hth⟩

/-- `loop` behind the end of the threads. -/
theorem Quiet.call_loop (h : Quiet w e) (hw : w.status = .fine) :
    Safe (w.call .loop) (if e then .stuck else .opened .joined true) := by
  obtain ⟨m, hm, c, k, cap, w₁, hs, hth, hst, hstart⟩ := h.start hw
  unfold World.call
  rw [hm]
  dsimp only
  rw [hstart, hs.awaitInput]
  refine safe_of_stands hst ?_
  cases e with
  | true => exact ⟨c, k, cap, .inr ⟨rfl, hs.frame ⟨rfl, rfl, rfl, rfl, rfl⟩⟩⟩
  | false =>
    exact ⟨c, k, cap, .inl ⟨rfl, (hs.mono False.elim).frame ⟨rfl, rfl, rfl, rfl, rfl⟩, hth⟩⟩

/-- `~Machine` behind the end of the threads. -/
theorem Quiet.call_destroy (h : Quiet w e) (hw : w.status = .fine) :
    Safe (w.call .destroy) .gone := by
  obtain ⟨⟨c, cap, i, hm, hcap, -, hi⟩, hcapture, hl⟩ := h
  obtain ⟨ys, hys⟩ : ∃ ys, delete w.inputs i = some ys := by
    cases i with
    | none => exact ⟨_, rfl⟩
    | some k =>
      obtain ⟨o, ho⟩ := hi k rfl
      exact ⟨_, delete_some ho⟩
  unfold World.call
  rw [hm]
  dsimp only
  unfold World.destroy
  dsimp only
  rw [delete_some hcap, hys]
  exact safe_of_stands hw ⟨rfl, hcapture, hl⟩

/-- `join` with a timeout, of threads at work. -/
theorem Rests.call_join_timed (h : Rests w (.opened .both e)) (hw : w.status = .fine) :
    Safe (w.call (.join true)) (.opened .half e) := by
  obtain ⟨c, k, cap, hs, hth⟩ := h
  unfold World.call
  rw [hs.machine]
  dsimp only
  rw [hs.awaitInput]
  exact safe_of_stands hw ⟨e, c, k, cap, rfl, hs.frame ⟨rfl, rfl, rfl, rfl, rfl⟩, hth⟩

/-- `join` without one. -/
theorem Rests.call_join (h : Rests w (.opened .both e)) (hw : w.status = .fine) :
    Safe (w.call (.join false)) (if e then .stuck else .opened .joined true) := by
  obtain ⟨c, k, cap, hs, hth⟩ := h
  unfold World.call
  rw [hs.machine]
  dsimp only
  rw [hs.awaitInput]
  refine safe_of_stands hw ?_
  cases e with
  | true =>
    exact ⟨c, k, cap, .inr ⟨rfl, (hs.mono fun hr => by cases hr.1).frame
      ⟨rfl, rfl, rfl, rfl, rfl⟩⟩⟩
  | false => exact ⟨c, k, cap, .inl ⟨rfl, hs.frame ⟨rfl, rfl, rfl, rfl, rfl⟩, hth⟩⟩

/-- `join` behind one with a timeout, of a source that came to its end before. -/
theorem Rests.call_join_half (h : Rests w (.opened .half true)) (hw : w.status = .fine) :
    Safe (w.call (.join false)) .stuck := by
  obtain ⟨th, c, k, cap, hs, hth⟩ := h
  obtain rfl := hth rfl
  unfold World.call
  rw [hs.machine]
  dsimp only
  rw [hs.awaitInput]
  exact safe_of_stands hw ⟨c, k, cap, .inr ⟨rfl, (hs.mono fun hr => by cases hr).frame
    ⟨rfl, rfl, rfl, rfl, rfl⟩⟩⟩

/-- `halt` of threads at work. -/
theorem Rests.call_halt (h : Rests w (.opened .both e)) (hw : w.status = .fine) :
    Safe (w.call .halt) (.opened .joined e) := by
  obtain ⟨c, k, cap, hs, hth⟩ := h
  unfold World.call
  rw [hs.machine]
  dsimp only
  rw [hs.awaitInput]
  exact safe_of_stands hw ⟨e, c, k, cap, rfl,
    (hs.mono fun _ => trivial).frame ⟨rfl, rfl, rfl, rfl, rfl⟩, hth⟩

/-- **Every call that the contract allows** is safe. -/
theorem Stands.call (h : Stands w s) (hw : w.status = .fine) (hu : w.user = .idle) {c : Call}
    (hc : s.call c = some s') : Safe (w.call c) s' := by
  have hrests : Rests w s := h.rests hu
  cases s with
  | stuck => exact hrests.elim
  | gone => cases hc
  | bare => exact h.call_bare hw hu hc
  | opened t e =>
    obtain ⟨i, cap, j, hm, hcap⟩ := hrests.source
    cases c with
    | addPcapdev devName errbuf =>
      unfold World.call
      rw [hm]
      exact Option.some.inj hc ▸ h.gives hw hu _
    | addPcapfile filePath errbuf =>
      unfold World.call
      rw [hm]
      exact Option.some.inj hc ▸ h.gives hw hu _
    | dataSourceName =>
      unfold World.call
      rw [hm]
      dsimp only
      rw [dataSourceName_opened hcap]
      exact Option.some.inj hc ▸ h.gives hw hu _
    | start =>
      obtain ⟨ht, hc⟩ := Option.ite_none_right_eq_some.mp hc
      exact Option.some.inj hc ▸ (hrests.quiet ht).call_start hw
    | loop =>
      obtain ⟨ht, hc⟩ := Option.ite_none_right_eq_some.mp hc
      exact Option.some.inj hc ▸ (hrests.quiet ht).call_loop hw
    | join timed =>
      cases timed with
      | true =>
        obtain ⟨rfl, hc⟩ := Option.ite_none_right_eq_some.mp hc
        exact Option.some.inj hc ▸ hrests.call_join_timed hw
      | false =>
        rcases join_cases hc with ⟨rfl, rfl⟩ | ⟨rfl, rfl, rfl⟩
        · exact hrests.call_join hw
        · exact hrests.call_join_half hw
    | halt =>
      obtain ⟨rfl, hc⟩ := Option.ite_none_right_eq_some.mp hc
      exact Option.some.inj hc ▸ hrests.call_halt hw
    | destroy =>
      obtain ⟨ht, hc⟩ := Option.ite_none_right_eq_some.mp hc
      exact Option.some.inj hc ▸ (hrests.quiet ht).call_destroy hw

/-! ### Runs -/

/-- **One action** is safe. -/
theorem Safe.step (h : Safe w s) {a : Action}
    (hs : World.step N lay body fresh w a = some w')
    (hc : a.call?.elim (some s) s.call = some s') : Safe w' s' := by
  unfold World.step at hs
  split at hs
  · cases hs
  · rename_i hw
    rw [not_not] at hw
    have hst : Stands w s := by
      unfold Safe at h
      rwa [hw] at h
    cases a with
    | call c =>
      obtain ⟨hu, hs⟩ := Option.ite_none_right_eq_some.mp hs
      exact Option.some.inj hs ▸ hst.call hw hu hc
    | wait =>
      obtain rfl := Option.some.inj hc
      exact hst.wait hw hs
    | expire =>
      obtain rfl := Option.some.inj hc
      obtain ⟨hu, hs⟩ := Option.ite_none_right_eq_some.mp hs
      exact Option.some.inj hs ▸ hst.expire hw hu
    | capture a =>
      obtain rfl := Option.some.inj hc
      dsimp only at hs
      split at hs
      · rename_i i hi
        obtain ⟨ha, hs⟩ := Option.ite_none_right_eq_some.mp hs
        exact hst.captures hw hi ha hs
      · cases hs
    | cancelCapture =>
      obtain rfl := Option.some.inj hc
      obtain ⟨⟨hu, -⟩, hs⟩ := Option.ite_none_right_eq_some.mp hs
      exact Option.some.inj hs ▸ hst.cancelCapture hw hu
    | enter =>
      obtain rfl := Option.some.inj hc
      obtain ⟨hl, hs⟩ := Option.ite_none_right_eq_some.mp hs
      rw [if_neg (hst.alive (by simp [hl]))] at hs
      obtain rfl := Option.some.inj hs
      exact safe_of_stands hw (hst.frame ⟨rfl, rfl, rfl, rfl, rfl⟩ rfl rfl fun hn => by
        rw [hl] at hn
        cases hn)
    | kernel a =>
      obtain rfl := Option.some.inj hc
      obtain ⟨⟨hl, ha⟩, hs⟩ := Option.ite_none_right_eq_some.mp hs
      obtain ⟨t, ht, rfl⟩ := Option.map_eq_some_iff.mp hs
      rw [if_neg (hst.alive (by simp [hl]))]
      exact safe_of_stands hw
        (hst.frame ⟨rfl, rfl, rfl, rfl, (kernel_keeps ha ht).1⟩ rfl rfl id)
    | exit =>
      obtain rfl := Option.some.inj hc
      obtain ⟨⟨hl, -⟩, hs⟩ := Option.ite_none_right_eq_some.mp hs
      rw [if_neg (hst.alive (by simp [hl]))] at hs
      obtain rfl := Option.some.inj hs
      exact safe_of_stands hw (hst.frame ⟨rfl, rfl, rfl, rfl, rfl⟩ rfl rfl fun _ => rfl)
    | cancelKernel =>
      obtain rfl := Option.some.inj hc
      obtain ⟨-, hs⟩ := Option.ite_none_right_eq_some.mp hs
      obtain rfl := Option.some.inj hs
      exact safe_of_stands hw (hst.frame ⟨rfl, rfl, rfl, rfl, rfl⟩ rfl rfl fun _ => rfl)

theorem safe_new (h : New w) : Safe w .bare := by
  rw [h.rest]
  exact safe_of_stands rfl ⟨rfl, rfl, rfl⟩

theorem exec_safe {w₀ : World κ} (h₀ : New w₀) {tr : List Action}
    (h : exec (World.step N lay body fresh) w₀ tr = some w) :
    ∀ s, stage (calls tr) = some s → Safe w s := by
  refine exec_induct (I := fun tr w => ∀ s, stage (calls tr) = some s → Safe w s) ?_ ?_ tr h
  · intro s hs
    obtain rfl := Option.some.inj hs
    exact safe_new h₀
  · intro tr t a t' ih hstep s' hs'
    rw [calls_snoc] at hs'
    cases hcall : a.call? with
    | none =>
      rw [hcall, Option.toList_none, List.append_nil] at hs'
      exact (ih s' hs').step hstep (by rw [hcall]; rfl)
    | some c =>
      rw [hcall, Option.toList_some, stage_snoc] at hs'
      obtain ⟨s, hs, hc⟩ := Option.bind_eq_some_iff.mp hs'
      exact (ih s hs).step hstep (by rw [hcall]; exact hc)

/-- **In an allowed order of calls nothing undefined happens**, whatever the threads, libpcap and
the memory do, and at whatever moment a call is made. -/
theorem never_faults {w₀ : World κ} (h₀ : New w₀) {tr : List Action}
    (h : exec (World.step N lay body fresh) w₀ tr = some w)
    (hp : (stage (calls tr)).isSome = true) (f : Fault) : w.status ≠ .fault f := by
  obtain ⟨s, hs⟩ := Option.isSome_iff_exists.mp hp
  have hsafe := exec_safe h₀ h s hs
  unfold Safe at hsafe
  intro hf
  rw [hf] at hsafe
  exact hsafe

/-- **A capture that has come to its end cannot be run again**: a `loop` or `join` behind another
`start` does not return. The caller waits for a capture thread that is still at work, until its
exception ends the program. -/
theorem second_loop_aborts {w₀ : World κ} (h₀ : New w₀) {tr : List Action}
    (h : exec (World.step N lay body fresh) w₀ tr = some w) (hs : stage (calls tr) = some .stuck) :
    (w.status = .fine ∧ w.user = .joinInput false ∧ w.capture.isSome = true) ∨
      w.status = .terminated "pcap is not ready" := by
  have hsafe := exec_safe h₀ h _ hs
  unfold Safe at hsafe
  cases hw : w.status with
  | fault f =>
    rw [hw] at hsafe
    exact hsafe.elim
  | terminated text =>
    rw [hw] at hsafe
    exact .inr (congrArg Status.terminated (hsafe rfl))
  | fine =>
    rw [hw] at hsafe
    dsimp only at hsafe
    unfold Stands at hsafe
    cases hu : w.user with
    | idle =>
      simp only [hu] at hsafe
      exact hsafe.elim
    | joinInput timed =>
      simp only [hu] at hsafe
      cases timed with
      | false =>
        obtain ⟨c, k, cap, ⟨hno, -⟩ | ⟨-, hshape⟩⟩ := hsafe
        · cases hno
        · rcases hshape.capture with ⟨hk, -⟩ | ⟨-, hno⟩
          · exact .inl ⟨rfl, rfl, by rw [hk]; rfl⟩
          · exact hno.elim
      | true =>
        obtain ⟨e, c, k, cap, hno, -⟩ := hsafe
        cases hno
    | joinKernel =>
      simp only [hu] at hsafe
      obtain ⟨-, ⟨hno, -⟩ | ⟨e, th, c, k, cap, hno, -⟩⟩ := hsafe
      · cases hno
      · cases hno
    | stopInput =>
      simp only [hu] at hsafe
      obtain ⟨e, c, k, cap, hno, -⟩ := hsafe
      cases hno
    | stopKernel =>
      simp only [hu] at hsafe
      obtain ⟨e, c, k, cap, hno, -⟩ := hsafe
      cases hno

end Safe

/-! ## Runs -/

/-- The capture thread finds the end of the file at once. -/
def runEof : List Action :=
  [.capture .retain, .capture .testFull, .capture .take, .capture (.read .eof true),
    .capture .close, .capture .leave]

/-- The kernel thread finds the channel empty and closed. -/
def runEmpty : List Action :=
  [.enter, .kernel .pull, .kernel .testEmpty, .kernel .testClosed, .exit]

/-- `loop` is called twice. -/
def runTwice : List Action :=
  .call (.addPcapfile "a.pcap" none) :: .call .loop :: (runEof ++ runEmpty ++ [.wait, .wait]) ++
    .call .loop :: runEof

theorem second_loop_aborts_runTwice :
    ∃ w, exec (World.step RingBuffer.ringTwo Source.flatLayout Source.sumLengths id) (newMachine 0)
        runTwice = some w ∧ w.outcomes = [.done, .done] ∧
      ((w.status = .fine ∧ w.user = .joinInput false ∧ w.capture.isSome = true) ∨
        w.status = .terminated "pcap is not ready") := by
  have h : (exec (World.step RingBuffer.ringTwo Source.flatLayout Source.sumLengths id)
      (newMachine 0) runTwice).map (fun w => w.outcomes) = some [.done, .done] := by decide
  obtain ⟨w, hw, he⟩ := Option.map_eq_some_iff.mp h
  exact ⟨w, hw, he, second_loop_aborts (new_newMachine 0) hw (by decide)⟩

end PacketMachine.Facade
