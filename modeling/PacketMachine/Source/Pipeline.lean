import PacketMachine.Channel.RingBuffer
import PacketMachine.Decode.Payload
import PacketMachine.Source.Pcap

/-!
# From libpcap to the kernel thread

`Input::thread_main` (`packetmachine.cc:54-77`) and the loop of `Kernel::thread_main`
(`kernel.cc:92-132`) around one packet channel, as a system of two threads. The channel is the
`RingBuffer` of `Channel/RingBuffer.lean` with all its atomic actions, and its slots are `Packet`s
over one memory, as the constructor makes them.

* The capture thread is the producer. It fills the slot it retained by `Capture::read`, and leaves
  its loop at the first result that is neither `OK` nor `NONE`.
* The kernel thread is the consumer. What it does with a packet is a parameter (`body`): it reads
  the packet object and the bytes behind `buf_`, at the end of the time it has them, while the
  capture thread goes on.
* libpcap may return anything at any call, and memory may be found or not at any call.
* `throw` out of `thread_main` ends the program. Here the kernel thread may go on, so that all that
  happens before the end is covered.
* `delivered` are the packets that `read` returned `OK` for, and `worked` what the kernel thread has
  done with. No action reads them.

Results:
* `Inv`, `inv_step`: the buffers of the slots are apart, and every packet that the kernel thread has
  not done with lies in its slot as libpcap gave it.
* **`work_sees_frame`**: as long as the kernel thread has a packet, the object and its bytes are
  what libpcap gave.
* **`pipeline_sequential`**: the kernel thread is where the loop body alone, on the first packets in
  order, would be.
-/

namespace PacketMachine.Source

open PacketMachine.Lib
open PacketMachine.RingBuffer (RingSize)

/-! ## What the kernel thread reads -/

/-- Where the blocks lie: no block reaches the end of the addresses. -/
structure Layout where
  addr : Nat → Nat
  fits : ∀ i, addr i + 2 ^ 32 ≤ 2 ^ 64

/-- What the loop body is given: `cap_len()`, and the packet as the decoder sees it. -/
structure Received where
  capLen : Nat
  pkt : Decode.Packet

/-- The packet object and the bytes behind `buf_`. -/
def Packet.received (lay : Layout) (h : Heap) (pkt : Packet) : Except MemFault Received := do
  let data ← h.load pkt.bufPtr pkt.len
  let addr := pkt.buf.elim 0 lay.addr
  if fits : addr + data.length < 2 ^ 64 then return ⟨pkt.capLen, addr, data, pkt.tv, fits⟩
  else throw .bounds

/-- What the loop body is given is what libpcap gave. -/
structure Matches (f : Frame) (r : Received) : Prop where
  capLen : r.capLen = f.data.length
  data : r.pkt.data = f.data
  tv : r.pkt.tv = f.tv

/-- A packet that carries a frame can be read, and is that frame. -/
theorem received_of_carries (lay : Layout) {h : Heap} {pkt : Packet} {f : Frame}
    (hc : Carries h pkt f) : ∃ r, pkt.received lay h = .ok r ∧ Matches f r := by
  have hload : h.load pkt.bufPtr pkt.len = .ok f.data :=
    load_eq_ok_iff.mpr ⟨hc.bears.held, hc.bears.len.symm⟩
  have hfits : pkt.buf.elim 0 lay.addr + f.data.length < 2 ^ 64 := by
    have hlt := f.lt
    cases hb : pkt.buf with
    | none => exact absurd hb hc.bears.live
    | some i =>
      have := lay.fits i
      simp only [Option.elim_some]
      omega
  refine ⟨⟨pkt.capLen, _, f.data, pkt.tv, hfits⟩, ?_, hc.capLen, rfl, hc.tv⟩
  unfold Packet.received
  rw [hload]
  exact dif_pos hfits

/-! ## The two threads -/

/-- Where `Input::thread_main` stands. -/
inductive Input where
  /-- At `retain`, or in it. -/
  | top
  /-- Has a slot, at `cap_->read(pkt)`. -/
  | read
  /-- `read` has returned `OK`: at `push`, or in it. -/
  | push
  /-- `read` has returned `ERROR` or `EXIT`: at `close`. -/
  | close (rc : Result)
  /-- Behind `close`. -/
  | closed (rc : Result)
  /-- Has returned. -/
  | returned
  /-- Has thrown a `RunTimeError`. -/
  | threw (text : String)
  deriving DecidableEq, Repr

/-- Where the loop of `Kernel::thread_main` stands. -/
inductive Phase where
  /-- At `pull`, or in it. -/
  | pull
  /-- `pull` has returned this slot. -/
  | work (d : Nat)
  deriving DecidableEq, Repr

/-- The channel with its slots, the memory, the source, and what the kernel thread has. -/
structure System (κ : Type) where
  ring : RingBuffer.State Packet
  heap : Heap
  cap : Capture
  input : Input := .top
  phase : Phase := .pull
  kernel : κ
  delivered : List Frame := []
  worked : List Received := []

/-- The actions of both threads. Those inside the channel have the names they have there. -/
inductive Action where
  | retain
  | testFull
  | take
  /-- `cap_->read(pkt)`, with what libpcap returns, and whether memory is found. -/
  | read (next : Next) (found : Bool)
  | push
  | put
  | commit
  | close
  /-- `break`, or `throw`. -/
  | leave
  | pull
  | testEmpty
  | testClosed
  | slot
  | give
  /-- The loop body of the kernel thread. -/
  | work

section Step

variable {κ : Type}

/-- The packets that libpcap returned. -/
def Next.frames : Next → List Frame
  | .packet f => [f]
  | _ => []

/-- Where `read` leads to. -/
def Input.after : Result → Input
  | .ok => .push
  | .none => .read
  | rc => .close rc

/-- An action inside the channel. -/
def System.channel (N : RingSize) (s : System κ) (a : RingBuffer.Action Packet) :
    Option (System κ) :=
  (RingBuffer.step N s.ring a).map fun r => { s with ring := r }

/-- The same, of the capture thread when it stands at `i`, and is at `j` afterwards. -/
def System.inputs (N : RingSize) (s : System κ) (i j : Input) (a : RingBuffer.Action Packet) :
    Option (System κ) :=
  if s.input = i then (s.channel N a).map fun s => { s with input := j } else none

/-- The same, of the kernel thread in `pull`. -/
def System.pulls (N : RingSize) (s : System κ) (a : RingBuffer.Action Packet) :
    Option (System κ) :=
  if s.phase = .pull then s.channel N a else none

/-- One action. -/
def System.step (N : RingSize) (lay : Layout) (body : κ → Received → Except Decode.Fault κ)
    (s : System κ) : Action → Option (System κ)
  | .retain => s.inputs N .top .top .retain
  | .testFull => s.inputs N .top .top .testFull
  | .take => s.inputs N .top .read .take
  | .read next found => match s.input, s.ring.prod with
    | .read, .own d => match s.cap.read s.heap (s.ring.mem d) next found with
      | .ok (cap, h, pkt, rc) => (RingBuffer.step N s.ring (.fill pkt)).map fun r => { s with
          ring := r, heap := h, cap, input := .after rc
          delivered := s.delivered ++ if rc = .ok then next.frames else [] }
      | .error _ => none
    | _, _ => none
  | .push => s.inputs N .push .push .push
  | .put => s.inputs N .push .push .put
  | .commit => s.inputs N .push .top .commit
  | .close => match s.input with
    | .close rc => s.inputs N (.close rc) (.closed rc) .close
    | _ => none
  | .leave => match s.input with
    | .closed .error => some { s with input := .threw s.cap.error }
    | .closed _ => some { s with input := .returned }
    | _ => none
  | .pull => s.pulls N .pull
  | .testEmpty => s.pulls N .testEmpty
  | .testClosed => s.pulls N .testClosed
  | .slot => s.pulls N .read
  | .give => match s.ring.cons with
    | .give _ d => (s.pulls N .give).map fun s => { s with phase := .work d }
    | _ => none
  | .work => match s.phase with
    | .work d => match (s.ring.mem d).received lay s.heap with
      | .ok r => match body s.kernel r with
        | .ok k => some { s with phase := .pull, kernel := k, worked := s.worked ++ [r] }
        | .error _ => none
      | .error _ => none
    | .pull => none

/-- Both threads before their first action: the slots are new packets, with whatever their members
are at first, and the source is ready. -/
structure Start (s : System κ) (k₀ : κ) : Prop where
  ring : ∃ mem, s.ring = RingBuffer.init mem ∧ ∀ d, ∃ len capLen tv, mem d = .new len capLen tv
  ready : s.cap.ready = true
  rest : s = { ring := s.ring, heap := s.heap, cap := s.cap, kernel := k₀ }

end Step

/-! ## The invariant -/

/-- The positions of the capture thread in its loop and in the channel belong together. -/
def Stands : Input → RingBuffer.Producer → Prop
  | .top, .idle => True
  | .top, .wait _ => True
  | .top, .take _ => True
  | .read, .own _ => True
  | .push, .own _ => True
  | .push, .put _ _ => True
  | .push, .commit _ _ => True
  | .close _, .own _ => True
  | .closed _, .closed => True
  | .returned, .closed => True
  | .threw _, .closed => True
  | _, _ => False

/-- The invariant of the two threads. -/
structure Inv {κ : Type} (N : RingSize) (body : κ → Received → Except Decode.Fault κ) (k₀ : κ)
    (s : System κ) : Prop where
  ring : RingBuffer.Inv N s.ring
  owns : ∀ d, Owns s.heap (s.ring.mem d)
  /-- No two slots have one buffer. -/
  apart : ∀ d e i, (s.ring.mem d).buf = some i → (s.ring.mem e).buf = some i → d = e
  /-- A packet that was read is pushed before the next one is. -/
  count : s.delivered.length = s.ring.pushed.length + if s.input = .push then 1 else 0
  /-- The packets not yet pulled, and the one pulled last, lie in their slots as they were read. -/
  carries : ∀ j f, s.ring.pulled.length ≤ j + 1 → s.delivered[j]? = some f →
    Carries s.heap (s.ring.mem ((j + 1) % N.size)) f
  stands : Stands s.input s.ring.prod
  working : ∀ d, s.phase = .work d → s.ring.cons = .idle ∧ s.ring.last = some d
  pulled : s.ring.pulled.length = s.worked.length + if s.phase = .pull then 0 else 1
  matched : List.Forall₂ Matches (s.delivered.take s.worked.length) s.worked
  kernel : s.worked.foldlM body k₀ = .ok s.kernel
  ready : s.input = .top ∨ s.input = .read ∨ s.input = .push → s.cap.ready = true

section Invariant

variable {κ : Type} {N : RingSize} {lay : Layout} {body : κ → Received → Except Decode.Fault κ}
  {k₀ : κ} {s s' : System κ}

theorem inv_start (h : Start s k₀) : Inv N body k₀ s := by
  obtain ⟨⟨mem, hring, hnew⟩, hready, hrest⟩ := h
  have hbuf : ∀ d, (s.ring.mem d).buf = none := by
    intro d
    obtain ⟨len, capLen, tv, hd⟩ := hnew d
    rw [hring]
    exact (congrArg Packet.buf hd).trans rfl
  rw [hrest]
  refine ⟨hring ▸ RingBuffer.inv_init N mem, fun d i hi => ?_, fun d e i hi => ?_, ?_, ?_, ?_, ?_,
    ?_, .nil, rfl, fun _ => hready⟩
  · rw [hbuf] at hi
    cases hi
  · rw [hbuf] at hi
    cases hi
  · rw [hring]
    rfl
  · intro j f _ hf
    cases hf
  · rw [hring]
    trivial
  · rintro d ⟨⟩
  · rw [hring]
    rfl

/-! ### Actions inside the channel -/

/-- An action that moves the threads about in the channel, and no items. -/
structure Quiet (r r' : RingBuffer.State Packet) : Prop where
  mem : r'.mem = r.mem
  pushed : r'.pushed = r.pushed
  pulled : r'.pulled = r.pulled
  last : r'.last = r.last

/-- The positions of the producer before and after each of its actions. -/
theorem producer_step {r r' : RingBuffer.State Packet} {a : RingBuffer.Action Packet}
    (h : RingBuffer.step N r a = some r')
    (ha : a = .retain ∨ a = .testFull ∨ a = .take ∨ a = .push ∨ a = .put ∨ a = .close) :
    Quiet r r' ∧ r'.cons = r.cons := by
  rcases ha with rfl | rfl | rfl | rfl | rfl | rfl <;> simp only [RingBuffer.step] at h <;>
    split at h <;> cases h <;> exact ⟨⟨rfl, rfl, rfl, rfl⟩, rfl⟩

/-- The same of the consumer. -/
theorem consumer_step {r r' : RingBuffer.State Packet} {a : RingBuffer.Action Packet}
    (h : RingBuffer.step N r a = some r')
    (ha : a = .pull ∨ a = .testEmpty ∨ a = .testClosed ∨ a = .read) :
    Quiet r r' ∧ r'.prod = r.prod := by
  rcases ha with rfl | rfl | rfl | rfl <;> simp only [RingBuffer.step] at h <;>
    split at h <;> cases h <;> exact ⟨⟨rfl, rfl, rfl, rfl⟩, rfl⟩

/-- What a step of the capture thread inside the channel takes. -/
theorem inputs_eq {i j : Input} {a : RingBuffer.Action Packet} (h : s.inputs N i j a = some s') :
    s.input = i ∧ ∃ r, RingBuffer.step N s.ring a = some r ∧
      s' = { s with ring := r, input := j } := by
  unfold System.inputs System.channel at h
  rw [Option.ite_none_right_eq_some, Option.map_map, Option.map_eq_some_iff] at h
  obtain ⟨hi, r, hr, rfl⟩ := h
  exact ⟨hi, r, hr, rfl⟩

theorem pulls_eq {a : RingBuffer.Action Packet} (h : s.pulls N a = some s') :
    s.phase = .pull ∧ ∃ r, RingBuffer.step N s.ring a = some r ∧ s' = { s with ring := r } := by
  unfold System.pulls System.channel at h
  rw [Option.ite_none_right_eq_some, Option.map_eq_some_iff] at h
  obtain ⟨hi, r, hr, rfl⟩ := h
  exact ⟨hi, r, hr, rfl⟩

/-- Both threads stay where they are but for their positions. -/
theorem Inv.quiet (h : Inv N body k₀ s) {r : RingBuffer.State Packet} {j : Input}
    (hring : RingBuffer.Inv N r) (hq : Quiet s.ring r) (hj : s.input = .push ↔ j = .push)
    (hstands : Stands j r.prod)
    (hwork : ∀ d, s.phase = .work d → r.cons = .idle)
    (hready : j = .top ∨ j = .read ∨ j = .push → s.cap.ready = true) :
    Inv N body k₀ { s with ring := r, input := j } := by
  obtain ⟨hm, hpush, hpull, hlast⟩ := hq
  refine ⟨hring, ?_, ?_, ?_, ?_, hstands, ?_, ?_, h.matched, h.kernel, hready⟩
  · rw [hm]
    exact h.owns
  · rw [hm]
    exact h.apart
  · simp only [hpush, ← hj]
    exact h.count
  · simp only [hm, hpull]
    exact h.carries
  · intro d hd
    exact ⟨hwork d hd, hlast.trans (h.working d hd).2⟩
  · rw [hpull]
    exact h.pulled

/-- A step of the capture thread inside the channel, but for the end of `push`. -/
theorem Inv.inputs (h : Inv N body k₀ s) {i j : Input} {a : RingBuffer.Action Packet}
    (hs : s.inputs N i j a = some s')
    (ha : a = .retain ∨ a = .testFull ∨ a = .take ∨ a = .push ∨ a = .put ∨ a = .close)
    (hij : i = .push ↔ j = .push)
    (hstands : ∀ r, RingBuffer.step N s.ring a = some r → Stands i s.ring.prod → Stands j r.prod)
    (hready : j = .top ∨ j = .read ∨ j = .push → i = .top ∨ i = .read ∨ i = .push) :
    Inv N body k₀ s' := by
  obtain ⟨rfl, r, hr, rfl⟩ := inputs_eq hs
  obtain ⟨hq, hcons⟩ := producer_step hr ha
  exact h.quiet (RingBuffer.step_inv h.ring hr) hq hij (hstands r hr h.stands)
    (fun d hd => hcons.trans (h.working d hd).1) fun hj => h.ready (hready hj)

/-- A step of the kernel thread inside `pull`, but for its end. -/
theorem Inv.pulls (h : Inv N body k₀ s) {a : RingBuffer.Action Packet}
    (hs : s.pulls N a = some s') (ha : a = .pull ∨ a = .testEmpty ∨ a = .testClosed ∨ a = .read) :
    Inv N body k₀ s' := by
  obtain ⟨hphase, r, hr, rfl⟩ := pulls_eq hs
  obtain ⟨hq, hprod⟩ := consumer_step hr ha
  refine h.quiet (RingBuffer.step_inv h.ring hr) hq Iff.rfl (hprod ▸ h.stands) ?_ h.ready
  intro d hd
  rw [hphase] at hd
  cases hd

/-! ### `cap_->read(pkt)` -/

/-- What is in a slot stays when the block of its buffer does. -/
theorem Carries.same {h h' : Heap} {pkt : Packet} {f : Frame} (hc : Carries h pkt f)
    (hh : pkt.buf.bind h'.block? = pkt.buf.bind h.block?) : Carries h' pkt f :=
  ⟨hc.bears.same hh, hc.capLen, hc.tv⟩

/-- A slot is filled: the buffers of the others are not touched. -/
theorem Inv.other (h : Inv N body k₀ s) {d e : Nat} {h' : Heap} {pkt : Packet}
    (hf : Filled s.heap h' (s.ring.mem d) pkt) (he : e ≠ d) :
    (s.ring.mem e).buf.bind h'.block? = (s.ring.mem e).buf.bind s.heap.block? := by
  cases hb : (s.ring.mem e).buf with
  | none => rfl
  | some i =>
    exact hf.same i (fun hd => he (h.apart e d i hb hd)) ((h.owns e).lt hb)

/-- The slot that the capture thread has is filled, and comes to carry what is in `new`. -/
theorem Inv.filled (h : Inv N body k₀ s) {d : Nat} (hi : s.input = .read)
    (hd : s.ring.prod = .own d) {h' : Heap} {pkt : Packet} {r : RingBuffer.State Packet}
    (hf : Filled s.heap h' (s.ring.mem d) pkt)
    (hr : RingBuffer.step N s.ring (.fill pkt) = some r) {c : Capture} {j : Input}
    {new : List Frame} (hnew : new.length = if j = .push then 1 else 0)
    (hcarries : ∀ f ∈ new, Carries h' pkt f) (hstands : Stands j (.own d))
    (hready : j = .top ∨ j = .read ∨ j = .push → c.ready = true) :
    Inv N body k₀ { s with
      ring := r, heap := h', cap := c, input := j, delivered := s.delivered ++ new } := by
  have hring := RingBuffer.step_inv h.ring hr
  have hprod := h.ring.prod
  have hcount := h.count
  simp only [RingBuffer.step, hd] at hr
  obtain rfl := Option.some.inj hr
  rw [hd] at hprod
  obtain ⟨hslot, hfree⟩ := hprod
  rw [hi, if_neg (by simp)] at hcount
  have hmem : ∀ e, e ≠ d → Function.update s.ring.mem d pkt e = s.ring.mem e :=
    fun e he => Function.update_of_ne he _ _
  have hle := h.ring.le
  have hdone : s.worked.length ≤ s.delivered.length := by
    have := h.pulled
    split at this <;> omega
  refine ⟨hring, fun e => ?_, fun e e' i he he' => ?_, ?_, fun j f hj hjf => ?_, ?_, h.working,
    h.pulled, ?_, h.kernel, hready⟩
  · by_cases hed : e = d
    · subst hed
      simpa only [Function.update_self] using hf.owns
    · simp only [hmem e hed]
      refine (h.owns e).congr rfl rfl fun i hei => ?_
      have hsame := h.other hf hed
      rw [hei] at hsame
      exact congrArg (Option.map List.length) hsame
  · -- the new buffer is the old one of the slot, or younger than all the others
    have hnew : ∀ e, e ≠ d → (s.ring.mem e).buf = some i → pkt.buf = some i → False := by
      intro e hed hei hpi
      rcases hf.buf i hpi with hdi | hge
      · exact hed (h.apart e d i hei hdi)
      · exact absurd ((h.owns e).lt hei) (Nat.not_lt.mpr hge)
    by_cases hed : e = d
    · by_cases hed' : e' = d
      · rw [hed, hed']
      · subst hed
        simp only [Function.update_self] at he
        simp only [hmem e' hed'] at he'
        exact (hnew e' hed' he' he).elim
    · by_cases hed' : e' = d
      · subst hed'
        simp only [Function.update_self] at he'
        simp only [hmem e hed] at he
        exact (hnew e hed he he').elim
      · simp only [hmem e hed] at he
        simp only [hmem e' hed'] at he'
        exact h.apart e e' i he he'
  · simp only [List.length_append, hnew, hcount, Nat.add_zero]
  · rcases Nat.lt_or_ge j s.delivered.length with hlt | hge
    · have hne : (j + 1) % N.size ≠ d := by
        rw [hslot]
        exact RingBuffer.free_slot hfree hj (by omega)
      rw [List.getElem?_append_left hlt] at hjf
      simp only [hmem _ hne]
      exact (h.carries j f hj hjf).same (h.other hf hne)
    · rw [List.getElem?_append_right hge] at hjf
      obtain ⟨hlt, hget⟩ := List.getElem?_eq_some_iff.mp hjf
      have hj' : j = s.ring.pushed.length := by
        split at hnew <;> omega
      rw [hj', ← hslot]
      simp only [Function.update_self]
      exact hcarries f (hget ▸ List.getElem_mem hlt)
  · simpa only [hd] using hstands
  · rw [List.take_append_of_le_length hdone]
    exact h.matched

/-- **`read` keeps the invariant**, whatever libpcap returns and whether memory is found. -/
theorem Inv.read (h : Inv N body k₀ s) {next : Next} {found : Bool}
    (hs : System.step N lay body s (.read next found) = some s') : Inv N body k₀ s' := by
  simp only [System.step] at hs
  split at hs
  · rename_i d hi hd
    have hready := h.ready (.inr (.inl hi))
    split at hs
    · rename_i c h₁ pkt rc hread
      obtain ⟨r, hr, rfl⟩ := Option.map_eq_some_iff.mp hs
      by_cases hn : ∃ f, next = .packet f
      · obtain ⟨f, rfl⟩ := hn
        have hspec := read_packet hready (h.owns d) f found
        split at hspec
        · obtain ⟨h₂, pkt₂, hread₂, hfilled, hcarries⟩ := hspec
          obtain ⟨rfl, rfl, rfl, rfl⟩ : c = s.cap ∧ h₁ = h₂ ∧ pkt = pkt₂ ∧ rc = .ok := by
            simpa [hread] using hread₂
          exact h.filled hi hd hfilled hr rfl (by simpa [Next.frames] using hcarries) trivial
            fun _ => hready
        · obtain ⟨h₂, pkt₂, hread₂, hfilled⟩ := hspec
          obtain ⟨rfl, rfl, rfl, rfl⟩ : c = s.cap.setError "memory allocation error" ∧ h₁ = h₂ ∧
              pkt = pkt₂ ∧ rc = .error := by
            simpa [hread] using hread₂
          exact h.filled hi hd hfilled hr rfl (by simp) trivial (by simp [Input.after])
      · obtain ⟨rfl, rfl, hrest⟩ := read_rest (fun _ f hf => hn ⟨f, hf⟩) found hread
        have hfilled : Filled s.heap s.heap (s.ring.mem d) (s.ring.mem d) :=
          ⟨h.owns d, fun i hi => .inl hi, fun _ _ _ => rfl, le_refl _⟩
        rcases hrest with ⟨rfl, rfl, -⟩ | ⟨-, ⟨rfl, -⟩ | ⟨rfl, -⟩⟩
        · exact h.filled hi hd hfilled hr rfl (by simp) trivial fun _ => hready
        · exact h.filled hi hd hfilled hr rfl (by simp) trivial (by simp [Input.after])
        · exact h.filled hi hd hfilled hr rfl (by simp) trivial (by simp [Input.after])
    · cases hs
  · cases hs

/-! ### The other actions -/

/-- `push` returns. -/
theorem Inv.commit (h : Inv N body k₀ s) (hs : s.inputs N .push .top .commit = some s') :
    Inv N body k₀ s' := by
  obtain ⟨hi, r, hr, rfl⟩ := inputs_eq hs
  have hring := RingBuffer.step_inv h.ring hr
  have hcount := h.count
  rw [hi, if_pos rfl] at hcount
  simp only [RingBuffer.step] at hr
  split at hr <;> cases hr
  refine ⟨hring, h.owns, h.apart, ?_, h.carries, trivial, h.working, h.pulled, h.matched, h.kernel,
    fun _ => h.ready (.inr (.inr hi))⟩
  simpa using hcount

/-- `pull` returns a slot. -/
theorem Inv.give (h : Inv N body k₀ s)
    (hs : System.step N lay body s .give = some s') : Inv N body k₀ s' := by
  simp only [System.step] at hs
  split at hs
  · rename_i n d hd
    obtain ⟨t, ht, rfl⟩ := Option.map_eq_some_iff.mp hs
    obtain ⟨hphase, r, hr, rfl⟩ := pulls_eq ht
    have hring := RingBuffer.step_inv h.ring hr
    have hpulled := h.pulled
    rw [hphase, if_pos rfl] at hpulled
    simp only [RingBuffer.step, hd] at hr
    obtain rfl := Option.some.inj hr
    refine ⟨hring, h.owns, h.apart, h.count, fun j f hj hf => ?_, h.stands, ?_, ?_, h.matched,
      h.kernel, h.ready⟩
    · simp only [List.length_append, List.length_singleton] at hj
      exact h.carries j f (by omega) hf
    · intro e he
      cases he
      exact ⟨rfl, rfl⟩
    · simp [hpulled]
  · cases hs

/-- **What the kernel thread has** is the packet that libpcap gave in its turn, in a slot that the
capture thread does not have. -/
theorem Inv.works (h : Inv N body k₀ s) {d : Nat} (hd : s.phase = .work d) :
    ∃ f, s.delivered[s.worked.length]? = some f ∧ Carries s.heap (s.ring.mem d) f ∧
      s.ring.prod.owned ≠ some d := by
  have hpulled := h.pulled
  rw [hd, if_neg (by simp)] at hpulled
  have hcount := h.count
  have hle := h.ring.le
  obtain ⟨-, hslot, -⟩ := h.ring.last_item (h.working d hd).2
  have hlt : s.worked.length < s.delivered.length := by
    split at hcount <;> omega
  refine ⟨s.delivered[s.worked.length], List.getElem?_eq_getElem hlt, ?_, fun ho => ?_⟩
  · rw [hslot, hpulled]
    exact h.carries _ _ (by omega) (List.getElem?_eq_getElem hlt)
  · obtain ⟨hd', hfree⟩ := h.ring.owned ho
    rw [hslot] at hd'
    have := RingBuffer.eq_of_mod_eq (by omega) (by omega) hd'
    omega

/-- The kernel thread is done with a packet. -/
theorem Inv.work (h : Inv N body k₀ s)
    (hs : System.step N lay body s .work = some s') : Inv N body k₀ s' := by
  simp only [System.step] at hs
  split at hs
  · rename_i d hd
    obtain ⟨f, hf, hcarries, -⟩ := h.works hd
    obtain ⟨r, hr, hmatches⟩ := received_of_carries lay hcarries
    rw [hr] at hs
    dsimp only at hs
    split at hs
    · rename_i k hk
      obtain rfl := Option.some.inj hs
      have hpulled := h.pulled
      rw [hd, if_neg (by simp)] at hpulled
      refine ⟨h.ring, h.owns, h.apart, h.count, h.carries, h.stands, ?_, ?_, ?_, ?_, h.ready⟩
      · rintro e ⟨⟩
      · simpa using hpulled
      · rw [List.length_append, List.length_singleton, List.take_add_one, hf]
        exact List.rel_append h.matched (.cons hmatches .nil)
      · rw [List.foldlM_append, h.kernel]
        simp only [List.foldlM_cons, List.foldlM_nil]
        exact (congrArg (· >>= pure) hk).trans rfl
    · cases hs
  · cases hs

/-- `break`, or `throw`. -/
theorem Inv.leave (h : Inv N body k₀ s)
    (hs : System.step N lay body s .leave = some s') : Inv N body k₀ s' := by
  have hstands := h.stands
  have hcount := h.count
  have hend : ∀ rc, s.input = .closed rc → ∀ j, (∀ p, Stands (.closed rc) p → Stands j p) →
      j ≠ .push → (¬ (j = .top ∨ j = .read ∨ j = .push)) →
      Inv N body k₀ { s with input := j } := by
    intro rc hi j hj hpush hready
    refine ⟨h.ring, h.owns, h.apart, ?_, h.carries, hj _ (hi ▸ hstands), h.working, h.pulled,
      h.matched, h.kernel, fun hr => absurd hr hready⟩
    rw [hi, if_neg (by simp)] at hcount
    rw [if_neg hpush]
    exact hcount
  have hpos : ∀ rc j, (∀ p, Stands j p ↔ p = .closed) →
      ∀ p, Stands (.closed rc) p → Stands j p := by
    intro rc j hj p hp
    cases p <;> first | exact (hj _).mpr rfl | exact hp.elim
  simp only [System.step] at hs
  split at hs
  · rename_i hi
    obtain rfl := Option.some.inj hs
    refine hend _ hi _ (hpos _ _ fun p => ?_) (by simp) (by simp)
    cases p <;> simp [Stands]
  · rename_i rc _ hi
    obtain rfl := Option.some.inj hs
    refine hend _ hi _ (hpos _ _ fun p => ?_) (by simp) (by simp)
    cases p <;> simp [Stands]
  · cases hs

/-- **Every action keeps the invariant.** -/
theorem inv_step (h : Inv N body k₀ s) {a : Action} (hs : System.step N lay body s a = some s') :
    Inv N body k₀ s' := by
  cases a with
  | retain =>
    refine h.inputs hs (by simp) Iff.rfl (fun r hr hst => ?_) id
    simp only [RingBuffer.step] at hr
    split at hr <;> cases hr
    trivial
  | testFull =>
    refine h.inputs hs (by simp) Iff.rfl (fun r hr hst => ?_) id
    simp only [RingBuffer.step] at hr
    split at hr <;> cases hr
    split <;> trivial
  | take =>
    refine h.inputs hs (by simp) (by simp) (fun r hr hst => ?_) (by simp)
    simp only [RingBuffer.step] at hr
    split at hr <;> cases hr
    trivial
  | read next found => exact h.read hs
  | push =>
    refine h.inputs hs (by simp) Iff.rfl (fun r hr hst => ?_) id
    simp only [RingBuffer.step] at hr
    split at hr <;> cases hr
    trivial
  | put =>
    refine h.inputs hs (by simp) Iff.rfl (fun r hr hst => ?_) id
    simp only [RingBuffer.step] at hr
    split at hr <;> cases hr
    trivial
  | commit => exact h.commit hs
  | close =>
    simp only [System.step] at hs
    split at hs
    · refine h.inputs hs (by simp) (by simp) (fun r hr hst => ?_) (by simp)
      simp only [RingBuffer.step] at hr
      split at hr <;> cases hr <;> trivial
    · cases hs
  | leave => exact h.leave hs
  | pull => exact h.pulls hs (by simp)
  | testEmpty => exact h.pulls hs (by simp)
  | testClosed => exact h.pulls hs (by simp)
  | slot => exact h.pulls hs (by simp)
  | give => exact h.give hs
  | work => exact h.work hs

/-- **The invariant holds in every interleaving.** -/
theorem exec_inv {tr : List Action} {s₀ : System κ} (h₀ : Start s₀ k₀)
    (h : exec (System.step N lay body) s₀ tr = some s) : Inv N body k₀ s :=
  exec_invariant (inv_start h₀) (fun _ _ _ hi hs => inv_step hi hs) h

/-! ## What the kernel thread sees -/

/-- **The packet that `pull` returned stays as it is until the loop body is through with it**, in
every interleaving with the capture thread, which goes on filling other slots: its members are those
that libpcap gave in this turn, all its bytes are there, and the capture thread does not have its
slot. -/
theorem work_sees_frame {tr : List Action} {s₀ : System κ} (h₀ : Start s₀ k₀)
    (h : exec (System.step N lay body) s₀ tr = some s) {d : Nat} (hd : s.phase = .work d) :
    ∃ f r, s.delivered[s.worked.length]? = some f ∧ Carries s.heap (s.ring.mem d) f ∧
      (s.ring.mem d).received lay s.heap = .ok r ∧ Matches f r ∧
      s.ring.prod.owned ≠ some d := by
  obtain ⟨f, hf, hcarries, howned⟩ := (exec_inv h₀ h).works hd
  obtain ⟨r, hr, hmatches⟩ := received_of_carries lay hcarries
  exact ⟨f, r, hf, hcarries, hr, hmatches, howned⟩

/-- What the kernel thread is done with, and how much of it is still to come. -/
theorem Inv.behind (h : Inv N body k₀ s) : s.worked.length ≤ s.delivered.length ∧
    s.delivered.length ≤ s.worked.length + N.size + 1 := by
  have hcount := h.count
  have hpulled := h.pulled
  have hle := h.ring.le
  have hlt := h.ring.lt
  constructor
  · split at hpulled <;> omega
  · split at hcount <;> split at hpulled <;> omega

/-- **The kernel thread is where a sequential program would be** that takes the packets one after
the other from libpcap: it has run its loop body on the first of them, in order, each once and as
libpcap gave it. At most a ring of packets and one more are still to come. -/
theorem pipeline_sequential {tr : List Action} {s₀ : System κ} (h₀ : Start s₀ k₀)
    (h : exec (System.step N lay body) s₀ tr = some s) :
    ∃ rs : List Received, rs.foldlM body k₀ = .ok s.kernel ∧
      List.Forall₂ Matches (s.delivered.take rs.length) rs ∧
      rs.length ≤ s.delivered.length ∧ s.delivered.length ≤ rs.length + N.size + 1 :=
  have hi := exec_inv h₀ h
  ⟨s.worked, hi.kernel, hi.matched, hi.behind⟩

end Invariant

/-! ## A run -/

/-- Blocks that are all at one place. -/
def flatLayout : Layout := ⟨fun _ => 4096, fun _ => by decide⟩

/-- A loop body that adds up the lengths. -/
def sumLengths (n : Nat) (r : Received) : Except Decode.Fault Nat := .ok (n + r.capLen)

/-- An open file, and a ring of new packets. -/
def fileStart {κ : Type} (k : κ) : System κ where
  ring := RingBuffer.init fun _ => .new 0 0 ⟨0, 0⟩
  heap := {}
  cap := PcapFile.new "a.pcap" none
  kernel := k

theorem start_fileStart {κ : Type} (k : κ) : Start (fileStart k) k :=
  ⟨⟨_, rfl, fun _ => ⟨0, 0, ⟨0, 0⟩, rfl⟩⟩, rfl, rfl⟩

/-- A packet of three bytes. -/
def threeBytes : Frame := ⟨[7, 8, 9], ⟨5, 6⟩, by decide⟩

/-- The first packet is pulled while the capture thread has the other slot. -/
def runPulled : List Action :=
  [.retain, .testFull, .take, .read (.packet threeBytes) true, .push, .put, .commit,
    .pull, .testEmpty, .slot, .give, .retain, .testFull, .take]

theorem work_sees_frame_runPulled :
    ∃ s, exec (System.step RingBuffer.ringTwo flatLayout sumLengths)
        (fileStart 0) runPulled = some s ∧
      (s.phase, s.ring.prod) = (.work 1, .own 0) ∧
      ∃ f r, s.delivered[s.worked.length]? = some f ∧ Carries s.heap (s.ring.mem 1) f ∧
        (s.ring.mem 1).received flatLayout s.heap = .ok r ∧ Matches f r ∧
        s.ring.prod.owned ≠ some 1 := by
  have h : (exec (System.step RingBuffer.ringTwo flatLayout sumLengths) (fileStart 0) runPulled).map
      (fun s => (s.phase, s.ring.prod)) = some (.work 1, .own 0) := by decide
  obtain ⟨s, hs, he⟩ := Option.map_eq_some_iff.mp h
  exact ⟨s, hs, he,
    work_sees_frame (start_fileStart 0) hs (congrArg Prod.fst he :)⟩

/-- Behind the loop body the kernel thread has seen one packet. -/
theorem pipeline_sequential_runPulled :
    ∃ s, exec (System.step RingBuffer.ringTwo flatLayout sumLengths) (fileStart 0)
        (runPulled ++ [.work]) = some s ∧ s.kernel = 3 ∧
      ∃ rs : List Received, rs.foldlM sumLengths 0 = .ok s.kernel ∧
        List.Forall₂ Matches (s.delivered.take rs.length) rs ∧
        rs.length ≤ s.delivered.length ∧ s.delivered.length ≤ rs.length + 2 + 1 := by
  have h : (exec (System.step RingBuffer.ringTwo flatLayout sumLengths) (fileStart 0)
      (runPulled ++ [.work])).map (fun s => s.kernel) = some 3 := by decide
  obtain ⟨s, hs, he⟩ := Option.map_eq_some_iff.mp h
  exact ⟨s, hs, he, pipeline_sequential (start_fileStart 0) hs⟩

end PacketMachine.Source
