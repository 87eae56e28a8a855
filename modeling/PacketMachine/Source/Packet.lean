import PacketMachine.Lib.Heap
import PacketMachine.Lib.Run
import PacketMachine.Tcp.Session

/-!
# `Packet`: one buffer for many packets

Model of `Packet` (`packet.hpp`, `packet.cc:36-72`) over a memory of blocks. The slots of the packet
channel are made once and filled again and again, so `store` keeps the buffer it has and asks for
memory only when the buffer is too short.

* `len_`, `cap_len_` and `tv_` are unset at first; `Packet.new` takes any values for them.
* Whether `realloc` finds memory is a parameter of the call. When it does not, `store` overwrites
  `buf_` with `nullptr`: the old block stays allocated, and nothing points to it any more.
* For no bytes and no buffer `realloc` may return `nullptr` as well; that is the same case.

Results:
* `store_spec`: from an owned buffer `store` returns, for every source elsewhere in memory, and
  touches no other block.
* **`packet_refines`**: along every run, with memory found or not, a packet is a `Slot`: the bytes
  stored last and a capacity that only a failure lets shrink.
-/

namespace PacketMachine.Source

open PacketMachine.Lib

/-! ## The code -/

/-- `Packet`. -/
structure Packet where
  len : Nat
  capLen : Nat
  bufLen : Nat
  buf : Option Nat
  tv : Tcp.Timeval
  deriving DecidableEq, Repr

/-- `Packet::Packet`, with whatever the other members are at first. -/
def Packet.new (len capLen : Nat) (tv : Tcp.Timeval) : Packet where
  len := len
  capLen := capLen
  bufLen := 0
  buf := none
  tv := tv

/-- `buf_` as a pointer. -/
def Packet.bufPtr (pkt : Packet) : Pointer := pkt.buf.elim .null fun i => .addr i 0

/-- The test in `Packet::store`. -/
def Packet.NeedsMemory (pkt : Packet) (len : Nat) : Prop := pkt.buf = none ∨ pkt.bufLen < len

instance (pkt : Packet) (len : Nat) : Decidable (pkt.NeedsMemory len) :=
  inferInstanceAs (Decidable (_ ∨ _))

/-- The first part of `Packet::store`, up to the copy: `false` when there is no memory. -/
def Packet.reserve (h : Heap) (pkt : Packet) (len : Nat) (found : Bool) : Heap × Packet × Bool :=
  if pkt.NeedsMemory len then
    if found then
      ((h.realloc pkt.buf len).1,
        { pkt with buf := some (h.realloc pkt.buf len).2, bufLen := len }, true)
    -- the old block is lost, and `buf_len_` stays
    else (h, { pkt with buf := none }, false)
  else (h, pkt, true)

/-- `Packet::store`. -/
def Packet.store (h : Heap) (pkt : Packet) (data : Pointer) (len : Nat) (found : Bool) :
    Except MemFault (Heap × Packet × Bool) := do
  let (h, pkt, ok) := pkt.reserve h len found
  if ok then return (← h.memcpy pkt.bufPtr data len, { pkt with len := len }, true)
  else return (h, pkt, false)

/-- `Packet::set_cap_len`. -/
def Packet.setCapLen (pkt : Packet) (capLen : Nat) : Packet := { pkt with capLen := capLen }

/-- `Packet::set_tv`. -/
def Packet.setTv (pkt : Packet) (tv : Tcp.Timeval) : Packet := { pkt with tv := tv }

/-! ## One call -/

/-- `buf_` is `nullptr` or a live block of `buf_len_` bytes. -/
def Owns (h : Heap) (pkt : Packet) : Prop := ∀ i, pkt.buf = some i → h.size? i = some pkt.bufLen

/-- The bytes of the packet. -/
structure Packet.Bears (h : Heap) (pkt : Packet) (b : List UInt8) : Prop where
  len : pkt.len = b.length
  held : h.Holds pkt.bufPtr b
  live : pkt.buf ≠ none
  room : b.length ≤ pkt.bufLen

section Store

variable {h h' : Heap} {pkt pkt' : Packet} {data : Pointer} {b : List UInt8} {len : Nat}
  {found : Bool}

theorem Owns.lt (hp : Owns h pkt) {i : Nat} (hi : pkt.buf = some i) : i < h.blocks.length := by
  obtain ⟨bs, hbs, -⟩ := Option.map_eq_some_iff.mp (hp i hi)
  exact block?_lt hbs

/-- Only the buffer and its size matter. -/
theorem Owns.congr (hp : Owns h pkt) (hb : pkt'.buf = pkt.buf) (hl : pkt'.bufLen = pkt.bufLen)
    (hh : ∀ i, pkt.buf = some i → h'.size? i = h.size? i) : Owns h' pkt' := by
  intro i hi
  rw [hb] at hi
  rw [hh i hi, hl]
  exact hp i hi

/-- What `reserve` leaves when there is memory. -/
structure Reserved (h h' : Heap) (pkt pkt' : Packet) (len : Nat) : Prop where
  owns : Owns h' pkt'
  live : pkt'.buf ≠ none
  room : pkt'.bufLen = if pkt.NeedsMemory len then len else pkt.bufLen
  /-- The buffer is the old one, or a new block. -/
  buf : pkt'.buf = pkt.buf ∨ pkt'.buf = some h.blocks.length
  /-- All blocks but the old buffer and the new one stay. -/
  same : ∀ j, pkt.buf ≠ some j → j < h.blocks.length → h'.block? j = h.block? j
  le : h.blocks.length ≤ h'.blocks.length
  rest : pkt' = { pkt with buf := pkt'.buf, bufLen := pkt'.bufLen }

theorem reserve_spec (hp : Owns h pkt) (len : Nat) (hf : pkt.NeedsMemory len → found = true) :
    ∃ h' pkt', pkt.reserve h len found = (h', pkt', true) ∧ Reserved h h' pkt pkt' len := by
  unfold Packet.reserve
  by_cases hn : pkt.NeedsMemory len
  · rw [if_pos hn, if_pos (hf hn)]
    refine ⟨_, _, rfl, ?_, by simp, by rw [if_pos hn], ?_, ?_, ?_, rfl⟩
    · intro i hi
      obtain rfl := Option.some.inj hi
      exact size?_realloc h pkt.buf len
    · exact .inr (congrArg some (realloc_number h pkt.buf len))
    · exact fun j hj hlt => block?_realloc_of_ne h len hj hlt
    · rw [realloc_length]
      exact Nat.le_succ _
  · rw [if_neg hn]
    exact ⟨_, _, rfl, hp, fun h0 => hn (.inl h0), by rw [if_neg hn], .inl rfl, fun _ _ _ => rfl,
      le_refl _, rfl⟩

/-- What `store` leaves when there is memory. -/
structure Stored (h h' : Heap) (pkt pkt' : Packet) (b : List UInt8) : Prop where
  owns : Owns h' pkt'
  bears : pkt'.Bears h' b
  room : pkt'.bufLen = if pkt.NeedsMemory b.length then b.length else pkt.bufLen
  buf : pkt'.buf = pkt.buf ∨ pkt'.buf = some h.blocks.length
  same : ∀ j, pkt.buf ≠ some j → j < h.blocks.length → h'.block? j = h.block? j
  le : h.blocks.length ≤ h'.blocks.length
  capLen : pkt'.capLen = pkt.capLen
  tv : pkt'.tv = pkt.tv

/-- The source is not touched before it is copied. -/
theorem Reserved.held (hr : Reserved h h' pkt pkt' len) (hb : h.Holds data b)
    (hd : ∀ i off, pkt.buf = some i → data ≠ .addr i off) : h'.Holds data b := by
  cases data with
  | null => exact hb
  | addr j off =>
    obtain ⟨pre, post, hbs, hoff⟩ := hb
    refine ⟨pre, post, ?_, hoff⟩
    rw [hr.same j (fun hj => hd j off hj rfl) (block?_lt hbs), hbs]

/-- **`store` returns**, whatever the packet held before: the bytes are in the buffer, or there was
no memory for them and the packet is left without a buffer. -/
theorem store_spec (found : Bool) (hp : Owns h pkt) (hb : h.Holds data b)
    (hd : ∀ i off, pkt.buf = some i → data ≠ .addr i off) :
    if pkt.NeedsMemory b.length → found = true then
      ∃ h' pkt', pkt.store h data b.length found = .ok (h', pkt', true) ∧ Stored h h' pkt pkt' b
    else pkt.store h data b.length found = .ok (h, { pkt with buf := none }, false) := by
  split
  · rename_i hf
    obtain ⟨h₁, pkt₁, hres, hr⟩ := reserve_spec hp b.length hf
    obtain ⟨i, hi⟩ := Option.ne_none_iff_exists'.mp hr.live
    obtain ⟨bs, hbs, hlen⟩ := Option.map_eq_some_iff.mp (hr.owns i hi)
    have hroom : b.length ≤ pkt₁.bufLen := by
      rw [hr.room]
      split
      · exact le_refl _
      · rename_i hn
        exact Nat.le_of_not_lt fun hlt => hn (.inr hlt)
    -- the source lies in another block than the buffer
    have hne : ∀ off, data ≠ .addr i off := by
      intro off
      rcases hr.buf with he | he
      · exact hd i off (he ▸ hi)
      · obtain rfl := Option.some.inj (hi.symm.trans he)
        exact hb.ne_new off
    have hcopy := memcpy_front (hr.held hb hd) (overlaps_of_ne hne 0 b.length) hbs (hlen ▸ hroom)
    have hput := block?_put hbs (b.map some ++ bs.drop b.length)
    refine ⟨h₁.put i (b.map some ++ bs.drop b.length), { pkt₁ with len := b.length }, ?_,
      ?_, ⟨rfl, ?_, hr.live, hroom⟩, hr.room, hr.buf, ?_, ?_, ?_, ?_⟩
    · unfold Packet.store Packet.bufPtr
      rw [hres]
      dsimp only
      rw [if_pos rfl, hi, Option.elim_some, hcopy]
      rfl
    · refine hr.owns.congr rfl rfl fun j hj => ?_
      exact congrFun (size?_memcpy hcopy) j
    · unfold Packet.bufPtr
      rw [hi]
      exact ⟨[], bs.drop b.length, by rw [hput, if_pos rfl]; rfl, rfl⟩
    · intro j hj hlt
      rw [hput]
      have hji : j ≠ i := by
        rintro rfl
        rcases hr.buf with he | he
        · exact hj (he ▸ hi)
        · have heq := Option.some.inj (hi.symm.trans he)
          omega
      rw [if_neg hji]
      exact hr.same j hj hlt
    · refine hr.le.trans (Nat.le_of_eq ?_)
      exact (List.length_set).symm
    · exact (congrArg Packet.capLen hr.rest :)
    · exact (congrArg Packet.tv hr.rest :)
  · rename_i hf
    rw [Classical.not_imp] at hf
    unfold Packet.store Packet.reserve
    rw [if_pos hf.1, if_neg hf.2]
    rfl

end Store

/-! ## Every run -/

/-- **What a packet is for**: the bytes stored last, in a buffer with room for `cap`. -/
structure Slot where
  cap : Nat
  data : List UInt8
  deriving DecidableEq, Repr

/-- Bytes are stored: `none` when there was no memory for them. A buffer that is long enough is
kept, and no memory is asked for. -/
def Slot.store (slot : Option Slot) (b : List UInt8) (found : Bool) : Option Slot :=
  match slot with
  | some s =>
    if b.length ≤ s.cap then some ⟨s.cap, b⟩
    else if found then some ⟨b.length, b⟩ else none
  | none => if found then some ⟨b.length, b⟩ else none

/-- The memory, one packet and what its calls of `store` have returned. -/
structure Packet.State where
  heap : Heap
  pkt : Packet
  returned : List Bool := []

/-- A call on the packet, or what the rest of the program leaves of the memory. -/
inductive Packet.Action where
  /-- `store` of bytes that libpcap keeps in a block of its own. -/
  | store (b : List UInt8) (found : Bool)
  | setCapLen (capLen : Nat)
  | setTv (tv : Tcp.Timeval)
  | other (heap : Heap)

/-- One action; there is no step where a call is undefined. -/
def Packet.step (s : State) : Action → Option State
  | .store b found =>
    let src := s.heap.push (b.map some)
    match s.pkt.store src.1 (.addr src.2 0) b.length found with
    | .ok (h, pkt, ok) => some ⟨h, pkt, s.returned ++ [ok]⟩
    | .error _ => none
  | .setCapLen n => some { s with pkt := s.pkt.setCapLen n }
  | .setTv tv => some { s with pkt := s.pkt.setTv tv }
  | .other h =>
    if s.pkt.buf.bind h.block? = s.pkt.buf.bind s.heap.block? then some { s with heap := h }
    else none

/-- The slot after one more call, and what the calls return. -/
def slotStep (r : Option Slot × List Bool) : Packet.Action → Option Slot × List Bool
  | .store b found => (Slot.store r.1 b found, r.2 ++ [(Slot.store r.1 b found).isSome])
  | _ => r

/-- The slot after the calls. -/
def slotAfter (as : List Packet.Action) : Option Slot × List Bool := as.foldl slotStep (none, [])

/-- The packet is the slot. -/
structure Refines (s : Packet.State) (r : Option Slot × List Bool) : Prop where
  owns : Owns s.heap s.pkt
  returned : s.returned = r.2
  empty : r.1 = none → s.pkt.buf = none
  holds : ∀ slot, r.1 = some slot → s.pkt.bufLen = slot.cap ∧ s.pkt.Bears s.heap slot.data

section Runs

variable {s s' : Packet.State} {r : Option Slot × List Bool} {as : List Packet.Action}

/-- What is in the buffer stays when its block does. -/
theorem Packet.Bears.same {h h' : Heap} {pkt : Packet} {b : List UInt8} (hb : pkt.Bears h b)
    (hh : pkt.buf.bind h'.block? = pkt.buf.bind h.block?) : pkt.Bears h' b := by
  refine ⟨hb.len, ?_, hb.live, hb.room⟩
  obtain ⟨i, hi⟩ := Option.ne_none_iff_exists'.mp hb.live
  have hheld := hb.held
  unfold Packet.bufPtr at hheld ⊢
  rw [hi] at hheld hh ⊢
  obtain ⟨pre, post, hbs, hoff⟩ := hheld
  exact ⟨pre, post, hh.trans hbs, hoff⟩

theorem needsMemory_iff (hs : Refines s r) (n : Nat) :
    s.pkt.NeedsMemory n ↔ ∀ slot, r.1 = some slot → slot.cap < n := by
  constructor
  · rintro (hn | hn) slot hslot
    · exact absurd hn (hs.holds slot hslot).2.live
    · rwa [← (hs.holds slot hslot).1]
  · intro hall
    cases hr : r.1 with
    | none => exact .inl (hs.empty hr)
    | some slot =>
      have hlt := hall slot hr
      rw [← (hs.holds slot hr).1] at hlt
      exact .inr hlt

/-- The slot that `store` leads to, by whether it asks for memory and finds it. -/
theorem slot_store_eq (hs : Refines s r) (b : List UInt8) (found : Bool) :
    Slot.store r.1 b found =
      if s.pkt.NeedsMemory b.length → found = true then
        some ⟨if s.pkt.NeedsMemory b.length then b.length else s.pkt.bufLen, b⟩
      else none := by
  have hneeds := needsMemory_iff hs b.length
  cases hr : r.1 with
  | none =>
    have hn : s.pkt.NeedsMemory b.length := .inl (hs.empty hr)
    cases found <;> simp [Slot.store, hn]
  | some slot =>
    simp only [hr, Option.some.injEq, forall_eq'] at hneeds
    by_cases hle : b.length ≤ slot.cap
    · have hn : ¬ s.pkt.NeedsMemory b.length := fun hn => Nat.not_lt.mpr hle (hneeds.mp hn)
      simp [Slot.store, hle, hn, (hs.holds slot hr).1]
    · have hn : s.pkt.NeedsMemory b.length := hneeds.mpr (Nat.lt_of_not_le hle)
      cases found <;> simp [Slot.store, hle, hn]

/-- **A store takes the packet to the next slot.** -/
theorem Refines.store (hs : Refines s r) (b : List UInt8) (found : Bool) :
    ∃ s', Packet.step s (.store b found) = some s' ∧
      Refines s' (Slot.store r.1 b found, r.2 ++ [(Slot.store r.1 b found).isSome]) := by
  have hsrc := holds_push s.heap b
  have howns : Owns (s.heap.push (b.map some)).1 s.pkt :=
    hs.owns.congr rfl rfl fun i hi => by
      unfold Heap.size?
      rw [block?_push, if_neg (Nat.ne_of_lt (hs.owns.lt hi))]
  have hspec := store_spec found howns hsrc fun i off hi he => by
    obtain ⟨rfl, -⟩ := Pointer.addr.inj he
    exact lt_irrefl _ (hs.owns.lt hi)
  have hslot := slot_store_eq hs b found
  split at hspec
  · rename_i hf
    obtain ⟨h', pkt', hst, hstored⟩ := hspec
    rw [if_pos hf] at hslot
    refine ⟨⟨h', pkt', s.returned ++ [true]⟩, ?_, hstored.owns, ?_, ?_, ?_⟩
    · simp only [Packet.step, hst]
    · rw [hslot, hs.returned]
      rfl
    · intro hnone
      rw [hslot] at hnone
      cases hnone
    · intro slot he
      obtain rfl := Option.some.inj (hslot.symm.trans he)
      exact ⟨hstored.room, hstored.bears⟩
  · rename_i hf
    rw [if_neg hf] at hslot
    refine ⟨⟨_, _, s.returned ++ [false]⟩, by simp only [Packet.step, hspec]; rfl, ?_, ?_,
      fun _ => rfl, ?_⟩
    · intro i hi
      cases hi
    · rw [hslot, hs.returned]
      rfl
    · intro slot he
      rw [hslot] at he
      cases he

/-- The other calls change nothing that the slot says. -/
theorem Refines.rest (hs : Refines s r) {h : Heap} {pkt : Packet} (hb : pkt.buf = s.pkt.buf)
    (hn : pkt.bufLen = s.pkt.bufLen) (hl : pkt.len = s.pkt.len)
    (hh : s.pkt.buf.bind h.block? = s.pkt.buf.bind s.heap.block?) :
    Refines { s with heap := h, pkt := pkt } r := by
  refine ⟨hs.owns.congr hb hn fun i hi => ?_, hs.returned, fun hr => hb.trans (hs.empty hr), ?_⟩
  · rw [hi] at hh
    exact congrArg (Option.map List.length) hh
  · intro slot hslot
    obtain ⟨hcap, hbears⟩ := hs.holds slot hslot
    refine ⟨hn.trans hcap, (hl.trans hbears.len), ?_, ?_, ?_⟩
    · have hheld := (hbears.same hh).held
      unfold Packet.bufPtr at hheld ⊢
      rwa [hb]
    · rw [hb]
      exact hbears.live
    · rw [hn]
      exact hbears.room

theorem refines_new (h : Heap) (len capLen : Nat) (tv : Tcp.Timeval) :
    Refines { heap := h, pkt := .new len capLen tv } (slotAfter []) where
  owns := by rintro i ⟨⟩
  returned := rfl
  empty := fun _ => rfl
  holds := by rintro slot ⟨⟩

/-- **Every action takes the packet to its slot.** -/
theorem Refines.step {a : Packet.Action} (hs : Refines s (slotAfter as))
    (h : Packet.step s a = some s') :
    Refines s' (slotAfter (as ++ [a])) := by
  rw [slotAfter, List.foldl_append]
  cases a with
  | store b found =>
    obtain ⟨t, ht, href⟩ := hs.store b found
    obtain rfl := Option.some.inj (h.symm.trans ht)
    exact href
  | setCapLen n =>
    obtain rfl := Option.some.inj h
    exact hs.rest rfl rfl rfl rfl
  | setTv tv =>
    obtain rfl := Option.some.inj h
    exact hs.rest rfl rfl rfl rfl
  | other h' =>
    rw [Packet.step, Option.ite_none_right_eq_some] at h
    obtain ⟨hbuf, h⟩ := h
    obtain rfl := Option.some.inj h
    exact hs.rest rfl rfl rfl hbuf

/-- **A packet is a slot along every run**, from any memory and whatever its members are at first:
`store` returns `true` exactly when the slot takes the bytes, they are what the packet then holds,
and the next `store` can be made. -/
theorem packet_refines (h : Heap) (len capLen : Nat) (tv : Tcp.Timeval)
    (hrun : exec Packet.step { heap := h, pkt := .new len capLen tv } as = some s) :
    Refines s (slotAfter as) ∧ ∀ b found, ∃ s', Packet.step s (.store b found) = some s' :=
  have hs := exec_induct (I := fun as s => Refines s (slotAfter as)) (refines_new h len capLen tv)
    (fun _ _ _ _ hs hstep => hs.step hstep) as hrun
  ⟨hs, fun b found => (hs.store b found).imp fun _ hst => hst.1⟩

end Runs

/-- A packet that is filled, filled with less, refused memory and filled again. -/
def refilled : List Packet.Action :=
  [.store [1, 2, 3] true, .store [4] false, .store [5, 6, 7, 8] false, .store [9] true]

/-- It holds the last byte, in a buffer of one. -/
theorem packet_refines_refilled :
    ∃ s, exec Packet.step { heap := {}, pkt := .new 0 0 ⟨0, 0⟩ } refilled = some s ∧
      slotAfter refilled = (some ⟨1, [9]⟩, [true, true, false, true]) ∧
      Refines s (slotAfter refilled) ∧
      ∀ b found, ∃ s', Packet.step s (.store b found) = some s' := by
  have hrun :
      (exec Packet.step { heap := {}, pkt := .new 0 0 ⟨0, 0⟩ } refilled).isSome = true := by
    decide
  obtain ⟨s, hs⟩ := Option.isSome_iff_exists.mp hrun
  exact ⟨s, hs, by decide, packet_refines {} 0 0 ⟨0, 0⟩ hs⟩

end PacketMachine.Source
