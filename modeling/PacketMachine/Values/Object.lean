import PacketMachine.Decode.Value
import PacketMachine.Lib.Heap
import PacketMachine.Lib.Run

/-!
# The members of `Value` and its buffer

Model of `Value::set`, `Value::cpy` and `Value::clear` (`value.cc:46-79`, `value.hpp:63-103`) over
a memory of blocks. `ptr_` is any pointer; `buf_` is a block that the value got from `realloc` and
that no other object writes or frees, so that `buf_len_` is all that is known of its size.

* `step` is a call on one value, or what the rest of the program does to the memory meanwhile.
* `Owns` is the invariant of `buf_` and `buf_len_` (`owns_exec`).
* `cpy_spec`: from there a copy returns, and its bytes lie at `ptr_`, whatever was set, copied and
  cleared before.

`Array::clear` and `Map::clear` leave the members of `Value`. The reallocation is taken to succeed
(the source says `TODO` there), and a `memcpy` of no bytes to be good for any pointers.
-/

namespace PacketMachine.Values

open PacketMachine.Lib PacketMachine.Decode

/-- The members of `Value`. `endian_`, unset at first, is read only when `active_`. -/
structure Value where
  active : Bool := false
  ptr : Pointer := .null
  len : Nat := 0
  buf : Option Nat := none
  bufLen : Nat := 0
  endian : Endian := .big
  deriving DecidableEq, Repr

/-- `buf_` as a pointer. -/
def Value.bufPtr (v : Value) : Pointer := v.buf.elim .null fun i => .addr i 0

/-- `Value::set`. -/
def Value.set (v : Value) (ptr : Pointer) (len : Nat) (e : Endian := .big) : Value :=
  { v with active := true, endian := e, ptr := ptr, len := len }

/-- `Value::cpy`: `buf_` grows when it is too short. -/
def Value.reserve (h : Heap) (v : Value) (len : Nat) : Heap × Value :=
  if v.bufLen < len then
    ((h.realloc v.buf len).1, { v with buf := some (h.realloc v.buf len).2, bufLen := len })
  else (h, v)

/-- `Value::cpy`. -/
def Value.cpy (h : Heap) (v : Value) (ptr : Pointer) (len : Nat) (e : Endian := .big) :
    Except MemFault (Heap × Value) := do
  let (h, v) := v.reserve h len
  let v := { v with active := true, endian := e }
  let h ← h.memcpy v.bufPtr ptr len
  return (h, { v with ptr := v.bufPtr, len := len })

/-- `Value::clear`. -/
def Value.clear (v : Value) : Value := { v with active := false }

/-- A value that was given the bytes: they lie at `ptr_`. -/
structure Value.Bears (h : Heap) (v : Value) (e : Endian) (b : List UInt8) : Prop where
  active : v.active = true
  endian : v.endian = e
  len : v.len = b.length
  held : h.Holds v.ptr b

/-! ## Runs -/

/-- The memory and one value. -/
structure State where
  heap : Heap
  val : Value := {}

/-- A call on the value, or what the rest of the program leaves of the memory. -/
inductive Action where
  | set (ptr : Pointer) (len : Nat) (e : Endian)
  | cpy (ptr : Pointer) (len : Nat) (e : Endian)
  | clear
  | other (heap : Heap)

/-- One action. There is no step where a call is undefined, nor where another object reaches
`buf_`. -/
def step (s : State) : Action → Option State
  | .set ptr len e => some { s with val := s.val.set ptr len e }
  | .cpy ptr len e =>
    match s.val.cpy s.heap ptr len e with
    | .ok (h, v) => some ⟨h, v⟩
    | .error _ => none
  | .clear => some { s with val := s.val.clear }
  | .other h =>
    if s.val.buf.bind h.block? = s.val.buf.bind s.heap.block? then some ⟨h, s.val⟩ else none

/-- `buf_` is `nullptr` and its length 0, or a live block of `buf_len_` bytes. -/
def Owns (h : Heap) (v : Value) : Prop :=
  match v.buf with
  | none => v.bufLen = 0
  | some i => h.size? i = some v.bufLen

section Owns

variable {h h' : Heap} {v v' : Value} {ptr : Pointer} {len : Nat} {e : Endian} {b : List UInt8}
  {s s' : State} {a : Action}

/-- `Owns` reads only `buf_`, its length and the size of its block. -/
theorem Owns.congr (hv : Owns h v) (hb : v'.buf = v.buf) (hl : v'.bufLen = v.bufLen)
    (hh : v.buf.bind h'.size? = v.buf.bind h.size?) : Owns h' v' := by
  unfold Owns at hv ⊢
  rw [hb, hl]
  cases hbuf : v.buf with
  | none => simpa only [hbuf] using hv
  | some i =>
    simp only [hbuf, Option.bind_some] at hv hh ⊢
    rwa [hh]

theorem Owns.reserve (hv : Owns h v) (len : Nat) :
    Owns (v.reserve h len).1 (v.reserve h len).2 := by
  unfold Value.reserve
  split
  · exact size?_realloc h v.buf len
  · exact hv

theorem le_reserve (h : Heap) (v : Value) (len : Nat) : len ≤ (v.reserve h len).2.bufLen := by
  unfold Value.reserve
  split
  · exact le_refl _
  · rename_i hge
    exact Nat.le_of_not_lt hge

/-- More bytes than the buffer has lie elsewhere. -/
theorem Owns.elsewhere (hv : Owns h v) (hb : h.Holds ptr b) (hlt : v.bufLen < b.length) :
    ∀ i off, v.buf = some i → ptr ≠ .addr i off := by
  rintro i off hbuf rfl
  obtain ⟨pre, post, hbs, -⟩ := hb
  unfold Owns Heap.size? at hv
  simp only [hbuf, hbs, Option.map_some, Option.some.injEq, List.length_append,
    List.length_map] at hv
  omega

/-- The new buffer takes nothing away from the bytes that are copied to it. -/
theorem Owns.held (hv : Owns h v) (hb : h.Holds ptr b)
    (ho : v.bufPtr.overlaps ptr b.length = false) :
    (v.reserve h b.length).1.Holds ptr b ∧
      (v.reserve h b.length).2.bufPtr.overlaps ptr b.length = false := by
  unfold Value.reserve
  split
  · rename_i hlt
    refine ⟨hb.realloc (hv.elsewhere hb hlt), overlaps_of_ne ?_ 0 b.length⟩
    rw [realloc_number]
    exact hb.ne_new
  · exact ⟨hb, ho⟩

/-- The bytes are copied to the front of the buffer. -/
theorem Owns.memcpy (hv : Owns h v) (hroom : b.length ≤ v.bufLen) (hb : h.Holds ptr b)
    (ho : v.bufPtr.overlaps ptr b.length = false) :
    ∃ h', h.memcpy v.bufPtr ptr b.length = .ok h' ∧ h'.Holds v.bufPtr b := by
  unfold Owns at hv
  unfold Value.bufPtr at ho ⊢
  cases hbuf : v.buf with
  | none =>
    simp only [hbuf, Option.elim_none] at hv ⊢
    obtain rfl := List.length_eq_zero_iff.mp (Nat.le_zero.mp (hv ▸ hroom))
    exact ⟨h, memcpy_null hb, rfl⟩
  | some i =>
    simp only [hbuf, Option.elim_some] at hv ho ⊢
    obtain ⟨bs, hbs, hlen⟩ := Option.map_eq_some_iff.mp hv
    have hput := block?_put hbs (b.map some ++ bs.drop b.length) i
    rw [if_pos rfl] at hput
    exact ⟨_, memcpy_front hb ho hbs (hlen ▸ hroom), [], _, hput, rfl⟩

/-- `cpy` in its three parts. -/
theorem cpy_eq_ok_iff {h' : Heap} {v' : Value} : v.cpy h ptr len e = .ok (h', v') ↔
    (v.reserve h len).1.memcpy (v.reserve h len).2.bufPtr ptr len = .ok h' ∧
      v' = (v.reserve h len).2.set (v.reserve h len).2.bufPtr len e := by
  unfold Value.cpy
  generalize v.reserve h len = r
  obtain ⟨h₁, v₁⟩ := r
  change (do return (← h₁.memcpy v₁.bufPtr ptr len, v₁.set v₁.bufPtr len e)) = _ ↔
    h₁.memcpy v₁.bufPtr ptr len = .ok h' ∧ v' = v₁.set v₁.bufPtr len e
  cases h₁.memcpy v₁.bufPtr ptr len with
  | error f =>
    refine iff_of_false ?_ ?_
    · rintro ⟨⟩
    · rintro ⟨⟨⟩, -⟩
  | ok h₂ =>
    change Except.ok (h₂, v₁.set v₁.bufPtr len e) = Except.ok (h', v') ↔ _
    rw [Except.ok.injEq, Except.ok.injEq, Prod.mk.injEq]
    exact and_congr_right fun _ => eq_comm

/-- **A copy returns**, and its bytes lie at `ptr_` whatever the value was before. -/
theorem cpy_spec (hv : Owns h v) (hb : h.Holds ptr b)
    (ho : v.bufPtr.overlaps ptr b.length = false) (e : Endian) :
    ∃ h' v', v.cpy h ptr b.length e = .ok (h', v') ∧ v'.Bears h' e b ∧ v'.ptr = v'.bufPtr := by
  obtain ⟨hheld, hover⟩ := hv.held hb ho
  obtain ⟨h₂, hcopy, hheld₂⟩ := (hv.reserve b.length).memcpy (le_reserve h v b.length) hheld hover
  exact ⟨h₂, _, cpy_eq_ok_iff.mpr ⟨hcopy, rfl⟩, ⟨rfl, rfl, rfl, hheld₂⟩, rfl⟩

/-! ## Every run -/

theorem owns_new (h : Heap) (unset : Endian) : Owns h { endian := unset } := rfl

/-- **Every action keeps the buffer.** -/
theorem Owns.step (hs : Owns s.heap s.val) (h : step s a = some s') : Owns s'.heap s'.val := by
  cases a with
  | set ptr len e =>
    obtain rfl := Option.some.inj h
    exact hs.congr rfl rfl rfl
  | cpy ptr len e =>
    rw [Values.step] at h
    split at h
    · rename_i h₂ v₂ hc
      obtain rfl := Option.some.inj h
      obtain ⟨hcopy, rfl⟩ := cpy_eq_ok_iff.mp hc
      refine (hs.reserve len).congr rfl rfl ?_
      rw [size?_memcpy hcopy]
    · cases h
  | clear =>
    obtain rfl := Option.some.inj h
    exact hs.congr rfl rfl rfl
  | other h' =>
    rw [Values.step, Option.ite_none_right_eq_some] at h
    obtain ⟨hbuf, h⟩ := h
    obtain rfl := Option.some.inj h
    refine hs.congr rfl rfl ?_
    cases hb : s.val.buf with
    | none => rfl
    | some i =>
      rw [hb] at hbuf
      exact congrArg (Option.map List.length) hbuf

/-- **The buffer is there along every run** of a new value, whatever `endian_` is at first. -/
theorem owns_exec {h : Heap} {unset : Endian} {as : List Action}
    (hrun : exec step ⟨h, { endian := unset }⟩ as = some s) : Owns s.heap s.val :=
  exec_invariant (I := fun s => Owns s.heap s.val) (owns_new h unset) (fun _ _ _ => Owns.step) hrun

theorem set_bears (hb : s.heap.Holds ptr b) (e : Endian) :
    ∃ s', step s (.set ptr b.length e) = some s' ∧ s'.val.Bears s'.heap e b :=
  ⟨_, rfl, rfl, rfl, rfl, hb⟩

theorem cpy_bears (hs : Owns s.heap s.val) (hb : s.heap.Holds ptr b)
    (ho : s.val.bufPtr.overlaps ptr b.length = false) (e : Endian) :
    ∃ s', step s (.cpy ptr b.length e) = some s' ∧ s'.val.Bears s'.heap e b ∧
      s'.val.ptr = s'.val.bufPtr := by
  obtain ⟨h', v', hc, hv⟩ := cpy_spec hs hb ho e
  refine ⟨⟨h', v'⟩, ?_, hv⟩
  rw [Values.step, hc]

/-- What the rest of the program does leaves a copy alone. -/
theorem Value.Bears.other (hb : s.val.Bears s.heap e b) (hp : s.val.ptr = s.val.bufPtr)
    (hstep : step s (.other h) = some s') :
    s'.val.Bears s'.heap e b ∧ s'.val.ptr = s'.val.bufPtr := by
  rw [Values.step, Option.ite_none_right_eq_some] at hstep
  obtain ⟨hbuf, hstep⟩ := hstep
  obtain rfl := Option.some.inj hstep
  refine ⟨⟨hb.active, hb.endian, hb.len, ?_⟩, hp⟩
  have hheld := hb.held
  rw [hp, Value.bufPtr] at hheld
  change h.Holds s.val.ptr b
  rw [hp, Value.bufPtr]
  cases hv : s.val.buf with
  | none =>
    rw [hv] at hheld
    exact hheld
  | some i =>
    simp only [hv, Option.elim_some, Option.bind_some] at hheld hbuf ⊢
    obtain ⟨pre, post, hbs, hoff⟩ := hheld
    exact ⟨pre, post, hbuf.trans hbs, hoff⟩

/-- **A copy outlives its source**: it is there whatever the rest of the program does. -/
theorem copy_stays {as : List Action} (hb : s.val.Bears s.heap e b)
    (hp : s.val.ptr = s.val.bufPtr) (hall : Along step (fun _ a => ∃ h, a = .other h) s as)
    (hrun : exec step s as = some s') : s'.val.Bears s'.heap e b := by
  refine (exec_along (I := fun s => s.val.Bears s.heap e b ∧ s.val.ptr = s.val.bufPtr) ?_ as
    ⟨hb, hp⟩ hall hrun).1
  rintro t _ t' ⟨ht, hpt⟩ ⟨h, rfl⟩ hstep
  exact ht.other hpt hstep

end Owns

end PacketMachine.Values
