import PacketMachine.Lib.Returns
import PacketMachine.Tcp.Session

/-!
# Packet bytes and the `Payload` cursor

Model of `Packet` (`packet.hpp:37-60`) and `Payload` (`property.cc:39-79`).

* A pointer into the packet is its distance from `buf_`. The pointer sum of `retain` wraps at 64
  bits, so a `Payload` keeps the address of `buf_`; a `Packet` carries that its bytes lie below
  `2^64`.
* Reading memory that is not there is a `Fault`, and so is a failed assertion. `Mem` says which bytes
  are there.

Results:
* **`Payload.retain_eq`**: on a cursor whose window lies in the packet (`Payload.WF`), `retain`
  succeeds iff the size is at most the length, whatever the 64-bit size.
-/

namespace PacketMachine.Decode

open PacketMachine.Lib

/-! ## Memory -/

/-- What must not happen. -/
inductive Fault where
  /-- A byte is read where there is none. -/
  | read (i : Nat)
  /-- An assertion fails. -/
  | assertion (text : String)
  /-- A vector is indexed outside its size. -/
  | index (i : Int) (size : Nat)
  /-- A loop has not ended within its bound. -/
  | fuel
  deriving DecidableEq, Repr

/-- The bytes that may be read. -/
abbrev Mem := Nat → Option UInt8

/-- The byte at a position, 0 where there is none. -/
def Mem.byte (m : Mem) (i : Nat) : UInt8 := (m i).getD 0

/-- `ntohs` of the two bytes at a position. -/
def Mem.word (m : Mem) (i : Nat) : Nat := (m.byte i).toNat * 256 + (m.byte (i + 1)).toNat

/-- Reads a byte. -/
def Mem.u8 (m : Mem) (i : Nat) : Except Fault UInt8 :=
  match m i with
  | some b => .ok b
  | none => .error (.read i)

/-- Reads a `uint16_t` in network order. -/
def Mem.u16 (m : Mem) (i : Nat) : Except Fault Nat := do
  let hi ← m.u8 i
  let lo ← m.u8 (i + 1)
  return hi.toNat * 256 + lo.toNat

/-- Reads a `uint32_t` in network order. -/
def Mem.u32 (m : Mem) (i : Nat) : Except Fault Nat := do
  let hi ← m.u16 i
  let lo ← m.u16 (i + 2)
  return hi * 65536 + lo

/-- Reads `n` bytes. -/
def Mem.bytes (m : Mem) : Nat → Nat → Except Fault (List UInt8)
  | _, 0 => .ok []
  | i, n + 1 => do
    let b ← m.u8 i
    let bs ← m.bytes (i + 1) n
    return b :: bs

/-- There are bytes at the positions from `i` on, `n` of them. -/
def Mem.Has (m : Mem) (i n : Nat) : Prop := ∀ k, i ≤ k → k < i + n → (m k).isSome = true

section Mem

variable {m : Mem} {i n : Nat}

theorem Mem.Has.sub (h : m.Has i n) {j k : Nat} (hj : i ≤ j) (hk : j + k ≤ i + n) : m.Has j k :=
  fun l hl hlt => h l (by omega) (by omega)

theorem Mem.u8_eq (h : m.Has i n) {j : Nat} (hj : i ≤ j) (hlt : j < i + n) :
    m.u8 j = .ok (m.byte j) := by
  obtain ⟨b, hb⟩ := Option.isSome_iff_exists.mp (h j hj hlt)
  simp [Mem.u8, Mem.byte, hb]

theorem Mem.u16_eq (h : m.Has i n) {j : Nat} (hj : i ≤ j) (hlt : j + 2 ≤ i + n) :
    m.u16 j = .ok (m.word j) := by
  unfold Mem.u16
  rw [Mem.u8_eq h hj (by omega), Mem.u8_eq h (j := j + 1) (by omega) (by omega)]
  rfl

theorem Mem.u32_eq (h : m.Has i n) {j : Nat} (hj : i ≤ j) (hlt : j + 4 ≤ i + n) :
    m.u32 j = .ok (m.word j * 65536 + m.word (j + 2)) := by
  unfold Mem.u32
  rw [Mem.u16_eq h hj (by omega), Mem.u16_eq h (j := j + 2) (by omega) (by omega)]
  rfl

theorem Mem.bytes_returns (h : m.Has i n) : Returns (m.bytes i n) fun bs => bs.length = n := by
  induction n generalizing i with
  | zero => exact returns_ok.mpr rfl
  | succ n ih =>
    rw [Mem.bytes, Mem.u8_eq h (Nat.le_refl i) (by omega)]
    exact (ih (h.sub (by omega) (by omega))).bind fun bs hbs => returns_ok.mpr (by simp [hbs])

end Mem

/-! ## Packet and payload -/

/-- `Packet`: the address of `buf_`, the stored bytes and the time stamp. -/
structure Packet where
  addr : Nat
  data : List UInt8
  tv : Tcp.Timeval
  fits : addr + data.length < 2 ^ 64

/-- The bytes of a packet. -/
def Packet.mem (p : Packet) : Mem := fun i => p.data[i]?

theorem Packet.has (p : Packet) {i n : Nat} (h : i + n ≤ p.data.length) : p.mem.Has i n := by
  intro k _ hk
  rw [Packet.mem, List.getElem?_eq_getElem (show k < p.data.length by omega)]
  rfl

theorem Packet.has_all (p : Packet) : p.mem.Has 0 p.data.length :=
  p.has (Nat.le_of_eq (Nat.zero_add _))

/-- `Payload`: `ptr_` and `end_` as distances from `buf_`, which is at the address `buf`. -/
structure Payload where
  buf : Nat
  ptr : Nat
  stop : Nat
  length : Nat
  deriving DecidableEq, Repr

/-- `Payload::reset`. -/
def Payload.reset (p : Packet) : Payload := ⟨p.addr, 0, p.data.length, p.data.length⟩

/-- `Payload::retain`: the old position and the cursor behind it, `none` for `nullptr`. -/
def Payload.retain (pd : Payload) (size : Nat) : Option (Nat × Payload) :=
  let n := (pd.buf + pd.ptr + size) % 2 ^ 64
  if size ≤ pd.length ∧ n ≤ pd.buf + pd.stop then
    some (pd.ptr, { pd with ptr := n - pd.buf, length := pd.length - size })
  else none

/-- `Payload::shrink`, which leaves the cursor alone when it returns `false`. -/
def Payload.shrink (pd : Payload) (length : Nat) : Payload :=
  if length > pd.length then pd else { pd with length := length }

/-- The window of the cursor lies below `stop`, and this below the end of the address space. -/
structure Payload.WF (pd : Payload) : Prop where
  window : pd.ptr + pd.length ≤ pd.stop
  fits : pd.buf + pd.stop < 2 ^ 64

/-- The cursor behind `size` bytes. -/
def Payload.skip (pd : Payload) (size : Nat) : Payload :=
  { pd with ptr := pd.ptr + size, length := pd.length - size }

/-- **`retain` succeeds iff the size is at most the length.** -/
theorem Payload.retain_eq {pd : Payload} (h : pd.WF) (size : Nat) :
    pd.retain size = if size ≤ pd.length then some (pd.ptr, pd.skip size) else none := by
  have hw := h.window
  have hf := h.fits
  unfold Payload.retain Payload.skip
  by_cases hs : size ≤ pd.length
  · rw [Nat.mod_eq_of_lt (show pd.buf + pd.ptr + size < 2 ^ 64 by omega),
      if_pos ⟨hs, by omega⟩, if_pos hs, show pd.buf + pd.ptr + size - pd.buf = pd.ptr + size by omega]
  · rw [if_neg (fun hc => hs hc.1), if_neg hs]

theorem Payload.WF.skip {pd : Payload} (h : pd.WF) {size : Nat} (hs : size ≤ pd.length) :
    (pd.skip size).WF := by
  have hw := h.window
  exact ⟨by simp only [Payload.skip]; omega, h.fits⟩

theorem Payload.WF.shrink {pd : Payload} (h : pd.WF) (length : Nat) : (pd.shrink length).WF := by
  have hw := h.window
  unfold Payload.shrink
  split
  · exact h
  · exact ⟨by simp only; omega, h.fits⟩

theorem Payload.shrink_ptr (pd : Payload) (length : Nat) : (pd.shrink length).ptr = pd.ptr := by
  unfold Payload.shrink
  split <;> rfl

theorem Payload.shrink_length (pd : Payload) (length : Nat) :
    (pd.shrink length).length = min length pd.length := by
  unfold Payload.shrink
  split
  · rw [Nat.min_eq_right (by omega)]
  · rw [Nat.min_eq_left (by omega)]

theorem Payload.wf_reset (p : Packet) : (Payload.reset p).WF := by
  exact ⟨by simp [Payload.reset], p.fits⟩

end PacketMachine.Decode
