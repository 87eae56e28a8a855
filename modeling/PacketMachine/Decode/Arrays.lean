import PacketMachine.Decode.Header

/-!
# Arrays of maps

`DHCP.options` and the sections of a DNS message are arrays of maps, and the maps hold the values of one
option or record. A user reads such a value by `get` and then `find`.

* `Property.ArrayAt` says what an array parameter holds, and `Property.SetTo` that a value is a range of
  the packet.
* `Touch.obj?_apply` and `Op.obj?_of_untouched` say what one call does to an object.

Results: `Property.ArrayAt.size` and `Property.ArrayAt.field`: what a user reads of the array and of a
value of one of its maps.
-/

namespace PacketMachine.Decode

open PacketMachine.Lib

/-! ## Objects that a call leaves alone -/

section Objects

variable {q : Property} {op : Op} {h : Handle} {o : Obj}

theorem Touch.obj?_apply (hs : q.Sized) (ht : Touch q op h o) : (op.apply q).obj? h = some o := by
  rw [Op.obj?_apply hs, ht.touch]
  rfl

theorem Op.obj?_of_untouched (hs : q.Sized) (ht : op.touch q h = none) :
    (op.apply q).obj? h = q.obj? h := by
  rw [Op.obj?_apply hs, ht]
  rfl

/-- A live value is not the next one of a parameter. -/
theorem Property.Live.ne_next (hl : q.Live h) (d : Param) : h ≠ q.next d := by
  rintro rfl
  exact Nat.lt_irrefl _ hl

/-- The value was set to a range of the packet. -/
def Property.SetTo (q : Property) (h : Handle) (off len : Nat) : Prop :=
  ∃ (c : Cell) (e : Ext), q.obj? h = some ⟨c.set (.pkt off) len, e⟩

end Objects

/-! ## What a user reads -/

/-- The first value of a parameter is an array of the given maps. -/
structure Property.ArrayAt (q : Property) (d : Param) (items : List Handle) : Prop where
  count : 0 < q.count d
  array : ∃ c, q.obj? ⟨d, 0⟩ = some ⟨c, .array items⟩

section Reading

variable {q : Property} (ntop6 : List UInt8 → Text) (m : Mem) {d : Param} {items : List Handle}

theorem look_obj {h : Handle} {o : Obj} (ho : q.obj? h = some o) :
    q.look ntop6 m (.obj h) = some (o.cell.look ntop6 m (q.repr ntop6 m 3 (.obj h)) o.size) := by
  rw [Property.look, ho]
  rfl

theorem Property.walk_nil {r : Ref} (hr : r ≠ .null) : q.walk r [] = .ok (some r) := by
  cases r <;> first | rfl | exact absurd rfl hr

/-- One call. -/
theorem Property.walk_some {h : Handle} {o : Obj} {a : Access} {r : Ref} (ho : q.obj? h = some o)
    (hr : o.access h a = .ok (some r)) (path : List Access) :
    q.walk (.obj h) (a :: path) = q.walk r path := by
  simp only [Property.walk, ho, hr]
  rfl

theorem access_array {c : Cell} {i : Nat} {h : Handle} (hi : items[i]? = some h) :
    (⟨c, .array items⟩ : Obj).access ⟨d, 0⟩ (.get i) = .ok (some (.obj h)) := by
  simp only [Obj.access, hi]

theorem Property.ArrayAt.observe (ha : q.ArrayAt d items) (path : List Access) :
    q.observe ntop6 m (.param d) path
      = do return (← q.walk (.obj ⟨d, 0⟩) path).bind (q.look ntop6 m) := by
  have hv : q.value m (.param d) = .ok (q, .obj ⟨d, 0⟩) := if_pos ha.count
  rw [Property.observe, hv]
  rfl

/-- The size of the array. -/
theorem Property.ArrayAt.size (ha : q.ArrayAt d items) :
    ∃ v, q.observe ntop6 m (.param d) [] = .ok (some v) ∧ v.size = items.length := by
  obtain ⟨c, hc⟩ := ha.array
  refine ⟨c.look ntop6 m (q.repr ntop6 m 3 (.obj ⟨d, 0⟩)) items.length, ?_, rfl⟩
  rw [ha.observe, Property.walk_nil (by simp)]
  exact congrArg Except.ok (look_obj ntop6 m hc)

/-- What is behind a key of one of the maps. -/
theorem Property.ArrayAt.walk (ha : q.ArrayAt d items) {i : Nat} {h : Handle} {o : Obj}
    (hi : items[i]? = some h) (ho : q.obj? h = some o) (key : String) {r : Ref}
    (hr : o.access h (.find key) = .ok (some r)) (hnull : r ≠ .null) :
    q.walk (.obj ⟨d, 0⟩) [.get i, .find key] = .ok (some r) := by
  obtain ⟨c, hc⟩ := ha.array
  rw [Property.walk_some hc (access_array hi), Property.walk_some ho hr]
  exact Property.walk_nil hnull

theorem Property.ArrayAt.find (ha : q.ArrayAt d items) {i : Nat} {h : Handle} {o : Obj}
    (hi : items[i]? = some h) (ho : q.obj? h = some o) (key : String) {r : Ref}
    (hr : o.access h (.find key) = .ok (some r)) (hnull : r ≠ .null) :
    q.observe ntop6 m (.param d) [.get i, .find key] = .ok (q.look ntop6 m r) := by
  rw [ha.observe, ha.walk hi ho key hr hnull]
  rfl

/-- Behind the last map there is nothing to find. -/
theorem Property.ArrayAt.lt_length (ha : q.ArrayAt d items) {i : Nat} {key : String} {v : Look}
    (hv : q.observe ntop6 m (.param d) [.get i, .find key] = .ok (some v)) : i < items.length := by
  by_contra hge
  obtain ⟨c, hc⟩ := ha.array
  have hnone : q.walk (.obj ⟨d, 0⟩) [.get i, .find key] = .ok none := by
    simp only [Property.walk, hc, Obj.access, List.getElem?_eq_none (Nat.not_lt.mp hge), bind,
      Except.bind]
  rw [ha.observe, hnone] at hv
  cases hv

/-- **A value of one of the maps** is shown as it is. -/
theorem Property.ArrayAt.field (ha : q.ArrayAt d items) {i : Nat} {h h' : Handle} {o o' : Obj}
    (hi : items[i]? = some h) (ho : q.obj? h = some o) (key : String)
    (hr : o.access h (.find key) = .ok (some (.obj h'))) (ho' : q.obj? h' = some o') (P : Look → Prop) :
    (∃ v, q.observe ntop6 m (.param d) [.get i, .find key] = .ok (some v) ∧ P v) ↔
      P (o'.cell.look ntop6 m (q.repr ntop6 m 3 (.obj h')) o'.size) := by
  rw [ha.find ntop6 m hi ho key hr (by simp), look_obj ntop6 m ho']
  constructor
  · rintro ⟨v, hv, hP⟩
    obtain rfl := Option.some.inj (Except.ok.inj hv)
    exact hP
  · exact fun hP => ⟨_, rfl, hP⟩

/-- An array that was retained as the first value of its parameter. -/
theorem arrayAt_array (hw : q.WF) (hd : d.kind = .array) (hc : q.count d = 0) :
    ((Op.array d hd).apply q).ArrayAt d [] := by
  have hnext : q.next d = ⟨d, 0⟩ := by rw [Property.next, hc]
  refine ⟨?_, (q.fresh d).cell, ?_⟩
  · rw [Op.count_apply hw.sized, if_pos (by simp [Op.retains])]
    exact Nat.succ_pos _
  · rw [← hnext, Touch.obj?_apply hw.sized (.array hd), ← (hw.fresh d).array hd]

end Reading

/-! ## Ranges -/

section Ranges

variable (m : Mem)

theorem Mem.bytes_one (i : Nat) : m.bytes i 1 = (m.u8 i).map fun b => [b] := by
  rw [Mem.bytes]
  cases m.u8 i <;> rfl

/-- The number in one byte. -/
theorem uint64_byte_iff (c : Cell) (off : Nat) (b : UInt8) :
    (c.set (.pkt off) 1).uint64 m = .ok b.toNat ↔ m.u8 off = .ok b := by
  have heq : (c.set (.pkt off) 1).uint64 m = (m.u8 off).map UInt8.toNat := by
    show (do return (← (do return some (numberOf .big (← m.bytes off 1)))).getD 0) = _
    rw [Mem.bytes_one]
    cases m.u8 off with
    | error e => rfl
    | ok b =>
      show Except.ok (0 * 256 + b.toNat) = Except.ok b.toNat
      rw [Nat.zero_mul, Nat.zero_add]
  rw [heq]
  cases m.u8 off with
  | error e => simp [Except.map]
  | ok b' => simp [Except.map, UInt8.toNat_inj]

/-- The number in two bytes. -/
theorem uint64_word_iff (c : Cell) (off n : Nat) :
    (c.set (.pkt off) 2).uint64 m = .ok n ↔ m.u16 off = .ok n := by
  have heq : (c.set (.pkt off) 2).uint64 m = m.u16 off := by
    show (do return (← (do return some (numberOf .big (← m.bytes off 2)))).getD 0) = _
    rw [Mem.bytes, Mem.bytes_one, Mem.u16]
    cases m.u8 off with
    | error e => rfl
    | ok hi =>
      cases m.u8 (off + 1) with
      | error e => rfl
      | ok lo =>
        show Except.ok ((0 * 256 + hi.toNat) * 256 + lo.toNat) = Except.ok (hi.toNat * 256 + lo.toNat)
        rw [Nat.zero_mul, Nat.zero_add]
  rw [heq]

theorem raw_span_iff (c : Cell) (off len : Nat) (bs : List UInt8) :
    (c.set (.pkt off) len).raw m = .ok (some bs) ↔ m.bytes off len = .ok bs := by
  show (do return some (← m.bytes off len)) = _ ↔ _
  cases m.bytes off len with
  | error e => simp [bind, Except.bind]
  | ok bs' => simp [bind, Except.bind, pure, Except.pure]

end Ranges

end PacketMachine.Decode
