import PacketMachine.Values.Object
import PacketMachine.Lib.Bytes

/-!
# Reading a value as a number

Model of `Value::is_uint`, `Value::uint64` and `Value::uint` (`value.cc:168-241`, `269-288`,
`value.hpp:105-122`) on a little-endian host: one path for each width, with `ntohs`, `ntohl` and the
eight masks of the source.

* An unaligned read of a word reads its bytes.
* `uint(unsigned long*)` is left out; it differs from `uint64(uint64_t*)` in no bit on a host whose
  `unsigned long` has 64.

Results:
* `Value.Bears.readsAs`: where the bytes lie at `ptr_`, each path reads their number (`bytesValue`).
* `integer_reading`: after any calls on a value, `set` or `cpy` of a byte string makes it read as
  the number of that string.
* `copied_number_stays`: a copy keeps reading so whatever the rest of the program does.
-/

namespace PacketMachine.Values

open PacketMachine.Lib PacketMachine.Decode

/-- `Value::is_uint`. -/
def Value.isUint (v : Value) : Bool :=
  v.active && (v.len == 1 || v.len == 2 || v.len == 4 || v.len == 8)

/-- The eight masks of `Value::uint64`. -/
def swap64 (r : BitVec 64) : BitVec 64 :=
  ((r &&& 0xFF00000000000000) >>> 56) |||
    ((r &&& 0x00FF000000000000) >>> 40) |||
    ((r &&& 0x0000FF0000000000) >>> 24) |||
    ((r &&& 0x000000FF00000000) >>> 8) |||
    ((r &&& 0x00000000FF000000) <<< 8) |||
    ((r &&& 0x0000000000FF0000) <<< 24) |||
    ((r &&& 0x000000000000FF00) <<< 40) |||
    ((r &&& 0x00000000000000FF) <<< 56)

/-- `Value::uint64(uint64_t*)`: what `*d` becomes, `none` when it returns `false`. -/
def Value.uint64? (h : Heap) (v : Value) : Except MemFault (Option (BitVec 64)) :=
  if v.isUint then
    match v.len with
    | 1 => do
      let t ← h.byte v.ptr
      return some (BitVec.ofNat 64 t.toNat)
    | 2 => do
      let t ← h.word 16 v.ptr
      let t := if v.endian = .big then ntohs t else t
      return some (t.setWidth 64)
    | 4 => do
      let t ← h.word 32 v.ptr
      let t := if v.endian = .big then ntohl t else t
      return some (t.setWidth 64)
    | 8 => do
      let r ← h.word 64 v.ptr
      let r := if v.endian = .big then swap64 r else r
      return some r
    | _ => .error (.assertion "0")
  else .ok none

/-- `Value::uint(unsigned int*)`. -/
def Value.uint? (h : Heap) (v : Value) : Except MemFault (Option (BitVec 32)) := do
  match ← v.uint64? h with
  | some i => return some (i.setWidth 32)
  | none => return none

/-- `Value::uint64()`. It does not look at what the other `uint64` returns. -/
def Value.uint64 (h : Heap) (v : Value) : Except MemFault (BitVec 64) :=
  if v.active && v.isUint then do
    match ← v.uint64? h with
    | some d => return d
    | none => .error .indeterminate
  else .ok 0

/-- `Value::uint()`. -/
def Value.uint (h : Heap) (v : Value) : Except MemFault (BitVec 32) :=
  if v.active && v.isUint then do
    match ← v.uint? h with
    | some d => return d
    | none => return 0
  else .ok 0

/-! ## The number of a byte string -/

/-- The number of a byte string: each byte with its weight. -/
def bytesValue (e : Endian) (b : List UInt8) : Nat :=
  match e with
  | .big => ∑ i : Fin b.length, (b.get i).toNat * 256 ^ (b.length - 1 - i.val)
  | .little => ∑ i : Fin b.length, (b.get i).toNat * 256 ^ i.val

theorem bytesValue_big (b : List UInt8) : bytesValue .big b = bigEndian b :=
  (bigEndian_eq_sum b).symm

theorem bytesValue_little (b : List UInt8) : bytesValue .little b = littleEndian b :=
  (littleEndian_eq_sum b).symm

theorem bytesValue_lt (e : Endian) (b : List UInt8) : bytesValue e b < 256 ^ b.length := by
  cases e with
  | big => exact bytesValue_big b ▸ bigEndian_lt b
  | little => exact bytesValue_little b ▸ littleEndian_lt b

theorem bytesValue_singleton (e : Endian) (x : UInt8) : bytesValue e [x] = x.toNat := by
  cases e <;> simp [bytesValue]

theorem swap64_fits (r : BitVec 64) :
    Fits (swap64 r) (byteAt r.toNat 7 + byteAt r.toNat 6 * 256 ^ 1 + byteAt r.toNat 5 * 256 ^ 2 +
      byteAt r.toNat 4 * 256 ^ 3 + byteAt r.toNat 3 * 256 ^ 4 + byteAt r.toNat 2 * 256 ^ 5 +
      byteAt r.toNat 1 * 256 ^ 6 + byteAt r.toNat 0 * 256 ^ 7) 8 :=
  (((((((fits_last r 0xFF00000000000000 (i := 7) rfl)
    |>.or_down r 0x00FF000000000000 (i := 6) (k := 5) rfl rfl)
    |>.or_down r 0x0000FF0000000000 (i := 5) (k := 3) rfl rfl)
    |>.or_down r 0x000000FF00000000 (i := 4) (k := 1) rfl rfl)
    |>.or_up r 0x00000000FF000000 (i := 3) (k := 1) rfl rfl (by decide))
    |>.or_up r 0x0000000000FF0000 (i := 2) (k := 3) rfl rfl (by decide))
    |>.or_up r 0x000000000000FF00 (i := 1) (k := 5) rfl rfl (by decide))
    |>.or_up r 0x00000000000000FF (i := 0) (k := 7) rfl rfl (by decide)

/-- **The eight masks read the bytes the other way round.** -/
theorem swap64_littleEndian : ∀ {b : List UInt8}, b.length = 8 →
    (swap64 (BitVec.ofNat 64 (littleEndian b))).toNat = bigEndian b
  | [b0, b1, b2, b3, b4, b5, b6, b7], _ => by
    rw [(swap64_fits _).eq, toNat_word 64 rfl]
    simp only [byteAt_littleEndian_succ, byteAt_littleEndian_zero]
    simp [bigEndian]
    ring

/-! ## What the accessors return -/

/-- The accessors read the number of the byte string, or nothing where its length is none of an
integer type. -/
structure ReadsAs (h : Heap) (v : Value) (e : Endian) (b : List UInt8) : Prop where
  uint64_eq : b.length = 1 ∨ b.length = 2 ∨ b.length = 4 ∨ b.length = 8 →
    ∃ d, v.uint64 h = .ok d ∧ d.toNat = bytesValue e b
  uint_eq : b.length = 1 ∨ b.length = 2 ∨ b.length = 4 ∨ b.length = 8 →
    ∃ d, v.uint h = .ok d ∧ d.toNat = bytesValue e b % 2 ^ 32
  uint64?_false : ¬ (b.length = 1 ∨ b.length = 2 ∨ b.length = 4 ∨ b.length = 8) →
    v.uint64? h = .ok none
  uint64_zero : ¬ (b.length = 1 ∨ b.length = 2 ∨ b.length = 4 ∨ b.length = 8) →
    v.uint64 h = .ok 0

section Reads

variable {h : Heap} {v : Value} {e : Endian} {b : List UInt8} {w : Nat}

/-- A word in the byte order of the value, widened to 64 bits. -/
theorem toNat_ordered {swap : BitVec w → BitVec w} (hw : 8 * b.length = w) (hle : w ≤ 64)
    (hswap : (swap (BitVec.ofNat w (littleEndian b))).toNat = bigEndian b) :
    ((if e = .big then swap (BitVec.ofNat w (littleEndian b))
      else BitVec.ofNat w (littleEndian b)).setWidth 64).toNat = bytesValue e b := by
  have hlt : bytesValue e b < 2 ^ 64 :=
    calc bytesValue e b < 256 ^ b.length := bytesValue_lt e b
      _ = 2 ^ w := by rw [pow_256, hw]
      _ ≤ 2 ^ 64 := Nat.pow_le_pow_right (by decide) hle
  rw [BitVec.toNat_setWidth]
  cases e with
  | big =>
    rw [if_pos rfl, hswap, ← bytesValue_big]
    exact Nat.mod_eq_of_lt hlt
  | little =>
    rw [if_neg (by decide), toNat_word w hw, ← bytesValue_little]
    exact Nat.mod_eq_of_lt hlt

theorem Value.Bears.isUint_iff (hb : v.Bears h e b) : v.isUint = true ↔
    b.length = 1 ∨ b.length = 2 ∨ b.length = 4 ∨ b.length = 8 := by
  simp [Value.isUint, hb.active, hb.len, or_assoc]

/-- **Each of the four paths reads the number.** -/
theorem Value.Bears.uint64? (hb : v.Bears h e b)
    (hlen : b.length = 1 ∨ b.length = 2 ∨ b.length = 4 ∨ b.length = 8) :
    ∃ d, v.uint64? h = .ok (some d) ∧ d.toNat = bytesValue e b := by
  have hheld := hb.held
  unfold Value.uint64?
  rw [if_pos (hb.isUint_iff.mpr hlen), hb.len, hb.endian]
  rcases hlen with hlen | hlen | hlen | hlen
  · obtain ⟨x, rfl⟩ := List.length_eq_one_iff.mp hlen
    simp only [List.length_singleton, byte_eq hheld]
    refine ⟨_, rfl, ?_⟩
    rw [bytesValue_singleton, BitVec.toNat_ofNat]
    exact Nat.mod_eq_of_lt (x.toNat_lt.trans (by decide))
  · simp only [hlen, word_eq (w := 16) hheld (by omega)]
    exact ⟨_, rfl, toNat_ordered (by omega) (by decide) (ntohs_littleEndian hlen)⟩
  · simp only [hlen, word_eq (w := 32) hheld (by omega)]
    exact ⟨_, rfl, toNat_ordered (by omega) (by decide) (ntohl_littleEndian hlen)⟩
  · simp only [hlen, word_eq (w := 64) hheld (by omega)]
    have hr := toNat_ordered (e := e) (by omega) (le_refl 64) (swap64_littleEndian hlen)
    rw [BitVec.setWidth_eq] at hr
    exact ⟨_, rfl, hr⟩

theorem Value.Bears.uint64?_none (hb : v.Bears h e b)
    (hlen : ¬ (b.length = 1 ∨ b.length = 2 ∨ b.length = 4 ∨ b.length = 8)) :
    v.uint64? h = .ok none := by
  unfold Value.uint64?
  rw [if_neg (mt hb.isUint_iff.mp hlen)]

theorem uint64_of_some {d : BitVec 64} (ha : v.active = true) (hu : v.isUint = true)
    (hd : v.uint64? h = .ok (some d)) : v.uint64 h = .ok d := by
  unfold Value.uint64
  rw [ha, hu, hd]
  rfl

theorem uint_of_some {d : BitVec 64} (ha : v.active = true) (hu : v.isUint = true)
    (hd : v.uint64? h = .ok (some d)) : v.uint h = .ok (d.setWidth 32) := by
  unfold Value.uint Value.uint?
  rw [ha, hu, hd]
  rfl

/-- **A value that was given a byte string reads as its number.** -/
theorem Value.Bears.readsAs (hb : v.Bears h e b) : ReadsAs h v e b where
  uint64_eq hlen := by
    obtain ⟨d, hd, hval⟩ := hb.uint64? hlen
    exact ⟨d, uint64_of_some hb.active (hb.isUint_iff.mpr hlen) hd, hval⟩
  uint_eq hlen := by
    obtain ⟨d, hd, hval⟩ := hb.uint64? hlen
    refine ⟨_, uint_of_some hb.active (hb.isUint_iff.mpr hlen) hd, ?_⟩
    rw [BitVec.toNat_setWidth, hval]
  uint64?_false hlen := hb.uint64?_none hlen
  uint64_zero hlen := by
    have hu : v.isUint = false := Bool.eq_false_iff.mpr (mt hb.isUint_iff.mp hlen)
    unfold Value.uint64
    rw [hu, Bool.and_false]
    rfl

end Reads

/-! ## After any calls -/

/-- **Integer reading.** After any calls on a value, and anything the rest of the program does to
the memory meanwhile, `set` of a byte string makes the accessors read the number of that string,
and so does `cpy` of one that does not lie in the buffer it is copied to. -/
theorem integer_reading {heap : Heap} {unset : Endian} {as : List Action} {s : State}
    (hrun : exec step ⟨heap, { endian := unset }⟩ as = some s) {ptr : Pointer} {b : List UInt8}
    (hb : s.heap.load ptr b.length = .ok b) (e : Endian) :
    (∃ s', step s (.set ptr b.length e) = some s' ∧ ReadsAs s'.heap s'.val e b) ∧
      (s.val.bufPtr.overlaps ptr b.length = false →
        ∃ s', step s (.cpy ptr b.length e) = some s' ∧ ReadsAs s'.heap s'.val e b) := by
  have hheld : s.heap.Holds ptr b := (load_eq_ok_iff.mp hb).1
  constructor
  · obtain ⟨s', hstep, hbears⟩ := set_bears hheld e
    exact ⟨s', hstep, hbears.readsAs⟩
  · intro hover
    obtain ⟨s', hstep, hbears, -⟩ := cpy_bears (owns_exec hrun) hheld hover e
    exact ⟨s', hstep, hbears.readsAs⟩

/-- A block with the bytes 1 to 8. -/
def eightBytes : Block := (List.range' 1 8).map fun n => some (UInt8.ofNat n)

/-- Eight bytes were copied from the block, and the value was cleared. -/
def reused : State where
  heap := ⟨[some eightBytes, some eightBytes]⟩
  val := ⟨false, .addr 1 0, 8, some 1, 8, .little⟩

/-- Four bytes are copied over the eight and read in the order of the network. -/
theorem integer_reading_reused :
    ∃ s', step reused (.cpy (.addr 0 2) 4 .big) = some s' ∧
      ReadsAs s'.heap s'.val .big [3, 4, 5, 6] :=
  (integer_reading (show exec step ⟨⟨[some eightBytes]⟩, {}⟩
      [.cpy (.addr 0 0) 8 .little, .clear] = some reused from rfl)
    (b := [3, 4, 5, 6]) rfl .big).2 rfl

/-- **A copied number stays** until the next call on the value, whatever the rest of the program
does to the memory. -/
theorem copied_number_stays {heap : Heap} {unset : Endian} {as rest : List Action} {s s₁ s₂ : State}
    (hrun : exec step ⟨heap, { endian := unset }⟩ as = some s) {ptr : Pointer} {b : List UInt8}
    (hb : s.heap.Holds ptr b) (ho : s.val.bufPtr.overlaps ptr b.length = false) {e : Endian}
    (hcpy : step s (.cpy ptr b.length e) = some s₁)
    (hall : Along step (fun _ a => ∃ h, a = .other h) s₁ rest)
    (hrest : exec step s₁ rest = some s₂) : ReadsAs s₂.heap s₂.val e b := by
  obtain ⟨s', hstep, hbears, hp⟩ := cpy_bears (owns_exec hrun) hb ho e
  obtain rfl := Option.some.inj (hstep.symm.trans hcpy)
  exact (copy_stays hbears hp hall hrest).readsAs

end PacketMachine.Values
