import Mathlib

/-!
# Numbers and their bytes

* `littleEndian` is the number of a byte string whose first byte counts least, `bigEndian` the one
  of a byte string whose first byte counts most. `littleEndian_eq_sum` and `bigEndian_eq_sum` give
  both as sums.
* `byteAt n i` is byte `i` of a number. A mask and a shift move it (`toNat_byte_down`,
  `toNat_byte_up`), and `or` puts it above the bytes that are there (`or_above`).
* `ntohs` and `ntohl` are those of a little-endian host (`ntohs_littleEndian`,
  `ntohl_littleEndian`).
-/

namespace PacketMachine.Lib

/-! ## Byte strings -/

/-- The number of a byte string, the first byte counting least. -/
def littleEndian (b : List UInt8) : Nat := Nat.ofDigits 256 (b.map UInt8.toNat)

/-- The number of a byte string, the first byte counting most. -/
def bigEndian (b : List UInt8) : Nat := littleEndian b.reverse

@[simp] theorem littleEndian_nil : littleEndian [] = 0 := rfl

@[simp] theorem littleEndian_cons (x : UInt8) (b : List UInt8) :
    littleEndian (x :: b) = x.toNat + 256 * littleEndian b := rfl

theorem littleEndian_append (b b' : List UInt8) :
    littleEndian (b ++ b') = littleEndian b + 256 ^ b.length * littleEndian b' := by
  rw [littleEndian, List.map_append, Nat.ofDigits_append, List.length_map]
  rfl

theorem littleEndian_lt (b : List UInt8) : littleEndian b < 256 ^ b.length := by
  rw [← List.length_map (f := UInt8.toNat)]
  refine Nat.ofDigits_lt_base_pow_length (by decide) fun x hx => ?_
  obtain ⟨y, -, rfl⟩ := List.mem_map.mp hx
  exact y.toNat_lt

theorem bigEndian_cons (x : UInt8) (b : List UInt8) :
    bigEndian (x :: b) = bigEndian b + 256 ^ b.length * x.toNat := by
  rw [bigEndian, List.reverse_cons, littleEndian_append, List.length_reverse, littleEndian_cons,
    littleEndian_nil, Nat.mul_zero, Nat.add_zero]
  rfl

theorem bigEndian_lt (b : List UInt8) : bigEndian b < 256 ^ b.length := by
  have h := littleEndian_lt b.reverse
  rwa [List.length_reverse] at h

theorem littleEndian_eq_sum (b : List UInt8) :
    littleEndian b = ∑ i : Fin b.length, (b.get i).toNat * 256 ^ i.val := by
  induction b with
  | nil => rfl
  | cons x b ih =>
    rw [littleEndian_cons, ih, Finset.mul_sum]
    refine Eq.trans ?_ (Fin.sum_univ_succ (n := b.length) _).symm
    simp only [List.get_eq_getElem, Fin.val_zero, List.getElem_cons_zero, pow_zero, Nat.mul_one,
      Fin.val_succ, List.getElem_cons_succ, pow_succ]
    exact congrArg _ (Finset.sum_congr rfl fun i _ => by ring)

theorem bigEndian_eq_sum (b : List UInt8) :
    bigEndian b = ∑ i : Fin b.length, (b.get i).toNat * 256 ^ (b.length - 1 - i.val) := by
  induction b with
  | nil => rfl
  | cons x b ih =>
    rw [bigEndian_cons, ih, Nat.add_comm, Nat.mul_comm]
    refine Eq.trans ?_ (Fin.sum_univ_succ (n := b.length) _).symm
    simp only [List.get_eq_getElem, Fin.val_zero, List.getElem_cons_zero, List.length_cons,
      Fin.val_succ, List.getElem_cons_succ, Nat.add_sub_cancel, Nat.sub_zero]
    exact congrArg _ (Finset.sum_congr rfl fun i _ => by rw [Nat.sub_sub, Nat.add_comm 1])

/-! ## Bytes of a number -/

/-- Byte `i` of a number. -/
def byteAt (n i : Nat) : Nat := n / 256 ^ i % 256

theorem byteAt_lt (n i : Nat) : byteAt n i < 256 := Nat.mod_lt _ (by decide)

@[simp] theorem byteAt_littleEndian_zero (x : UInt8) (b : List UInt8) :
    byteAt (littleEndian (x :: b)) 0 = x.toNat := by
  have hx := x.toNat_lt
  simp only [byteAt, littleEndian_cons, pow_zero, Nat.div_one]
  omega

@[simp] theorem byteAt_littleEndian_succ (x : UInt8) (b : List UInt8) (i : Nat) :
    byteAt (littleEndian (x :: b)) (i + 1) = byteAt (littleEndian b) i := by
  have hx := x.toNat_lt
  rw [byteAt, byteAt, littleEndian_cons, pow_succ', ← Nat.div_div_eq_div_mul,
    Nat.add_mul_div_left _ _ (by decide), Nat.div_eq_of_lt hx, Nat.zero_add]

theorem pow_256 (i : Nat) : 256 ^ i = 2 ^ (8 * i) := by
  rw [pow_mul]
  norm_num

/-- A mask leaves one byte. -/
theorem and_mask (n i : Nat) : n &&& 255 * 256 ^ i = byteAt n i * 256 ^ i := by
  rw [byteAt, pow_256, show 255 = 2 ^ 8 - 1 by rfl, show 256 = 2 ^ 8 by rfl,
    ← Nat.and_two_pow_sub_one_eq_mod, ← Nat.shiftRight_eq_div_pow, ← Nat.shiftLeft_eq,
    ← Nat.shiftLeft_eq]
  refine Nat.eq_of_testBit_eq fun j => ?_
  simp only [Nat.testBit_and, Nat.testBit_shiftLeft, Nat.testBit_shiftRight]
  by_cases hj : 8 * i ≤ j
  · simp [hj]
  · simp [hj]

/-- `or` puts a number above the bytes that are there. -/
theorem or_above {a n : Nat} (h : a < 256 ^ n) (c : Nat) :
    a ||| c * 256 ^ n = a + c * 256 ^ n := by
  rw [pow_256] at h ⊢
  rw [Nat.or_comm, Nat.mul_comm, ← Nat.two_pow_add_eq_or_of_lt h, Nat.add_comm]

section Words

variable {w : Nat} (r mask : BitVec w) {i k : Nat}

theorem toNat_byte (hm : mask.toNat = 255 * 256 ^ i) :
    (r &&& mask).toNat = byteAt r.toNat i * 256 ^ i := by
  rw [BitVec.toNat_and, hm, and_mask]

/-- A byte is moved down. -/
theorem toNat_byte_down (hm : mask.toNat = 255 * 256 ^ i) (hk : k ≤ i) :
    ((r &&& mask) >>> (8 * k)).toNat = byteAt r.toNat i * 256 ^ (i - k) := by
  have hpow : 256 ^ i = 256 ^ (i - k) * 256 ^ k := by rw [← pow_add, Nat.sub_add_cancel hk]
  rw [BitVec.toNat_ushiftRight, toNat_byte r mask hm, Nat.shiftRight_eq_div_pow, pow_mul, hpow,
    ← Nat.mul_assoc]
  exact Nat.mul_div_cancel _ (by positivity)

/-- A byte is moved up. -/
theorem toNat_byte_up (hm : mask.toNat = 255 * 256 ^ i) (hw : 8 * (i + k + 1) ≤ w) :
    ((r &&& mask) <<< (8 * k)).toNat = byteAt r.toNat i * 256 ^ (i + k) := by
  rw [BitVec.toNat_shiftLeft, toNat_byte r mask hm, Nat.shiftLeft_eq, pow_mul, Nat.mul_assoc,
    show (2 ^ 8 : Nat) = 256 by rfl, ← pow_add]
  refine Nat.mod_eq_of_lt ?_
  calc byteAt r.toNat i * 256 ^ (i + k)
      < 256 * 256 ^ (i + k) := Nat.mul_lt_mul_of_pos_right (byteAt_lt _ _) (by positivity)
    _ = 2 ^ (8 * (i + k + 1)) := by rw [← pow_256, pow_succ']
    _ ≤ 2 ^ w := Nat.pow_le_pow_right (by decide) hw

/-- The word is this number, of at most `n` bytes. -/
structure Fits (x : BitVec w) (a n : Nat) : Prop where
  eq : x.toNat = a
  lt : a < 256 ^ n

variable {x y : BitVec w} {a n d : Nat}

theorem Fits.or (h : Fits x a n) (hy : y.toNat = d * 256 ^ n) (hd : d < 256) :
    Fits (x ||| y) (a + d * 256 ^ n) (n + 1) := by
  refine ⟨by rw [BitVec.toNat_or, h.eq, hy, or_above h.lt], ?_⟩
  have hmul : (d + 1) * 256 ^ n ≤ 256 * 256 ^ n := Nat.mul_le_mul_right _ hd
  have hlt := h.lt
  rw [pow_succ']
  rw [Nat.add_mul, Nat.one_mul] at hmul
  omega

/-- The last byte comes first. -/
theorem fits_last (hm : mask.toNat = 255 * 256 ^ i) :
    Fits ((r &&& mask) >>> (8 * i)) (byteAt r.toNat i) 1 := by
  refine ⟨?_, byteAt_lt _ _⟩
  rw [toNat_byte_down r mask hm (le_refl i), Nat.sub_self, pow_zero, Nat.mul_one]

theorem Fits.or_down (h : Fits x a n) (hm : mask.toNat = 255 * 256 ^ i) (hk : i = n + k) :
    Fits (x ||| (r &&& mask) >>> (8 * k)) (a + byteAt r.toNat i * 256 ^ n) (n + 1) := by
  refine h.or ?_ (byteAt_lt _ _)
  rw [toNat_byte_down r mask hm (by omega), hk, Nat.add_sub_cancel]

theorem Fits.or_up (h : Fits x a n) (hm : mask.toNat = 255 * 256 ^ i) (hk : i + k = n)
    (hw : 8 * (n + 1) ≤ w) :
    Fits (x ||| (r &&& mask) <<< (8 * k)) (a + byteAt r.toNat i * 256 ^ n) (n + 1) := by
  refine h.or ?_ (byteAt_lt _ _)
  rw [toNat_byte_up r mask hm (hk ▸ hw), hk]

end Words

/-! ## The byte order of the network -/

/-- `ntohs` on a little-endian host. -/
def ntohs (t : BitVec 16) : BitVec 16 := ((t &&& 0xFF00) >>> 8) ||| ((t &&& 0x00FF) <<< 8)

/-- `ntohl` on a little-endian host. -/
def ntohl (t : BitVec 32) : BitVec 32 :=
  ((t &&& 0xFF000000) >>> 24) ||| ((t &&& 0x00FF0000) >>> 8) |||
    ((t &&& 0x0000FF00) <<< 8) ||| ((t &&& 0x000000FF) <<< 24)

theorem ntohs_fits (t : BitVec 16) :
    Fits (ntohs t) (byteAt t.toNat 1 + byteAt t.toNat 0 * 256 ^ 1) 2 :=
  (fits_last t 0xFF00 (i := 1) rfl).or_up t 0x00FF (i := 0) (k := 1) rfl rfl (by decide)

theorem ntohl_fits (t : BitVec 32) :
    Fits (ntohl t) (byteAt t.toNat 3 + byteAt t.toNat 2 * 256 ^ 1 + byteAt t.toNat 1 * 256 ^ 2 +
      byteAt t.toNat 0 * 256 ^ 3) 4 :=
  (((fits_last t 0xFF000000 (i := 3) rfl)
    |>.or_down t 0x00FF0000 (i := 2) (k := 1) rfl rfl)
    |>.or_up t 0x0000FF00 (i := 1) (k := 1) rfl rfl (by decide))
    |>.or_up t 0x000000FF (i := 0) (k := 3) rfl rfl (by decide)

/-- A word of as many bytes has the number of the byte string. -/
theorem toNat_word (w : Nat) {b : List UInt8} (h : 8 * b.length = w) :
    (BitVec.ofNat w (littleEndian b)).toNat = littleEndian b := by
  rw [BitVec.toNat_ofNat, ← h, ← pow_256, Nat.mod_eq_of_lt (littleEndian_lt b)]

/-- **`ntohs` reads the bytes the other way round.** -/
theorem ntohs_littleEndian : ∀ {b : List UInt8}, b.length = 2 →
    (ntohs (BitVec.ofNat 16 (littleEndian b))).toNat = bigEndian b
  | [b0, b1], _ => by
    rw [(ntohs_fits _).eq, toNat_word 16 rfl]
    simp only [byteAt_littleEndian_succ, byteAt_littleEndian_zero]
    simp [bigEndian]
    ring

/-- **`ntohl` reads the bytes the other way round.** -/
theorem ntohl_littleEndian : ∀ {b : List UInt8}, b.length = 4 →
    (ntohl (BitVec.ofNat 32 (littleEndian b))).toNat = bigEndian b
  | [b0, b1, b2, b3], _ => by
    rw [(ntohl_fits _).eq, toNat_word 32 rfl]
    simp only [byteAt_littleEndian_succ, byteAt_littleEndian_zero]
    simp [bigEndian]
    ring

end PacketMachine.Lib
