import Mathlib

/-!
# IPv4 addresses in text

* `inetNtop` writes the numbers of four bytes with dots between them, as `inet_ntop` does
  (`"%u.%u.%u.%u"`).
* `inetPton` reads such a text, as `inet_pton` does: four decimal numbers of at most 255, without
  leading zeros and with dots between them.

`inetPton_eq_some_iff`: each is the inverse of the other. So the texts that are read are those that
are written, and these are the ones of `IsDotted`.
-/

namespace PacketMachine.Lib

/-- The decimal text of a byte, without leading zeros. -/
structure IsOctet (t : List Char) : Prop where
  ne_nil : t ≠ []
  digits : ∀ c ∈ t, c.isDigit = true
  no_zero : t.head? = some '0' → t = ['0']
  le : Nat.ofDigitChars 10 t 0 ≤ 255

/-- Four decimal numbers joined by dots. -/
def IsDotted (t : List Char) : Prop :=
  ∃ ns : List (List Char), ns.length = 4 ∧ (∀ n ∈ ns, IsOctet n) ∧ t = List.intercalate ['.'] ns

instance (t : List Char) : Decidable (IsOctet t) :=
  decidable_of_iff (t ≠ [] ∧ (∀ c ∈ t, c.isDigit = true) ∧ (t.head? = some '0' → t = ['0']) ∧
      Nat.ofDigitChars 10 t 0 ≤ 255)
    ⟨fun ⟨h₁, h₂, h₃, h₄⟩ => ⟨h₁, h₂, h₃, h₄⟩, fun h => ⟨h.1, h.2, h.3, h.4⟩⟩

/-- `inet_ntop(AF_INET, ..)`. -/
def inetNtop (b : List UInt8) : List Char :=
  List.intercalate ['.'] (b.map fun x => Nat.toDigits 10 x.toNat)

/-- One number of an address. -/
def octet? (t : List Char) : Option UInt8 :=
  if IsOctet t then some (UInt8.ofNat (Nat.ofDigitChars 10 t 0)) else none

/-- `inet_pton(AF_INET, ..)`. -/
def inetPton (t : List Char) : Option (List UInt8) :=
  if (t.splitOn '.').length = 4 then (t.splitOn '.').mapM octet? else none

/-! ## Digits -/

theorem exists_digit {c : Char} (hc : c.isDigit = true) : ∃ d < 10, c = Nat.digitChar d := by
  have hrange : 48 ≤ c.toNat ∧ c.toNat ≤ 57 := by
    simpa [Char.isDigit, UInt32.le_iff_toNat_le] using hc
  refine ⟨c.toNat - 48, by omega, Char.toNat_inj.mp ?_⟩
  rw [Nat.toNat_digitChar_of_lt_ten (by omega)]
  omega

/-- Digits behind a number that is not 0. -/
theorem toDigits_append_digits {n : Nat} {t : List Char} (hn : 0 < n)
    (ht : ∀ c ∈ t, c.isDigit = true) :
    Nat.toDigits 10 n ++ t = Nat.toDigits 10 (Nat.ofDigitChars 10 t n) := by
  induction t generalizing n with
  | nil => rw [List.append_nil, Nat.ofDigitChars_nil]
  | cons c t ih =>
    obtain ⟨hc, htail⟩ := List.forall_mem_cons.mp ht
    obtain ⟨d, hd, rfl⟩ := exists_digit hc
    have hstep := Nat.toDigits_append_toDigits (b := 10) (by decide) hn hd
    rw [Nat.toDigits_of_lt_base hd] at hstep
    rw [Nat.ofDigitChars_cons_digitChar_of_lt_ten hd, ← ih (by omega) htail, ← hstep,
      List.append_assoc, List.singleton_append]

/-- A number of digits without leading zeros is written in one way. -/
theorem IsOctet.eq_toDigits {t : List Char} (ht : IsOctet t) :
    t = Nat.toDigits 10 (Nat.ofDigitChars 10 t 0) := by
  rcases t with _ | ⟨c, t⟩
  · exact absurd rfl ht.ne_nil
  · obtain ⟨hc, hdigits⟩ := List.forall_mem_cons.mp ht.digits
    obtain ⟨d, hd, rfl⟩ := exists_digit hc
    rcases Nat.eq_zero_or_pos d with rfl | hpos
    · rw [ht.no_zero rfl]
      rfl
    · rw [Nat.ofDigitChars_cons_digitChar_of_lt_ten hd, Nat.mul_zero, Nat.zero_add,
        ← toDigits_append_digits hpos hdigits, Nat.toDigits_of_lt_base hd, List.singleton_append]

theorem head?_toDigits {n : Nat} (hn : 0 < n) : (Nat.toDigits 10 n).head? ≠ some '0' := by
  induction n using Nat.strong_induction_on with
  | _ n ih =>
    rw [Nat.toDigits_eq_if (by decide)]
    split
    · rename_i hlt
      rw [List.head?_singleton, ne_eq, Option.some.injEq, Nat.digitChar_eq_zero]
      omega
    · rw [List.head?_append_of_ne_nil _ Nat.toDigits_ne_nil]
      exact ih (n / 10) (by omega) (by omega)

theorem isOctet_toDigits (x : UInt8) : IsOctet (Nat.toDigits 10 x.toNat) where
  ne_nil := Nat.toDigits_ne_nil
  digits c hc := Nat.isDigit_of_mem_toDigits (by decide) (by decide) hc
  no_zero h := by
    by_contra hne
    rcases Nat.eq_zero_or_pos x.toNat with hx | hx
    · exact hne (by rw [hx, Nat.toDigits_zero])
    · exact head?_toDigits hx h
  le := by
    rw [Nat.ofDigitChars_ten_toDigits]
    exact Nat.le_of_lt_succ x.toNat_lt

theorem octet?_eq_some_iff {t : List Char} {x : UInt8} :
    octet? t = some x ↔ t = Nat.toDigits 10 x.toNat := by
  unfold octet?
  constructor
  · intro h
    rw [Option.ite_none_right_eq_some] at h
    obtain ⟨ht, h⟩ := h
    obtain rfl := Option.some.inj h
    rw [UInt8.toNat_ofNat_of_lt' (Nat.lt_succ_of_le ht.le)]
    exact ht.eq_toDigits
  · rintro rfl
    rw [if_pos (isOctet_toDigits x), Nat.ofDigitChars_ten_toDigits, UInt8.ofNat_toNat]

/-! ## Addresses -/

theorem mapM_octet?_iff {ns : List (List Char)} {b : List UInt8} :
    ns.mapM octet? = some b ↔ ns = b.map fun x => Nat.toDigits 10 x.toNat := by
  induction ns generalizing b with
  | nil => cases b <;> simp
  | cons n ns ih =>
    rw [List.mapM_cons]
    rcases b with _ | ⟨x, b⟩
    · simp [Option.bind_eq_some_iff]
    · rw [List.map_cons, List.cons.injEq, ← ih, ← octet?_eq_some_iff]
      simp [Option.bind_eq_some_iff]

theorem dot_not_mem_toDigits (n : Nat) : '.' ∉ Nat.toDigits 10 n := by
  intro h
  exact absurd (Nat.isDigit_of_mem_toDigits (by decide) (by decide) h) (by decide)

theorem splitOn_inetNtop {b : List UInt8} (hb : b ≠ []) :
    (inetNtop b).splitOn '.' = b.map fun x => Nat.toDigits 10 x.toNat := by
  refine List.splitOn_intercalate '.' ?_ (by simpa using hb)
  intro n hn
  obtain ⟨x, -, rfl⟩ := List.mem_map.mp hn
  exact dot_not_mem_toDigits x.toNat

/-- **Reading and writing are inverse.** -/
theorem inetPton_eq_some_iff {t : List Char} {b : List UInt8} :
    inetPton t = some b ↔ b.length = 4 ∧ t = inetNtop b := by
  unfold inetPton
  rw [Option.ite_none_right_eq_some, mapM_octet?_iff]
  constructor
  · rintro ⟨hlen, hns⟩
    refine ⟨by rw [← hlen, hns, List.length_map], ?_⟩
    rw [inetNtop, ← hns, List.intercalate_splitOn]
  · rintro ⟨hlen, rfl⟩
    have hne : b ≠ [] := by
      rintro rfl
      cases hlen
    rw [splitOn_inetNtop hne]
    exact ⟨by rw [List.length_map, hlen], rfl⟩

/-- **The texts of four bytes** are those of four decimal numbers joined by dots. -/
theorem isDotted_iff {t : List Char} : IsDotted t ↔ ∃ b, b.length = 4 ∧ t = inetNtop b := by
  constructor
  · rintro ⟨ns, hlen, hns, rfl⟩
    have hback : ∀ n ∈ ns, Nat.toDigits 10 (UInt8.ofNat (Nat.ofDigitChars 10 n 0)).toNat = n := by
      intro n hn
      rw [UInt8.toNat_ofNat_of_lt' (Nat.lt_succ_of_le (hns n hn).le)]
      exact (hns n hn).eq_toDigits.symm
    refine ⟨ns.map fun n => UInt8.ofNat (Nat.ofDigitChars 10 n 0), ?_, ?_⟩
    · rw [List.length_map, hlen]
    · rw [inetNtop, List.map_map]
      exact congrArg _ ((List.map_id' ns).symm.trans
        (List.map_congr_left fun n hn => (hback n hn).symm))
  · rintro ⟨b, hlen, rfl⟩
    refine ⟨_, (List.length_map _).trans hlen, ?_, rfl⟩
    intro n hn
    obtain ⟨x, -, rfl⟩ := List.mem_map.mp hn
    exact isOctet_toDigits x

theorem length_toDigits_le (x : UInt8) : (Nat.toDigits 10 x.toNat).length ≤ 3 :=
  (Nat.length_toDigits_le_iff (by decide) (by decide)).mpr (x.toNat_lt.trans (by decide))

/-- The longest address has 15 characters. -/
theorem length_inetNtop_le : ∀ {b : List UInt8}, b.length = 4 → (inetNtop b).length ≤ 15
  | [b0, b1, b2, b3], _ => by
    have h0 := length_toDigits_le b0
    have h1 := length_toDigits_le b1
    have h2 := length_toDigits_le b2
    have h3 := length_toDigits_le b3
    simp [inetNtop, List.intercalate]
    omega

/-- The text with a dot behind each number. -/
theorem inetNtop_append_dot {b : List UInt8} (hb : b ≠ []) :
    inetNtop b ++ ['.'] = b.flatMap fun x => Nat.toDigits 10 x.toNat ++ ['.'] := by
  unfold inetNtop
  induction b with
  | nil => exact absurd rfl hb
  | cons x b ih =>
    rcases b with _ | ⟨y, b⟩
    · simp
    · rw [List.flatMap_cons, ← ih (by simp)]
      simp

theorem mem_inetNtop {b : List UInt8} {c : Char} (hb : b ≠ []) (hc : c ∈ inetNtop b) :
    c.isDigit = true ∨ c = '.' := by
  have hmem : c ∈ inetNtop b ++ ['.'] := List.mem_append_left _ hc
  rw [inetNtop_append_dot hb] at hmem
  obtain ⟨x, -, hx⟩ := List.mem_flatMap.mp hmem
  rcases List.mem_append.mp hx with hx | hx
  · exact .inl (Nat.isDigit_of_mem_toDigits (by decide) (by decide) hx)
  · exact .inr (List.mem_singleton.mp hx)

end PacketMachine.Lib
