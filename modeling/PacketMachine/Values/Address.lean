import PacketMachine.Values.Object
import PacketMachine.Lib.Dotted

/-!
# A value as an IPv4 address

Model of `Value::ip4` (`value.cc:103-136`, `262-266`, `value.hpp:108`): the text is written into a
local array of `INET_ADDRSTRLEN` bytes through a pointer that moves, and the last dot is
overwritten at index -1. The array is a block of its own with no byte written, so that a write
outside of it, and a read of a byte that was not written, is a fault.

* `round_returns` is the rule of one octet and `loop_returns` that of the loop.
* `ip4_canonical`: the text is that of `inet_ntop`, nothing but the array is written, and reading
  the text gives the four bytes.
-/

namespace PacketMachine.Values

open PacketMachine.Lib PacketMachine.Decode

/-- `INET_ADDRSTRLEN`. -/
def inetAddrStrLen : Nat := 16

/-- `Value::is_ip4`. -/
def Value.isIp4 (v : Value) : Bool := v.active && v.len == 4

/-- `d + '0'`. -/
def digitByte (d : Nat) : UInt8 := UInt8.ofNat (d + 48)

/-- `'.'`. -/
def dotByte : UInt8 := 46

/-- A round of the loop of `Value::ip4` for the octet `n`. -/
def ip4Round (h : Heap) (p : Pointer) (n : Nat) : Except MemFault (Heap × Pointer) := do
  let (h, p) ← (if n ≥ 100 then h.emit p (digitByte (n / 100)) else .ok (h, p))
  let (h, p) ← (if n ≥ 10 then h.emit p (digitByte (n / 10 % 10)) else .ok (h, p))
  let h ← h.store p [digitByte (n % 10)]
  let h ← h.store (p.add 1) [dotByte]
  return (h, p.add 2)

/-- The loop of `Value::ip4` over the indices that are left. -/
def ip4Loop (ptr : Pointer) : List Nat → Heap → Pointer → Except MemFault (Heap × Pointer)
  | [], h, p => .ok (h, p)
  | i :: is, h, p => do
    let n ← h.byte (ptr.add i)
    let (h, p) ← ip4Round h p n.toNat
    ip4Loop ptr is h p

/-- The memory with the array `addr` of `Value::ip4` filled, and the number of its block. -/
def Value.ip4Addr (h : Heap) (v : Value) : Except MemFault (Heap × Nat) := do
  let (h, addr) := h.alloc inetAddrStrLen
  let (h, p) ← ip4Loop v.ptr [0, 1, 2, 3] h (.addr addr 0)
  let h ← h.store (p.add (-1)) [0]
  return (h, addr)

/-- `Value::ip4(std::ostream&)`: what it prints, `none` when it returns `false`. -/
def Value.ip4? (h : Heap) (v : Value) : Except MemFault (Option Text) :=
  if v.isIp4 then do
    let (h, addr) ← v.ip4Addr h
    return some (textOf (← h.string (.addr addr 0)))
  else .ok none

/-- `Value::ip4()`. -/
def Value.ip4 (h : Heap) (v : Value) : Except MemFault Text := return (← v.ip4? h).getD []

/-! ## The digits of an octet -/

/-- What a round writes before the dot. -/
def octetBytes (n : Nat) : List UInt8 :=
  (if n ≥ 100 then [digitByte (n / 100)] else []) ++
    (if n ≥ 10 then [digitByte (n / 10 % 10)] else []) ++ [digitByte (n % 10)]

theorem textOf_append (b b' : List UInt8) : textOf (b ++ b') = textOf b ++ textOf b' :=
  List.map_append

theorem textOf_digitByte {d : Nat} (hd : d < 10) : textOf [digitByte d] = [Nat.digitChar d] := by
  interval_cases d <;> rfl

/-- **The branches write the decimal digits.** -/
theorem textOf_octetBytes {n : Nat} (hn : n < 1000) :
    textOf (octetBytes n) = Nat.toDigits 10 n := by
  unfold octetBytes
  rw [textOf_append, textOf_append, textOf_digitByte (Nat.mod_lt n (by decide)),
    Nat.toDigits_eq_if (by decide)]
  by_cases h10 : n < 10
  · rw [if_neg (by omega), if_neg (by omega), if_pos h10, Nat.mod_eq_of_lt h10]
    rfl
  · rw [if_pos (by omega : n ≥ 10), if_neg h10, textOf_digitByte (Nat.mod_lt _ (by decide)),
      Nat.toDigits_eq_if (by decide)]
    by_cases h100 : n < 100
    · have hten : n / 10 < 10 := by omega
      rw [if_neg (by omega), if_pos hten, Nat.mod_eq_of_lt hten]
      rfl
    · rw [if_pos (by omega : n ≥ 100), if_neg (by omega : ¬ n / 10 < 10),
        textOf_digitByte (by omega), Nat.div_div_eq_div_mul, Nat.toDigits_of_lt_base (by omega)]

theorem length_octetBytes (n : Nat) : (octetBytes n).length ≤ 3 := by
  unfold octetBytes
  split <;> split <;> simp

/-! ## The loop -/

section Loop

variable {h₀ h : Heap} {p ptr : Pointer} {i : Nat} {b : List UInt8}

/-- A byte that is written under a condition. -/
theorem emit_if_returns (hw : Written h₀ i inetAddrStrLen b h p) (hn : b.length < inetAddrStrLen)
    (c : Prop) [Decidable c] (x : UInt8) :
    Returns (if c then h.emit p x else .ok (h, p)) fun r =>
      Written h₀ i inetAddrStrLen (b ++ if c then [x] else []) r.1 r.2 := by
  by_cases hc : c
  · rw [if_pos hc, if_pos hc]
    exact hw.emit hn x
  · rw [if_neg hc, if_neg hc, List.append_nil]
    exact returns_ok.mpr hw

/-- **One octet**: its digits and a dot. -/
theorem round_returns (hw : Written h₀ i inetAddrStrLen b h p)
    (hn : b.length + 4 ≤ inetAddrStrLen) (n : Nat) :
    Returns (ip4Round h p n) fun r =>
      Written h₀ i inetAddrStrLen (b ++ (octetBytes n ++ [dotByte])) r.1 r.2 := by
  have hif : ∀ (c : Prop) [Decidable c] (x : UInt8), (if c then [x] else []).length ≤ 1 := by
    intro c _ x
    split <;> simp
  have h100 := hif (n ≥ 100) (digitByte (n / 100))
  have h10 := hif (n ≥ 10) (digitByte (n / 10 % 10))
  unfold ip4Round
  refine (emit_if_returns hw (by omega) (n ≥ 100) _).bind ?_
  rintro ⟨h₁, p₁⟩ hw₁
  refine (emit_if_returns hw₁ (by rw [List.length_append]; omega) (n ≥ 10) _).bind ?_
  rintro ⟨h₂, p₂⟩ hw₂
  refine (hw₂.store (by simp only [List.length_append]; omega) _).bind ?_
  intro h₃ hw₃
  refine (hw₃.store (by simp only [List.length_append, List.length_singleton]; omega) _).bind ?_
  intro h₄ hw₄
  refine returns_pure.mpr ?_
  rw [Pointer.add_add, show (1 : Int) + 1 = 2 by rfl] at hw₄
  simpa only [octetBytes, List.append_assoc] using hw₄

/-- **The loop**: each octet that is left, as long as the array has room for the longest. -/
theorem loop_returns (x : Nat → UInt8) :
    ∀ (is : List Nat) {h : Heap} {p : Pointer} {b : List UInt8},
      (∀ k ∈ is, h₀.Holds (ptr.add k) [x k] ∧ ∀ off, ptr.add k ≠ .addr i off) →
      Written h₀ i inetAddrStrLen b h p → b.length + 4 * is.length ≤ inetAddrStrLen →
      Returns (ip4Loop ptr is h p) fun r =>
        Written h₀ i inetAddrStrLen
          (b ++ is.flatMap fun k => octetBytes (x k).toNat ++ [dotByte]) r.1 r.2
  | [], h, p, b, _, hw, _ => by
    rw [List.flatMap_nil, List.append_nil]
    exact returns_ok.mpr hw
  | k :: is, h, p, b, hx, hw, hn => by
    rw [List.length_cons] at hn
    obtain ⟨⟨hheld, hne⟩, hrest⟩ := List.forall_mem_cons.mp hx
    refine .bind_ok (byte_eq (hheld.same hw.same hne)) ?_
    refine (round_returns hw (by omega) (x k).toNat).bind ?_
    rintro ⟨h₁, p₁⟩ hw₁
    have hlen := length_octetBytes (x k).toNat
    rw [List.flatMap_cons, ← List.append_assoc]
    refine loop_returns x is hrest hw₁ ?_
    simp only [List.length_append, List.length_singleton]
    omega

end Loop

/-! ## The text -/

section Text

variable {h : Heap} {v : Value} {b : List UInt8}

theorem textOf_octets {b : List UInt8} (hb : b ≠ []) :
    textOf (b.flatMap fun x => octetBytes x.toNat ++ [dotByte]) = inetNtop b ++ ['.'] := by
  rw [inetNtop_append_dot hb, textOf, List.map_flatMap]
  congr 1
  funext x
  exact (textOf_append _ _).trans
    (congrArg (· ++ ['.']) (textOf_octetBytes (x.toNat_lt.trans (by decide))))

theorem flatMap_index : ∀ {b : List UInt8}, b.length = 4 →
    ([0, 1, 2, 3].flatMap fun k => octetBytes (b.getD k 0).toNat ++ [dotByte]) =
      b.flatMap fun x => octetBytes x.toNat ++ [dotByte]
  | [_, _, _, _], _ => rfl

/-- Where the bytes lie while the array is written. -/
theorem octets_held (hb : h.Holds v.ptr b) (hlen : b.length = 4) : ∀ k ∈ [0, 1, 2, 3],
    (h.alloc inetAddrStrLen).1.Holds (v.ptr.add (k : Nat)) [b.getD k 0] ∧
      ∀ off, v.ptr.add (k : Nat) ≠ .addr h.blocks.length off := by
  intro k hk
  have hlt : k < b.length := by
    simp only [List.mem_cons, List.not_mem_nil, or_false] at hk
    omega
  have hheld := hb.index hlt
  rw [List.getD_eq_getElem b 0 hlt]
  exact ⟨hheld.same (sameBut_push h _) hheld.ne_new, hheld.ne_new⟩

/-- What the loop writes: the text, and a dot behind it. -/
theorem octets_text (hlen : b.length = 4) : ∃ s, textOf s = inetNtop b ∧ (0 : UInt8) ∉ s ∧
    ∃ y, (b.flatMap fun x => octetBytes x.toNat ++ [dotByte]) = s ++ [y] := by
  have hne : b ≠ [] := by
    rintro rfl
    cases hlen
  have htext := textOf_octets hne
  rcases List.eq_nil_or_concat' (b.flatMap fun x => octetBytes x.toNat ++ [dotByte]) with
    hnil | ⟨s, y, hs⟩
  · rw [hnil] at htext
    exact absurd htext.symm (by simp [textOf])
  · rw [hs, textOf_append] at htext
    have hs' : textOf s = inetNtop b := List.append_inj_left' htext rfl
    refine ⟨s, hs', ?_, y, hs⟩
    intro h0
    have hmem : Char.ofNat (0 : UInt8).toNat ∈ textOf s := List.mem_map_of_mem h0
    rw [hs'] at hmem
    rcases mem_inetNtop hne hmem with hdigit | hdot
    · exact absurd hdigit (by decide)
    · exact absurd hdot (by decide)

/-- **The array** holds the text and its end, and nothing else is written. -/
theorem ip4Addr_returns (hb : h.Holds v.ptr b) (hlen : b.length = 4) :
    Returns (v.ip4Addr h) fun r => r.2 = h.blocks.length ∧ h.SameBut r.1 r.2 ∧
      ∃ s, textOf s = inetNtop b ∧ (0 : UInt8) ∉ s ∧
        r.1.Starts r.2 inetAddrStrLen (s ++ [0]) := by
  obtain ⟨s, htext, h0, y, hs⟩ := octets_text hlen
  have hloop := loop_returns (fun k => b.getD k 0) [0, 1, 2, 3] (octets_held hb hlen)
    (written_alloc h inetAddrStrLen) (by decide)
  refine hloop.bind ?_
  rintro ⟨h₁, p⟩ hw
  rw [List.nil_append, flatMap_index hlen, hs] at hw
  refine (hw.back 0).bind ?_
  rintro h₂ ⟨hstarts, hsame⟩
  exact returns_pure.mpr ⟨rfl, (sameBut_push h _).trans hsame, s, htext, h0, hstarts⟩

/-- **The text** is that of `inet_ntop`. -/
theorem ip4_eq (hv : v.isIp4 = true) (hb : h.Holds v.ptr b) (hlen : b.length = 4) :
    v.ip4 h = .ok (inetNtop b) := by
  obtain ⟨⟨h', addr⟩, haddr, -, -, s, htext, h0, hstarts⟩ := ip4Addr_returns hb hlen
  have hprint : v.ip4? h = .ok (some (inetNtop b)) := by
    unfold Value.ip4?
    rw [if_pos hv, haddr]
    change (do return some (textOf (← h'.string (.addr addr 0)))) = _
    rw [string_of_starts hstarts h0, ← htext]
    rfl
  unfold Value.ip4
  rw [hprint]
  rfl

/-- **The formatter agrees with `inet_ntop`.** For every value of four bytes it returns, so that no
write is outside of its array: that is a new block of 16 bytes, and no other block changes. The
text is the canonical one, fits the array with its end, and is read back as the four bytes. -/
theorem ip4_canonical (hv : v.isIp4 = true) (hb : h.load v.ptr 4 = .ok b) :
    (∃ h' addr, v.ip4Addr h = .ok (h', addr) ∧ h.block? addr = none ∧
        h'.size? addr = some inetAddrStrLen ∧ h.SameBut h' addr) ∧
      v.ip4 h = .ok (inetNtop b) ∧ (inetNtop b).length + 1 ≤ inetAddrStrLen ∧
      IsDotted (inetNtop b) ∧ inetPton (inetNtop b) = some b := by
  obtain ⟨hheld, hlen⟩ := load_eq_ok_iff.mp hb
  obtain ⟨⟨h', addr⟩, haddr, rfl, hsame, s, -, -, hstarts⟩ := ip4Addr_returns hheld hlen
  refine ⟨⟨h', _, haddr, ?_, hstarts.size?, hsame⟩, ip4_eq hv hheld hlen, ?_, ?_, ?_⟩
  · rw [Heap.block?, List.getElem?_eq_none (le_refl _)]
    rfl
  · exact Nat.succ_le_succ (length_inetNtop_le hlen)
  · exact isDotted_iff.mpr ⟨b, hlen, rfl⟩
  · exact inetPton_eq_some_iff.mpr ⟨hlen, rfl⟩

end Text

/-- A value that was set to four bytes 255. -/
def broadcast : State where
  heap := ⟨[some (List.replicate 4 (some 255))]⟩
  val := Value.set {} (.addr 0 0) 4

/-- The longest address fills the array. -/
theorem ip4_canonical_longest :
    (∃ h' addr, broadcast.val.ip4Addr broadcast.heap = .ok (h', addr) ∧
        broadcast.heap.block? addr = none ∧ h'.size? addr = some inetAddrStrLen ∧
        broadcast.heap.SameBut h' addr) ∧
      broadcast.val.ip4 broadcast.heap = .ok (inetNtop [255, 255, 255, 255]) ∧
      (inetNtop [255, 255, 255, 255]).length + 1 ≤ inetAddrStrLen ∧
      IsDotted (inetNtop [255, 255, 255, 255]) ∧
      inetPton (inetNtop [255, 255, 255, 255]) = some [255, 255, 255, 255] :=
  ip4_canonical (h := broadcast.heap) (v := broadcast.val) rfl rfl

end PacketMachine.Values
