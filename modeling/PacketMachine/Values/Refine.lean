import PacketMachine.Values.Number
import PacketMachine.Values.Address

/-!
# The `Value` of the decoder refines to memory

The modules of the decoder are modelled over a `Cell`, whose buffer is a byte string and whose
numbers and addresses are those of the byte string. Here the cell is related to the members of
`Value` over a memory of blocks, of which the packet is one.

* `Refines`: the cell describes the value. It is kept by `set`, `cpy` and `clear` (`Refines.set`,
  `Refines.cpy`, `Refines.clear`), so it holds of a value and a cell that got the same calls
  (`refines_of_together`).
* `accessors_agree`: then an accessor of the value returns what that of the cell does.
-/

namespace PacketMachine.Values

open PacketMachine.Lib PacketMachine.Decode

/-- The two pointers are the same. -/
inductive Points (pk : Nat) (h : Heap) (v : Value) (c : Cell) : Prop
  | null (hv : v.ptr = .null) (hc : c.ptr = .null)
  | pkt (off : Nat) (hv : v.ptr = .addr pk off) (hc : c.ptr = .pkt off)
  | own (hv : v.ptr = v.bufPtr) (hc : c.ptr = .own) (hlen : c.len ≤ c.buf.length)
  | ext (data : List UInt8) (hv : h.Holds v.ptr data) (hc : c.ptr = .ext data)
      (hlen : c.len ≤ data.length)

/-- The block `pk` is the packet. -/
def IsPacket (h : Heap) (pk : Nat) (m : Mem) : Prop :=
  ∃ bs, h.block? pk = some bs ∧ ∀ i, m i = bs[i]?.join

/-- The block of `buf_` has the bytes of the cell. -/
def SameBuffer (pk : Nat) (h : Heap) (v : Value) (c : Cell) : Prop :=
  v.bufLen = c.buf.length ∧
    match v.buf with
    | none => c.buf = []
    | some i => i ≠ pk ∧ h.block? i = some (c.buf.map some)

/-- The cell describes the value. -/
structure Refines (pk : Nat) (h : Heap) (v : Value) (m : Mem) (c : Cell) : Prop where
  active : v.active = c.active
  len : v.len = c.len
  endian : v.endian = c.endian
  ptr : Points pk h v c
  buffer : SameBuffer pk h v c
  packet : IsPacket h pk m

section Reads

variable {pk : Nat} {h : Heap} {v : Value} {m : Mem} {c : Cell} {b : List UInt8} {off n : Nat}

/-- Bytes that are read from the packet are there in its block. -/
theorem bytes_block {bs : Block} (hm : ∀ i, m i = bs[i]?.join) (hb : m.bytes off n = .ok b) :
    (bs.drop off).take n = b.map some ∧ b.length = n := by
  induction n generalizing off b with
  | zero =>
    obtain rfl := Except.ok.inj hb
    exact ⟨rfl, rfl⟩
  | succ n ih =>
    rw [Mem.bytes] at hb
    obtain ⟨x, hx, hb⟩ := returns_of_bind hb
    obtain ⟨b', hb', hb⟩ := returns_of_bind hb
    obtain rfl := Except.ok.inj hb
    obtain ⟨htake, hlen⟩ := ih hb'
    have hat : bs[off]? = some (some x) := by
      unfold Mem.u8 at hx
      cases hoff : m off with
      | none => simp [hoff] at hx
      | some y =>
        simp only [hoff, Except.ok.injEq] at hx
        rw [hm, Option.join_eq_some_iff] at hoff
        rw [hoff, hx]
    obtain ⟨hlt, hget⟩ := List.getElem?_eq_some_iff.mp hat
    rw [List.drop_eq_getElem_cons hlt, hget, List.take_succ_cons, htake, List.length_cons, hlen]
    exact ⟨rfl, rfl⟩

/-- The bytes of the cell lie at `ptr_`. -/
theorem Refines.held (hr : Refines pk h v m c) (hpos : 0 < c.len) (hb : c.bytes m = .ok b) :
    h.Holds v.ptr b ∧ b.length = c.len := by
  unfold Cell.bytes at hb
  cases hr.ptr with
  | null hv hc =>
    rw [hc] at hb
    simp [Nat.ne_of_gt hpos] at hb
  | pkt off hv hc =>
    rw [hc] at hb
    obtain ⟨bs, hbs, hm⟩ := hr.packet
    obtain ⟨htake, hlen⟩ := bytes_block hm hb
    have hoff : off < bs.length := by
      have hl := congrArg List.length htake
      rw [List.length_take, List.length_drop, List.length_map] at hl
      omega
    rw [hv]
    refine ⟨⟨bs.take off, bs.drop (off + c.len), ?_, ?_⟩, hlen⟩
    · rw [hbs, ← htake, ← split_at]
    · rw [List.length_take_of_le (Nat.le_of_lt hoff)]
  | own hv hc hlen =>
    rw [hc] at hb
    obtain rfl := Except.ok.inj hb
    obtain ⟨-, hbuf⟩ := hr.buffer
    rw [hv, Value.bufPtr]
    cases hown : v.buf with
    | none =>
      simp only [hown] at hbuf
      rw [hbuf, List.length_nil] at hlen
      omega
    | some i =>
      simp only [hown] at hbuf
      refine ⟨⟨[], (c.buf.drop c.len).map some, ?_, rfl⟩, List.length_take_of_le hlen⟩
      rw [hbuf.2, List.nil_append, ← List.map_append, List.take_append_drop]
  | ext data hv hc hlen =>
    rw [hc] at hb
    obtain rfl := Except.ok.inj hb
    have hsplit : data = [] ++ data.take c.len ++ data.drop c.len := by
      rw [List.nil_append, List.take_append_drop]
    rw [hsplit] at hv
    have hpart := hv.part
    rw [List.length_nil, Nat.cast_zero, Pointer.add_zero] at hpart
    exact ⟨hpart, List.length_take_of_le hlen⟩

/-! ## The accessors agree -/

theorem littleEndian_eq_foldr (b : List UInt8) :
    littleEndian b = b.foldr (fun x n => x.toNat + 256 * n) 0 := by
  induction b with
  | nil => rfl
  | cons x b ih => rw [littleEndian_cons, ih, List.foldr_cons]

/-- The cell and the value give a byte string the same number. -/
theorem numberOf_eq (e : Endian) (b : List UInt8) : numberOf e b = bytesValue e b := by
  cases e with
  | little =>
    rw [bytesValue_little, littleEndian_eq_foldr]
    rfl
  | big =>
    rw [bytesValue_big, bigEndian, littleEndian_eq_foldr, List.foldr_reverse]
    have hstep : (fun (n : Nat) (x : UInt8) => n * 256 + x.toNat) =
        fun n x => x.toNat + 256 * n := by
      funext n x
      omega
    rw [← hstep]
    rfl

theorem Refines.bears (hr : Refines pk h v m c) (ha : c.active = true) (hpos : 0 < c.len)
    (hb : c.bytes m = .ok b) : v.Bears h c.endian b := by
  obtain ⟨hheld, hlen⟩ := hr.held hpos hb
  exact ⟨hr.active.trans ha, hr.endian, hr.len.trans hlen.symm, hheld⟩

/-- **`uint64` of the value** is that of the cell. -/
theorem Refines.uint64? {o : Option Nat} (hr : Refines pk h v m c) (hc : c.uint64? m = .ok o) :
    v.uint64? h = .ok (o.map (BitVec.ofNat 64)) := by
  unfold Cell.uint64? at hc
  split at hc
  · rename_i hu
    obtain ⟨b, hb, hc⟩ := returns_of_bind hc
    obtain rfl := Except.ok.inj hc
    simp only [Cell.isUint, Bool.and_eq_true, Bool.or_eq_true, beq_iff_eq, or_assoc] at hu
    obtain ⟨ha, hlen⟩ := hu
    have hpos : 0 < c.len := by omega
    obtain ⟨d, hd, hval⟩ := (hr.bears ha hpos hb).uint64? (by rwa [(hr.held hpos hb).2])
    rw [hd, Option.map_some, numberOf_eq, ← hval, BitVec.ofNat_toNat, BitVec.setWidth_eq]
  · rename_i hu
    obtain rfl := Except.ok.inj hc
    have hv : v.isUint = c.isUint := by rw [Value.isUint, Cell.isUint, hr.active, hr.len]
    rw [Value.uint64?, hv, if_neg hu, Option.map_none]

/-- The cell writes the decimal digits too. -/
theorem decimal_eq {n : Nat} (hn : n < 1000) : decimal n = Nat.toDigits 10 n := by
  have hdigit : ∀ k, [digit k] = textOf [digitByte (k % 10)] := by
    intro k
    rw [textOf_digitByte (Nat.mod_lt k (by decide)), digit]
    have hk := Nat.mod_lt k (y := 10) (by decide)
    interval_cases k % 10 <;> rfl
  have hfirst : [digit (n / 100)] = textOf [digitByte (n / 100)] := by
    rw [hdigit, Nat.mod_eq_of_lt (by omega)]
  rw [← textOf_octetBytes hn, decimal, octetBytes, textOf_append, textOf_append, hfirst,
    hdigit (n / 10), hdigit n, apply_ite textOf, apply_ite textOf]
  rfl

theorem flatMap_decimal (hb : b ≠ []) :
    (b.flatMap fun x => decimal x.toNat ++ ['.']).dropLast = inetNtop b := by
  have htext : (b.flatMap fun x => decimal x.toNat ++ ['.']) = inetNtop b ++ ['.'] := by
    rw [inetNtop_append_dot hb]
    congr 1
    funext x
    rw [decimal_eq (x.toNat_lt.trans (by decide))]
  rw [htext, List.dropLast_concat]

/-- **`ip4` of the value** is that of the cell. -/
theorem Refines.ip4 {t : Text} (hr : Refines pk h v m c) (hc : c.ip4 m = .ok t) :
    v.ip4 h = .ok t := by
  have hv : v.isIp4 = true ↔ c.active = true ∧ c.len = 4 := by
    rw [Value.isIp4, hr.active, hr.len, Bool.and_eq_true, beq_iff_eq]
  unfold Cell.ip4 at hc
  split at hc
  · rename_i ha
    obtain ⟨b, hb, hc⟩ := returns_of_bind hc
    obtain rfl := Except.ok.inj hc
    have hpos : 0 < c.len := by omega
    obtain ⟨hheld, hlen⟩ := hr.held hpos hb
    have hne : b ≠ [] := by
      rintro rfl
      exact absurd hlen (Nat.ne_of_lt hpos)
    rw [ip4_eq (hv.mpr ha) hheld (hlen.trans ha.2), flatMap_decimal hne]
  · rename_i ha
    obtain rfl := Except.ok.inj hc
    rw [Value.ip4, Value.ip4?, if_neg (mt hv.mp ha)]
    rfl

end Reads

/-! ## The calls keep the relation -/

section Calls

variable {pk : Nat} {h h' : Heap} {v v' : Value} {m : Mem} {c : Cell} {b : List UInt8}
  {ptr : Pointer} {e : Endian}

theorem refines_new (hpk : IsPacket h pk m) : Refines pk h {} m {} where
  active := rfl
  len := rfl
  endian := rfl
  ptr := .null rfl rfl
  buffer := ⟨rfl, rfl⟩
  packet := hpk

theorem Refines.set {q : Ptr} {len : Nat} (hr : Refines pk h v m c)
    (hp : Points pk h (v.set ptr len e) (c.set q len e)) :
    Refines pk h (v.set ptr len e) m (c.set q len e) where
  active := rfl
  len := rfl
  endian := rfl
  ptr := hp
  buffer := hr.buffer
  packet := hr.packet

theorem Refines.clear (hr : Refines pk h v m c) : Refines pk h v.clear m c.clear where
  active := rfl
  len := hr.len
  endian := hr.endian
  ptr := by
    cases hr.ptr with
    | null hv hc => exact .null hv hc
    | pkt off hv hc => exact .pkt off hv hc
    | own hv hc hlen => exact .own hv hc hlen
    | ext data hv hc hlen => exact .ext data hv hc hlen
  buffer := hr.buffer
  packet := hr.packet

theorem SameBuffer.owns (hb : SameBuffer pk h v c) : Owns h v := by
  obtain ⟨hlen, hbuf⟩ := hb
  unfold Owns
  cases hown : v.buf with
  | none =>
    simp only [hown] at hbuf ⊢
    rw [hlen, hbuf]
    rfl
  | some i =>
    simp only [hown] at hbuf ⊢
    rw [Heap.size?, hbuf.2, Option.map_some, List.length_map, hlen]

/-- The buffer before the copy: behind the new bytes it has what the cell keeps. -/
theorem Refines.reserve (hr : Refines pk h v m c) (len : Nat) :
    IsPacket (v.reserve h len).1 pk m ∧
      ((v.reserve h len).2.buf = none → c.buf = []) ∧
      ∀ i, (v.reserve h len).2.buf = some i → i ≠ pk ∧ ∃ old,
        (v.reserve h len).1.block? i = some old ∧ len ≤ old.length ∧
          old.drop len = (c.buf.drop len).map some := by
  obtain ⟨hbl, hbuf⟩ := hr.buffer
  unfold Value.reserve
  split
  · rename_i hlt
    obtain ⟨bs, hbs, hm⟩ := hr.packet
    have hne : v.buf ≠ some pk := by
      intro hown
      simp only [hown] at hbuf
      exact hbuf.1 rfl
    refine ⟨⟨bs, block?_realloc hne hbs, hm⟩, by rintro ⟨⟩, ?_⟩
    intro i hi
    obtain rfl := Option.some.inj hi
    obtain ⟨old, hold, hlen⟩ := Option.map_eq_some_iff.mp (size?_realloc h v.buf len)
    refine ⟨?_, old, hold, Nat.le_of_eq hlen.symm, ?_⟩
    · rw [realloc_number]
      exact Nat.ne_of_gt (block?_lt hbs)
    · rw [List.drop_eq_nil_of_le (Nat.le_of_eq hlen), List.drop_eq_nil_of_le (by omega)]
      rfl
  · rename_i hge
    refine ⟨hr.packet, ?_, ?_⟩
    · intro (hown : v.buf = none)
      simpa only [hown] using hbuf
    · intro i (hown : v.buf = some i)
      simp only [hown] at hbuf
      refine ⟨hbuf.1, _, hbuf.2, ?_, List.map_drop.symm⟩
      rw [List.length_map]
      omega

/-- **A copy keeps the relation.** -/
theorem Refines.cpy (hr : Refines pk h v m c) (hb : h.Holds ptr b)
    (ho : v.bufPtr.overlaps ptr b.length = false)
    (hc : v.cpy h ptr b.length e = .ok (h', v')) : Refines pk h' v' m (c.cpy b e) := by
  obtain ⟨hcopy, rfl⟩ := cpy_eq_ok_iff.mp hc
  have howns := hr.buffer.owns
  obtain ⟨hheld, hover⟩ := howns.held hb ho
  have hroom := le_reserve h v b.length
  have hown₁ := howns.reserve b.length
  obtain ⟨hpk, hnone, hsome⟩ := hr.reserve b.length
  generalize v.reserve h b.length = r at hcopy hheld hover hroom hown₁ hpk hnone hsome ⊢
  obtain ⟨h₁, v₁⟩ := r
  have hlen : b.length ≤ (b ++ c.buf.drop b.length).length := by
    rw [List.length_append]
    omega
  unfold Owns at hown₁
  cases hown : v₁.buf with
  | none =>
    simp only [hown] at hown₁
    obtain rfl := List.length_eq_zero_iff.mp (Nat.le_zero.mp (hown₁ ▸ hroom))
    have hptr : v₁.bufPtr = .null := by rw [Value.bufPtr, hown, Option.elim_none]
    rw [hptr] at hcopy
    obtain rfl := Except.ok.inj ((memcpy_null hheld).symm.trans hcopy)
    have hnil := hnone hown
    refine ⟨rfl, rfl, rfl, .own rfl rfl hlen, ⟨?_, ?_⟩, hpk⟩
    · change v₁.bufLen = ([] ++ c.buf.drop 0).length
      rw [hown₁, hnil]
      rfl
    · simp only [Value.set, hown, Cell.cpy]
      rw [hnil]
      rfl
  | some i =>
    have hptr : v₁.bufPtr = .addr i 0 := by rw [Value.bufPtr, hown, Option.elim_some]
    obtain ⟨hne, old, hold, hle, hdrop⟩ := hsome i hown
    simp only [hown, Heap.size?, hold, Option.map_some, Option.some.injEq] at hown₁
    rw [hptr] at hcopy hover
    obtain rfl := Except.ok.inj ((memcpy_front hheld hover hold hle).symm.trans hcopy)
    obtain ⟨bs, hbs, hm⟩ := hpk
    refine ⟨rfl, rfl, rfl, .own rfl rfl hlen, ⟨?_, ?_⟩, bs, ?_, hm⟩
    · have hl := congrArg List.length hdrop
      rw [List.length_map, List.length_drop] at hl
      change v₁.bufLen = (b ++ c.buf.drop b.length).length
      rw [List.length_append]
      omega
    · simp only [Value.set, hown, Cell.cpy]
      rw [block?_put hold, if_pos rfl, hdrop, ← List.map_append]
      exact ⟨hne, rfl⟩
    · rw [sameBut_put hold _ pk hne.symm, hbs]

/-- The states of a value and of a cell that got the same calls. The packet and what `set` points to
stay as they are. -/
inductive Together (pk : Nat) (m : Mem) : State → Cell → Prop
  | new {h : Heap} (hpk : IsPacket h pk m) : Together pk m ⟨h, {}⟩ {}
  | packet {s : State} {c : Cell} (ht : Together pk m s c) (off len : Nat) (e : Endian) {s' : State}
      (hs : step s (.set (.addr pk off) len e) = some s') :
      Together pk m s' (c.set (.pkt off) len e)
  | set {s : State} {c : Cell} (ht : Together pk m s c) {ptr : Pointer} {b : List UInt8}
      (hb : s.heap.Holds ptr b) (e : Endian) {s' : State}
      (hs : step s (.set ptr b.length e) = some s') : Together pk m s' (c.set (.ext b) b.length e)
  | cpy {s : State} {c : Cell} (ht : Together pk m s c) {ptr : Pointer} {b : List UInt8}
      (hb : s.heap.Holds ptr b) (ho : s.val.bufPtr.overlaps ptr b.length = false) (e : Endian)
      {s' : State} (hs : step s (.cpy ptr b.length e) = some s') : Together pk m s' (c.cpy b e)
  | clear {s : State} {c : Cell} (ht : Together pk m s c) {s' : State}
      (hs : step s .clear = some s') : Together pk m s' c.clear

/-- **After the same calls** the cell describes the value. -/
theorem refines_of_together {s : State} (ht : Together pk m s c) :
    Refines pk s.heap s.val m c := by
  induction ht with
  | new hpk => exact refines_new hpk
  | packet _ off len e hs ih =>
    obtain rfl := Option.some.inj hs
    exact ih.set (.pkt off rfl rfl)
  | set _ hb e hs ih =>
    obtain rfl := Option.some.inj hs
    exact ih.set (.ext _ hb rfl (le_refl _))
  | cpy _ hb ho e hs ih =>
    rw [step] at hs
    split at hs
    · rename_i hc
      obtain rfl := Option.some.inj hs
      exact ih.cpy hb ho hc
    · cases hs
  | clear _ hs ih =>
    obtain rfl := Option.some.inj hs
    exact ih.clear

/-- **What the decoder's cell reads as a number or an address, the value in memory does.** -/
theorem accessors_agree {s : State} (ht : Together pk m s c) :
    (∀ o, c.uint64? m = .ok o → s.val.uint64? s.heap = .ok (o.map (BitVec.ofNat 64))) ∧
      ∀ t, c.ip4 m = .ok t → s.val.ip4 s.heap = .ok t :=
  ⟨fun _ ho => (refines_of_together ht).uint64? ho, fun _ h => (refines_of_together ht).ip4 h⟩

end Calls

end PacketMachine.Values
