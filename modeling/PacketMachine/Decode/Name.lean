import PacketMachine.Decode.Header

/-!
# Domain names, and what `parse_label` takes for one

A domain name of a message is a list of labels that ends with a zero byte or with a pointer to another
name of the message. `DomainName` is the tree of one, `DomainName.At` the grammar: a label has 1 to 63
bytes, and a pointer is a byte with the two top bits set and the byte behind it.

The loop of `parse_label` (`modules/utils.cc:241-308`) reads a tree as well, but by other rules
(`DomainName.Read`). It tests for a pointer once in a round, before the jump, so that the byte a
pointer leads to is always taken for a length; any other byte below 192 is a length too; and
the bounds behind a jump are those of the message without its header, counted from the header.

Results:
* **`parseLabel_iff`**: a position and a string are returned exactly for the trees that are read by
  these rules, with less than 256 label bytes.
* `DomainName.Read.unique`: there is at most one such tree.
* **`grammatical_iff`**: the tree that was read is a name of the grammar exactly when no byte of 64 or
  more stands at the start of a label, but for the first byte of a pointer that is not led to by another.
* **`compressed_iff`**: a name is read right exactly when no pointer leads to a pointer and every target
  ends within the bounds, or by an accident of 193 characters or more.
* `WireName.parsed`: a name without pointers is read right wherever it stands.
-/

namespace PacketMachine.Decode

open PacketMachine.Lib

/-! ## Names -/

/-- The tree of a domain name. -/
inductive DomainName where
  | root
  | label (bytes : List UInt8) (rest : DomainName)
  | pointer (off : Nat) (target : DomainName)

/-- The labels of a name and of the names its pointers lead to. -/
def DomainName.labels : DomainName → List (List UInt8)
  | root => []
  | label bytes rest => bytes :: rest.labels
  | pointer _ target => target.labels

/-- The labels, each followed by a dot. -/
def DomainName.text (n : DomainName) : Text := n.labels.flatMap fun l => textOf l ++ ['.']

/-- The number of label bytes. -/
def DomainName.weight (n : DomainName) : Nat := (n.labels.map List.length).sum

/-- The number of bytes of the part before the first jump. -/
def DomainName.size : DomainName → Nat
  | root => 1
  | label bytes rest => 1 + bytes.length + rest.size
  | pointer _ _ => 2

/-- **The grammar**: the name stands at a position of the message that starts at `sp`. -/
def DomainName.At (m : Mem) (sp : Nat) : Nat → DomainName → Prop
  | p, root => m.u8 p = .ok 0
  | p, label bytes rest =>
    (m.u8 p = .ok (UInt8.ofNat bytes.length) ∧ bytes = m.block (p + 1) bytes.length) ∧
      (0 < bytes.length ∧ bytes.length < 64) ∧ rest.At m sp (p + (1 + bytes.length))
  | p, pointer off target =>
    (m.u16 p = .ok (0xC000 + off) ∧ off < 0x4000) ∧ target.At m sp (sp + off)

/-- No pointer leads to a pointer. -/
def DomainName.Direct : DomainName → Prop
  | root => True
  | label _ rest => rest.Direct
  | pointer _ (pointer _ _) => False
  | pointer _ target => target.Direct

/-- Every target ends within the first `totalLen` bytes of the message. -/
def DomainName.InBounds (totalLen : Nat) : DomainName → Prop
  | root => True
  | label _ rest => rest.InBounds totalLen
  | pointer off target => off + target.size ≤ totalLen ∧ target.InBounds totalLen

/-- **What the loop reads**; `jumped` says that a pointer has just been followed. -/
def DomainName.Read (m : Mem) (sp : Nat) : Nat → Bool → DomainName → Prop
  | p, _, root => m.u8 p = .ok 0
  | p, jumped, label bytes rest =>
    (m.u8 p = .ok (UInt8.ofNat bytes.length) ∧ bytes = m.block (p + 1) bytes.length) ∧
      (0 < bytes.length ∧ bytes.length < (if jumped then 256 else 192)) ∧
      rest.Read m sp (p + (1 + bytes.length)) false
  | p, jumped, pointer off target =>
    (m.u16 p = .ok (0xC000 + off) ∧ off < 0x4000) ∧ jumped = false ∧ target.Read m sp (sp + off) true

section Names

variable {n target rest : DomainName} {bytes : List UInt8} {off : Nat}

@[simp] theorem DomainName.text_root : DomainName.root.text = [] := rfl

@[simp] theorem DomainName.text_label :
    (DomainName.label bytes rest).text = textOf bytes ++ '.' :: rest.text := by
  simp [DomainName.text, DomainName.labels]

@[simp] theorem DomainName.text_pointer : (DomainName.pointer off target).text = target.text := rfl

@[simp] theorem DomainName.weight_root : DomainName.root.weight = 0 := rfl

@[simp] theorem DomainName.weight_label :
    (DomainName.label bytes rest).weight = bytes.length + rest.weight := by
  simp [DomainName.weight, DomainName.labels]

@[simp] theorem DomainName.weight_pointer : (DomainName.pointer off target).weight = target.weight :=
  rfl

theorem DomainName.size_pos (n : DomainName) : 0 < n.size := by
  cases n <;> simp only [DomainName.size] <;> omega

end Names

/-! ## Bytes -/

section Bytes

variable {m : Mem} {p : Nat}

/-- The test for a pointer. -/
theorem pointerByte_iff (b : UInt8) : b &&& 0xC0 = 0xC0 ↔ 192 ≤ b.toNat := by
  have hall : ∀ n : Fin 256, UInt8.ofNat n &&& 0xC0 = 0xC0 ↔ 192 ≤ n.val := by
    decide +kernel
  have hb := hall ⟨b.toNat, b.toNat_lt⟩
  rwa [UInt8.ofNat_toNat] at hb

theorem u16_eq_iff {h : Nat} : m.u16 p = .ok h ↔
    ∃ hi lo, m.u8 p = .ok hi ∧ m.u8 (p + 1) = .ok lo ∧ h = hi.toNat * 256 + lo.toNat := by
  unfold Mem.u16
  cases m.u8 p with
  | error e => simp [bind, Except.bind]
  | ok hi =>
    cases m.u8 (p + 1) with
    | error e => simp [bind, Except.bind]
    | ok lo => simp [bind, Except.bind, pure, Except.pure, eq_comm]

/-- The first byte of a pointer. -/
theorem u8_of_pointer {off : Nat} (h : m.u16 p = .ok (0xC000 + off)) (hoff : off < 0x4000) :
    ∃ b, m.u8 p = .ok b ∧ 192 ≤ b.toNat := by
  obtain ⟨hi, lo, hhi, -, heq⟩ := u16_eq_iff.mp h
  have := lo.toNat_lt
  exact ⟨hi, hhi, by omega⟩

theorem byte_of_u8 {b : UInt8} (h : m.u8 p = .ok b) : m.byte p = b := by
  unfold Mem.u8 at h
  cases hm : m p with
  | none =>
    rw [hm] at h
    cases h
  | some b' =>
    rw [hm] at h
    rw [Mem.byte, hm, Except.ok.inj h]
    rfl

theorem block_of_bytes {k : Nat} {bs : List UInt8} (h : m.bytes p k = .ok bs) :
    bs = m.block p k := by
  induction k generalizing p bs with
  | zero => exact (Except.ok.inj h).symm
  | succ k ih =>
    rw [Mem.bytes] at h
    obtain ⟨b, hb, h⟩ := returns_of_bind h
    obtain ⟨bs', hbs', h⟩ := returns_of_bind h
    obtain rfl := Except.ok.inj h
    rw [ih hbs', Mem.block_succ, byte_of_u8 hb]

end Bytes

/-! ## The loop reads trees -/

section Loop

variable {m : Mem} {sp totalLen : Nat}

/-- The first part of a round, where a byte below 192 stands. -/
theorem jump_stays {p remain : Nat} (rp : Option Nat) {b : UInt8} (hb : m.u8 p = .ok b)
    (h : b.toNat < 192) : jump m sp totalLen p remain rp = .ok (some (p, remain, rp)) := by
  have hnot : ¬ b &&& 0xC0 = 0xC0 := fun hc => absurd ((pointerByte_iff b).mp hc) (by omega)
  rw [jump, hb]
  simp only [bind, Except.bind, if_neg hnot]
  rfl

/-- The first part of a round, where a pointer stands. -/
theorem jump_follows {p remain off : Nat} (rp : Option Nat) (hu : m.u16 p = .ok (0xC000 + off))
    (hoff : off < 0x4000) (h2 : 2 ≤ remain) (hlt : off < totalLen) :
    jump m sp totalLen p remain rp
      = .ok (some (sp + off, totalLen - off, some (rp.getD (p + 2)))) := by
  obtain ⟨b, hb, h192⟩ := u8_of_pointer hu hoff
  have hmod : (0xC000 + off) % 0x4000 = off := by omega
  rw [jump, hb]
  simp only [bind, Except.bind, (pointerByte_iff b).mpr h192, if_true, if_neg (Nat.not_lt.mpr h2), hu,
    hmod, if_neg (Nat.not_le.mpr hlt)]
  rfl

/-- What the first part of a round does when it goes on. -/
theorem jump_cases {p remain q r : Nat} {rp rp' : Option Nat}
    (h : jump m sp totalLen p remain rp = .ok (some (q, r, rp'))) :
    (∃ b, m.u8 p = .ok b ∧ b.toNat < 192 ∧ q = p ∧ r = remain ∧ rp' = rp) ∨
      ∃ off, (m.u16 p = .ok (0xC000 + off) ∧ off < 0x4000) ∧ 2 ≤ remain ∧ off < totalLen ∧
        q = sp + off ∧ r = totalLen - off ∧ rp' = some (rp.getD (p + 2)) := by
  unfold jump at h
  obtain ⟨b, hb, h⟩ := returns_of_bind h
  split at h
  · rename_i hp
    split at h
    · cases h
    · rename_i h2
      obtain ⟨w, hw, h⟩ := returns_of_bind h
      dsimp only at h
      split at h
      · cases h
      · rename_i hlt
        cases h
        obtain ⟨hi, lo, hhi, -, rfl⟩ := u16_eq_iff.mp hw
        obtain rfl := Except.ok.inj (hb.symm.trans hhi)
        have h192 := (pointerByte_iff b).mp hp
        have hb' := b.toNat_lt
        have hlo := lo.toNat_lt
        refine .inr ⟨(b.toNat * 256 + lo.toNat) % 0x4000, ⟨?_, by omega⟩, Nat.not_lt.mp h2,
          Nat.not_le.mp hlt, rfl, rfl, rfl⟩
        rw [hw]
        congr 1
        omega
  · rename_i hp
    cases h
    exact .inl ⟨b, hb, Nat.not_le.mp fun hc => hp ((pointerByte_iff b).mpr hc), rfl, rfl, rfl⟩

/-- A round that ends the name. -/
theorem parseLoop_stop {fuel p remain len q r : Nat} {rp rp' : Option Nat} {s : Option Text}
    (hlen : len < 256) (h1 : 1 ≤ remain)
    (hj : jump m sp totalLen p remain rp = .ok (some (q, r, rp'))) (hq : m.u8 q = .ok 0) :
    parseLoop m sp totalLen (fuel + 1) p remain len rp s = .ok (some (rp'.getD (q + 1)), s) := by
  rw [parseLoop, if_neg (not_not.mpr hlen), if_neg (Nat.not_lt.mpr h1), hj]
  simp only [bind, Except.bind, hq]
  rfl

/-- A round that reads a label. -/
theorem parseLoop_label {fuel p remain len q r : Nat} {rp rp' : Option Nat} {s : Option Text}
    {bytes : List UInt8} (hlen : len < 256) (h1 : 1 ≤ remain)
    (hj : jump m sp totalLen p remain rp = .ok (some (q, r, rp')))
    (hq : m.u8 q = .ok (UInt8.ofNat bytes.length)) (hb : bytes = m.block (q + 1) bytes.length)
    (h0 : 0 < bytes.length) (h256 : bytes.length < 256) (hr : bytes.length + 1 < r)
    (hhas : m.Has q r) :
    parseLoop m sp totalLen (fuel + 1) p remain len rp s =
      parseLoop m sp totalLen fuel (q + (1 + bytes.length)) (r - (1 + bytes.length))
        (len + bytes.length) rp' (s.map (· ++ textOf bytes ++ ['.'])) := by
  have hn := toNat_ofNat_length h256
  have happ : appendLabel m (q + 1) bytes.length s = .ok (s.map (· ++ textOf bytes ++ ['.'])) := by
    cases s with
    | none => rfl
    | some s =>
      rw [appendLabel, Mem.bytes_eq (hhas.sub (by omega) (by omega)), ← hb]
      rfl
  rw [parseLoop, if_neg (not_not.mpr hlen), if_neg (Nat.not_lt.mpr h1), hj]
  simp only [bind, Except.bind, hq, hn, happ, if_neg (Nat.pos_iff_ne_zero.mp h0),
    if_neg (Nat.not_le.mpr hr)]
  rw [show q + bytes.length + 1 = q + (1 + bytes.length) by omega,
    show bytes.length + 1 = 1 + bytes.length by omega]

theorem map_append_text (s : Option Text) (bytes : List UInt8) (rest : DomainName) :
    (s.map (· ++ textOf bytes ++ ['.'])).map (· ++ rest.text)
      = s.map (· ++ (DomainName.label bytes rest).text) := by
  cases s <;> simp

/-- **A tree within the bounds is read.** -/
theorem DomainName.Read.parsed (hsp : m.Has sp totalLen) :
    ∀ (n : DomainName) (fuel : Nat) {p remain len : Nat} {rp : Option Nat} {s : Option Text},
      n.Read m sp p false → n.size ≤ remain → n.InBounds totalLen → m.Has p remain →
      len + n.weight < 256 → 256 - len < fuel →
      parseLoop m sp totalLen fuel p remain len rp s
        = .ok (some (rp.getD (p + n.size)), s.map (· ++ n.text))
  | _, 0, _, _, _, _, _, _, _, _, _, _, hf => absurd hf (Nat.not_lt_zero _)
  | root, fuel + 1, p, remain, len, rp, s, h0, h1, _, _, hw, _ => by
    rw [parseLoop_stop (by omega) h1 (jump_stays rp h0 (by decide)) h0]
    simp [DomainName.size]
  | label bytes rest, fuel + 1, p, remain, len, rp, s, h, hs, hb, hp, hw, hf => by
    obtain ⟨⟨hq, hblock⟩, ⟨h0, hlt⟩, hrest⟩ := h
    have h192 : bytes.length < 192 := by simpa using hlt
    have hpos := rest.size_pos
    simp only [DomainName.size] at hs
    rw [DomainName.weight_label] at hw
    rw [parseLoop_label (by omega) (by omega)
      (jump_stays rp hq (by rw [toNat_ofNat_length (by omega)]; exact h192)) hq hblock h0 (by omega)
      (by omega) hp,
      hrest.parsed hsp rest fuel (by omega) hb (hp.sub (by omega) (by omega)) (by omega) (by omega),
      map_append_text]
    simp only [DomainName.size, Nat.add_assoc]
  | pointer off root, fuel + 1, p, remain, len, rp, s, h, hs, hb, _, hw, _ => by
    obtain ⟨⟨hu, hoff⟩, -, h0⟩ := h
    simp only [DomainName.size, DomainName.InBounds] at hs hb
    rw [parseLoop_stop (by omega) (by omega) (jump_follows rp hu hoff hs (by omega)) h0]
    simp [DomainName.size]
  | pointer off (label bytes rest), fuel + 1, p, remain, len, rp, s, h, hs, hb, _, hw, hf => by
    obtain ⟨⟨hu, hoff⟩, -, ⟨hq, hblock⟩, ⟨h0, h256⟩, hrest⟩ := h
    obtain ⟨hle, hb⟩ := hb
    have hpos := rest.size_pos
    simp only [DomainName.size] at hs hle
    have hhas : m.Has (sp + off) (totalLen - off) := hsp.sub (Nat.le_add_right _ _) (by omega)
    rw [DomainName.weight_pointer, DomainName.weight_label] at hw
    rw [parseLoop_label (by omega) (by omega) (jump_follows rp hu hoff hs (by omega)) hq hblock h0
      (by simpa using h256) (by omega) hhas,
      hrest.parsed hsp rest fuel (by omega) hb (hhas.sub (by omega) (by omega)) (by omega) (by omega),
      map_append_text]
    rfl
  | pointer off (pointer off' target), fuel + 1, p, remain, len, rp, s, h, _, _, _, _, _ => by
    obtain ⟨-, -, -, hj, -⟩ := h
    cases hj

/-- The rest of a round has read a label of `b` bytes, and the loop goes on with a tree. -/
theorem read_label {q : Nat} {j : Bool} {b : UInt8} {rest : DomainName} (hb : m.u8 q = .ok b)
    (h0 : b.toNat ≠ 0) (hj : j = false → b.toNat < 192)
    (hrest : rest.Read m sp (q + b.toNat + 1) false) :
    (DomainName.label (m.block (q + 1) b.toNat) rest).Read m sp q j := by
  have hlt := b.toNat_lt
  simp only [DomainName.Read, Mem.length_block, UInt8.ofNat_toNat, hb, true_and]
  refine ⟨⟨Nat.pos_of_ne_zero h0, ?_⟩, ?_⟩
  · cases j with
    | false => exact hj rfl
    | true => exact hlt
  · rw [Nat.add_comm 1, ← Nat.add_assoc]
    exact hrest

/-- What a string becomes when a label is appended. -/
theorem appendLabel_eq {q : Nat} {b : UInt8} {s s' : Option Text}
    (h : appendLabel m q b.toNat s = .ok s') :
    s' = s.map (· ++ textOf (m.block q b.toNat) ++ ['.']) := by
  cases s with
  | none => exact (Except.ok.inj h).symm
  | some s =>
    obtain ⟨bs, hbs, h⟩ := returns_of_bind h
    rw [← Except.ok.inj h, block_of_bytes hbs]
    rfl

/-- **Where a position is returned, a tree was read**, and it lies within the bounds. -/
theorem parsed_read :
    ∀ (fuel : Nat) {p remain len pos : Nat} {rp : Option Nat} {s s' : Option Text},
      parseLoop m sp totalLen fuel p remain len rp s = .ok (some pos, s') →
      ∃ n : DomainName, n.Read m sp p false ∧ n.size ≤ remain ∧ n.InBounds totalLen ∧
        len + n.weight < 256 ∧ pos = rp.getD (p + n.size) ∧ s' = s.map (· ++ n.text)
  | 0, _, _, _, _, _, _, _, h => by cases h
  | fuel + 1, p, remain, len, pos, rp, s, s', h => by
    unfold parseLoop at h
    split at h
    · cases h
    · rename_i hlen
      split at h
      · cases h
      · rename_i h1
        obtain ⟨r, hjump, h⟩ := returns_of_bind h
        rcases r with _ | ⟨q, r, rp'⟩
        · cases h
        obtain ⟨b, hb, h⟩ := returns_of_bind h
        dsimp only at h
        -- what the rest of the round reads, with a jump before it and without one
        have hbody : ∀ j : Bool, (j = false → b.toNat < 192) → 1 ≤ r → ∃ n : DomainName,
            n.Read m sp q j ∧ n.size ≤ r ∧ n.InBounds totalLen ∧ len + n.weight < 256 ∧
              pos = rp'.getD (q + n.size) ∧ s' = s.map (· ++ n.text) := by
          intro j hj hr1
          split at h
          · rename_i h0
            cases h
            refine ⟨.root, ?_, hr1, trivial, Nat.not_le.mp fun hc => hlen (Nat.not_lt.mpr hc), rfl,
              by simp⟩
            rw [DomainName.Read, hb, UInt8.toNat_inj.mp (h0.trans UInt8.toNat_zero.symm)]
          · rename_i h0
            split at h
            · cases h
            · rename_i hr
              obtain ⟨s1, hs1, h⟩ := returns_of_bind h
              obtain ⟨rest, hrest, hsize, hbounds, hw, hpos, hs'⟩ := parsed_read fuel h
              have hblock : (m.block (q + 1) b.toNat).length = b.toNat := Mem.length_block ..
              refine ⟨_, read_label hb h0 hj hrest, ?_, hbounds, ?_, ?_, ?_⟩
              · rw [DomainName.size, hblock]
                omega
              · rw [DomainName.weight_label, hblock]
                omega
              · rw [hpos, DomainName.size, hblock]
                congr 1
                omega
              · rw [hs', appendLabel_eq hs1, map_append_text]
        rcases jump_cases hjump with ⟨b', hb', hlt, rfl, rfl, rfl⟩ | ⟨off, hu, h2, hlt, rfl, rfl, rfl⟩
        · obtain rfl := Except.ok.inj (hb.symm.trans hb')
          exact hbody false (fun _ => hlt) (Nat.not_lt.mp h1)
        · obtain ⟨n, hn, hsize, hbounds, hw, hpos, hs'⟩ := hbody true (fun hj => by cases hj) (by omega)
          exact ⟨.pointer off n, ⟨hu, rfl, hn⟩, h2, ⟨by omega, hbounds⟩, hw, hpos, hs'⟩

/-- **`parse_label` returns a position exactly when it reads a tree** within the bounds and with less
than 256 label bytes; then this is the position behind the part before the first jump, and the string is
the text of the tree. -/
theorem parseLabel_iff {p remain pos : Nat} {s s' : Option Text} (hsp : m.Has sp totalLen)
    (hp : m.Has p remain) :
    parseLabel m p remain sp totalLen s = .ok (some pos, s') ↔
      ∃ n : DomainName, n.Read m sp p false ∧ n.size ≤ remain ∧ n.InBounds totalLen ∧ n.weight < 256 ∧
        pos = p + n.size ∧ s' = s.map fun _ => n.text := by
  have hmap : ∀ n : DomainName,
      (s.map fun _ => ([] : Text)).map (· ++ n.text) = s.map fun _ => n.text := by
    intro n
    cases s <;> rfl
  constructor
  · intro h
    obtain ⟨n, hn, hsize, hbounds, hw, hpos, hs'⟩ := parsed_read 257 h
    exact ⟨n, hn, hsize, hbounds, by omega, hpos, by rw [hs', hmap]⟩
  · rintro ⟨n, hn, hsize, hbounds, hw, rfl, rfl⟩
    rw [parseLabel, hn.parsed hsp n 257 hsize hbounds hp (by omega) (by omega), hmap]
    rfl

end Loop

/-! ## The grammar -/

section Grammar

variable {m : Mem} {sp : Nat}

/-- What the first byte says of a tree that was read. -/
inductive Reading (m : Mem) (sp p : Nat) (j : Bool) (b : UInt8) : DomainName → Prop
  | root (h : b = 0) : Reading m sp p j b .root
  | label {rest : DomainName} (h0 : 0 < b.toNat) (hj : j = false → b.toNat < 192)
    (hrest : rest.Read m sp (p + (1 + b.toNat)) false) :
    Reading m sp p j b (.label (m.block (p + 1) b.toNat) rest)
  | pointer {off : Nat} {target : DomainName} (hj : j = false) (hb : 192 ≤ b.toNat)
    (hu : m.u16 p = .ok (0xC000 + off)) (hoff : off < 0x4000)
    (htarget : target.Read m sp (sp + off) true) : Reading m sp p j b (.pointer off target)

theorem DomainName.Read.reading {n : DomainName} {p : Nat} {j : Bool} (h : n.Read m sp p j) :
    ∃ b, m.u8 p = .ok b ∧ Reading m sp p j b n := by
  cases n with
  | root => exact ⟨0, h, .root rfl⟩
  | label bytes rest =>
    obtain ⟨⟨hq, hblock⟩, ⟨h0, hlt⟩, hrest⟩ := h
    have hn : (UInt8.ofNat bytes.length).toNat = bytes.length :=
      toNat_ofNat_length (by split at hlt <;> omega)
    have hr : Reading m sp p j (UInt8.ofNat bytes.length)
        (.label (m.block (p + 1) (UInt8.ofNat bytes.length).toNat) rest) := by
      refine .label (by omega) (fun hj => ?_) (by rwa [hn])
      rw [hj] at hlt
      rwa [hn]
    rw [hn, ← hblock] at hr
    exact ⟨_, hq, hr⟩
  | pointer off target =>
    obtain ⟨⟨hu, hoff⟩, hj, htarget⟩ := h
    obtain ⟨b, hb, h192⟩ := u8_of_pointer hu hoff
    exact ⟨b, hb, .pointer hj h192 hu hoff htarget⟩

/-- **At most one tree is read** from a position. -/
theorem DomainName.Read.unique {n n' : DomainName} {p : Nat} {j : Bool} (h : n.Read m sp p j)
    (h' : n'.Read m sp p j) : n = n' := by
  induction n generalizing n' p j with
  | root =>
    obtain ⟨b, hb, hr⟩ := h'.reading
    obtain rfl := Except.ok.inj (h.symm.trans hb)
    cases hr with
    | root => rfl
    | label h0 => cases h0
    | pointer _ h192 => cases h192
  | label bytes rest ih =>
    obtain ⟨b, hb, hr⟩ := h.reading
    obtain ⟨b', hb', hr'⟩ := h'.reading
    obtain rfl := Except.ok.inj (hb.symm.trans hb')
    cases hr with
    | label h0 hj hrest =>
      cases hr' with
      | root hzero =>
        rw [hzero] at h0
        cases h0
      | label _ _ hrest' => rw [ih hrest hrest']
      | pointer hj' h192 => exact absurd (hj hj') (Nat.not_lt.mpr h192)
  | pointer off target ih =>
    obtain ⟨b, hb, hr⟩ := h.reading
    obtain ⟨b', hb', hr'⟩ := h'.reading
    obtain rfl := Except.ok.inj (hb.symm.trans hb')
    cases hr with
    | pointer hj h192 hu hoff htarget =>
      cases hr' with
      | root hzero =>
        rw [hzero] at h192
        cases h192
      | label _ hj' => exact absurd (hj' hj) (Nat.not_lt.mpr h192)
      | pointer _ _ hu' _ htarget' =>
        obtain rfl := Nat.add_left_cancel (Except.ok.inj (hu.symm.trans hu'))
        rw [ih htarget htarget']

/-- A name of the grammar is read as it is, when no pointer leads to a pointer. -/
theorem DomainName.At.read {n : DomainName} {p : Nat} {j : Bool} (h : n.At m sp p) (hd : n.Direct)
    (hj : j = true → ∀ off target, n ≠ .pointer off target) : n.Read m sp p j := by
  induction n generalizing p j with
  | root => exact h
  | label bytes rest ih =>
    obtain ⟨hbytes, ⟨h0, h64⟩, hrest⟩ := h
    refine ⟨hbytes, ⟨h0, ?_⟩, ih hrest hd (fun hj => by cases hj)⟩
    split <;> omega
  | pointer off target ih =>
    cases j with
    | true => exact absurd rfl (hj rfl off target)
    | false =>
      obtain ⟨hu, htarget⟩ := h
      cases target with
      | pointer off' target' => exact hd.elim
      | root => exact ⟨hu, rfl, htarget⟩
      | label bytes rest => exact ⟨hu, rfl, ih htarget hd (fun _ _ _ => by simp)⟩

/-- Where the grammar goes on from a position: behind a label, or where a pointer leads to. -/
inductive NameStep (m : Mem) (sp : Nat) : Nat × Bool → Nat × Bool → Prop
  | label {p : Nat} {j : Bool} {b : UInt8} (hb : m.u8 p = .ok b) (h0 : 0 < b.toNat)
    (h64 : b.toNat < 64) : NameStep m sp (p, j) (p + (1 + b.toNat), false)
  | pointer {p off : Nat} (hu : m.u16 p = .ok (0xC000 + off)) (hoff : off < 0x4000) :
    NameStep m sp (p, false) (sp + off, true)

/-- **No byte of 64 or more stands where a label starts**, but for the first byte of a pointer that is
not led to by another. -/
def Plain (m : Mem) (sp : Nat) (start : Nat × Bool) : Prop :=
  ∀ x : Nat × Bool, Relation.ReflTransGen (NameStep m sp) start x → ∀ b, m.u8 x.1 = .ok b →
    b.toNat < 64 ∨ x.2 = false ∧ 192 ≤ b.toNat

theorem Plain.step {x y : Nat × Bool} (h : Plain m sp x) (hs : NameStep m sp x y) : Plain m sp y :=
  fun z hz => h z (hz.head hs)

/-- What a start needs to be plain: its own byte, and where the grammar goes on. -/
theorem plain_of_steps {x : Nat × Bool} {b : UInt8} (hb : m.u8 x.1 = .ok b)
    (hx : b.toNat < 64 ∨ x.2 = false ∧ 192 ≤ b.toNat) (hs : ∀ y, NameStep m sp x y → Plain m sp y) :
    Plain m sp x := by
  intro z hz
  rcases hz.cases_head with rfl | ⟨y, hxy, hyz⟩
  · intro b' hb'
    obtain rfl := Except.ok.inj (hb.symm.trans hb')
    exact hx
  · exact hs y hxy z hyz

/-- A zero byte leads nowhere. -/
theorem plain_zero {p : Nat} (h : m.u8 p = .ok 0) (j : Bool) : Plain m sp (p, j) := by
  refine plain_of_steps h (.inl (by decide)) fun y hy => ?_
  cases hy with
  | label hb h0 =>
    obtain rfl := Except.ok.inj (h.symm.trans hb)
    cases h0
  | pointer hu hoff =>
    obtain ⟨b, hb, h192⟩ := u8_of_pointer hu hoff
    obtain rfl := Except.ok.inj (h.symm.trans hb)
    cases h192

/-- The first byte of a label that was read leads behind the label. -/
theorem plain_label_iff {p : Nat} {j : Bool} {b : UInt8} (hb : m.u8 p = .ok b) (h0 : 0 < b.toNat)
    (hj : j = false → b.toNat < 192) :
    Plain m sp (p, j) ↔ b.toNat < 64 ∧ Plain m sp (p + (1 + b.toNat), false) := by
  constructor
  · intro hplain
    have h64 : b.toNat < 64 := by
      rcases hplain (p, j) .refl b hb with h64 | ⟨hfalse, h192⟩
      · exact h64
      · have := hj hfalse
        omega
    exact ⟨h64, hplain.step (.label hb h0 h64)⟩
  · rintro ⟨h64, hplain⟩
    refine plain_of_steps hb (.inl h64) fun y hy => ?_
    cases hy with
    | label hb' =>
      obtain rfl := Except.ok.inj (hb.symm.trans hb')
      exact hplain
    | pointer hu hoff =>
      obtain ⟨b', hb', h192⟩ := u8_of_pointer hu hoff
      obtain rfl := Except.ok.inj (hb.symm.trans hb')
      omega

/-- A pointer leads to its target. -/
theorem plain_pointer_iff {p off : Nat} (hu : m.u16 p = .ok (0xC000 + off)) (hoff : off < 0x4000) :
    Plain m sp (p, false) ↔ Plain m sp (sp + off, true) := by
  refine ⟨fun hplain => hplain.step (.pointer hu hoff), fun hplain => ?_⟩
  obtain ⟨b, hb, h192⟩ := u8_of_pointer hu hoff
  refine plain_of_steps hb (.inr ⟨rfl, h192⟩) fun y hy => ?_
  cases hy with
  | label hb' _ h64 =>
    obtain rfl := Except.ok.inj (hb.symm.trans hb')
    omega
  | pointer hu' =>
    obtain rfl := Nat.add_left_cancel (Except.ok.inj (hu.symm.trans hu'))
    exact hplain

/-- **A tree that was read is a name of the grammar iff its start is plain.** -/
theorem DomainName.Read.at_iff {n : DomainName} {p : Nat} {j : Bool} (h : n.Read m sp p j) :
    n.At m sp p ↔ Plain m sp (p, j) := by
  obtain ⟨b, hb, hr⟩ := h.reading
  induction n generalizing p j b with
  | root => exact iff_of_true h (plain_zero h j)
  | label bytes rest ih =>
    cases hr with
    | label h0 hj hrest =>
      have hlen : (m.block (p + 1) b.toNat).length = b.toNat := Mem.length_block ..
      obtain ⟨b', hb', hr'⟩ := hrest.reading
      have hstep : rest.At m sp (p + (1 + b.toNat)) ↔ Plain m sp (p + (1 + b.toNat), false) :=
        ih hrest b' hb' hr'
      simp only [DomainName.At, hlen, UInt8.ofNat_toNat, hb, h0, true_and, hstep]
      exact (plain_label_iff hb h0 hj).symm
  | pointer off target ih =>
    cases hr with
    | pointer hj h192 hu hoff htarget =>
      subst hj
      obtain ⟨b', hb', hr'⟩ := htarget.reading
      have hstep : target.At m sp (sp + off) ↔ Plain m sp (sp + off, true) := ih htarget b' hb' hr'
      simp only [DomainName.At, hu, hoff, true_and, and_self, hstep]
      exact (plain_pointer_iff hu hoff).symm

/-- **What was accepted is a name of the grammar**: the tree that the loop has read (there is one only,
by `DomainName.Read.unique`) is a name, its first part ends at the position returned, and the string is
its labels. -/
def Grammatical (m : Mem) (sp p pos : Nat) (s s' : Option Text) : Prop :=
  ∃ n : DomainName, n.Read m sp p false ∧ n.At m sp p ∧ pos = p + n.size ∧ s' = s.map fun _ => n.text

/-- **`parse_label` has accepted a name of the grammar exactly when its start is plain**, whatever the
bytes, the start and the bounds are. -/
theorem grammatical_iff {p remain totalLen pos : Nat} {s s' : Option Text}
    (h : parseLabel m p remain sp totalLen s = .ok (some pos, s')) :
    Grammatical m sp p pos s s' ↔ Plain m sp (p, false) := by
  constructor
  · rintro ⟨n, hread, hat, -, -⟩
    exact hread.at_iff.mp hat
  · intro hplain
    obtain ⟨n, hread, -, -, -, hpos, hs'⟩ := parsed_read 257 h
    refine ⟨n, hread, hread.at_iff.mpr hplain, hpos, ?_⟩
    rw [hs']
    cases s <;> rfl

end Grammar

/-- A label of one byte. -/
def labelA : List UInt8 := [1, 0x61, 0]

theorem grammatical_labelA :
    parseLabel (window 0 labelA) 0 3 0 3 (some []) = .ok (some 3, some ['a', '.']) ∧
      (Grammatical (window 0 labelA) 0 0 3 (some []) (some ['a', '.']) ↔
        Plain (window 0 labelA) 0 (0, false)) := by
  have h : parseLabel (window 0 labelA) 0 3 0 3 (some []) = .ok (some 3, some ['a', '.']) := by
    decide +kernel
  exact ⟨h, grammatical_iff h⟩

/-- A label of 64 bytes: its first byte has the top bits 01. -/
def label64 : List UInt8 := 0x40 :: List.replicate 64 0x61 ++ [0]

/-- **A label of 64 bytes is accepted.** -/
theorem label64_accepted :
    ∃ pos text, parseLabel (window 0 label64) 0 66 0 66 (some []) = .ok (some pos, some text) ∧
      ¬ Grammatical (window 0 label64) 0 0 pos (some []) (some text) := by
  refine ⟨66, List.replicate 64 'a' ++ ['.'], by decide +kernel, ?_⟩
  rintro ⟨n, hread, hat, -, -⟩
  obtain ⟨b, hb, hr⟩ := hread.reading
  have hfirst : (window 0 label64).u8 0 = .ok 0x40 := by decide
  obtain rfl := Except.ok.inj (hfirst.symm.trans hb)
  cases hr with
  | root h => cases h
  | label =>
    obtain ⟨-, ⟨-, h64⟩, -⟩ := hat
    rw [Mem.length_block] at h64
    exact absurd h64 (by decide)
  | pointer _ h192 => exact absurd h192 (by decide)

/-! ## Compressed names -/

section Compressed

variable {m : Mem} {sp : Nat}

theorem DomainName.direct_pointer {off : Nat} {target : DomainName} :
    (DomainName.pointer off target).Direct ↔
      (∀ off' target', target ≠ .pointer off' target') ∧ target.Direct := by
  cases target <;> simp [DomainName.Direct]

/-- Where a pointer leads to a pointer, a label of 192 bytes or more is read. -/
theorem DomainName.Read.long_label {n n' : DomainName} {p : Nat} {j : Bool} (h : n.At m sp p)
    (h' : n'.Read m sp p j)
    (hd : ¬ (n.Direct ∧ (j = true → ∀ off target, n ≠ .pointer off target))) :
    ∃ l ∈ n'.labels, 192 ≤ l.length := by
  obtain ⟨b, hb, hr⟩ := h'.reading
  induction n generalizing n' p j b with
  | root => exact absurd ⟨trivial, fun _ _ _ => by simp⟩ hd
  | label bytes rest ih =>
    obtain ⟨⟨hq, -⟩, ⟨h0, h64⟩, hrest⟩ := h
    obtain rfl := Except.ok.inj (hq.symm.trans hb)
    have hn : (UInt8.ofNat bytes.length).toNat = bytes.length := toNat_ofNat_length (by omega)
    have hnot : ¬ rest.Direct := fun hrd => hd ⟨hrd, fun _ _ _ => by simp⟩
    cases hr with
    | root hzero =>
      rw [hzero] at hn
      exact absurd hn.symm (Nat.pos_iff_ne_zero.mp h0)
    | label _ _ hrest' =>
      rw [hn] at hrest'
      obtain ⟨b', hb', hr'⟩ := hrest'.reading
      obtain ⟨l, hl, h192⟩ := ih hrest hrest' (fun hc => hnot hc.1) b' hb' hr'
      exact ⟨l, List.mem_cons_of_mem _ hl, h192⟩
    | pointer _ h192 => omega
  | pointer off target ih =>
    obtain ⟨⟨hu, hoff⟩, htarget⟩ := h
    obtain ⟨b', hb', h192⟩ := u8_of_pointer hu hoff
    obtain rfl := Except.ok.inj (hb.symm.trans hb')
    cases hr with
    | root hzero =>
      rw [hzero] at h192
      cases h192
    | label => exact ⟨_, List.mem_cons_self, by rwa [Mem.length_block]⟩
    | pointer hj _ hu' _ htarget' =>
      obtain rfl := Nat.add_left_cancel (Except.ok.inj (hu.symm.trans hu'))
      obtain ⟨b', hb', hr'⟩ := htarget'.reading
      have hnot : ¬ (target.Direct ∧ (true = true → ∀ off' target', target ≠ .pointer off' target')) := by
        rintro ⟨hdirect, hne⟩
        refine hd ⟨DomainName.direct_pointer.mpr ⟨hne rfl, hdirect⟩, fun hc => ?_⟩
        rw [hj] at hc
        cases hc
      obtain ⟨l, hl, hlong⟩ := ih htarget htarget' hnot b' hb' hr'
      exact ⟨l, hl, hlong⟩

theorem DomainName.length_text {n : DomainName} {l : List UInt8} (h : l ∈ n.labels) :
    l.length + 1 ≤ n.text.length := by
  obtain ⟨front, back, hsplit⟩ := List.append_of_mem h
  rw [DomainName.text, hsplit, List.flatMap_append, List.flatMap_cons]
  simp only [List.length_append, textOf, List.length_map, List.length_singleton]
  omega

/-- A pointer leads to a pointer, and the bytes behind the first byte of the second one, taken for a
label of 192 bytes or more, go on to spell the text of the name by accident. -/
structure DomainName.Accident (n : DomainName) (m : Mem) (sp totalLen p : Nat) : Prop where
  indirect : ¬ n.Direct
  long : 193 ≤ n.text.length
  spells : ∃ n' : DomainName, n'.Read m sp p false ∧ n'.size = n.size ∧ n'.InBounds totalLen ∧
    n'.weight < 256 ∧ n'.text = n.text

/-- **A compressed name decodes in full exactly when no pointer leads to a pointer and every target ends
within the first `total_len` bytes**, or by accident. The message has `12 + totalLen` bytes and stands at
`sp`, and the first part of the name lies in it. -/
theorem compressed_iff {n : DomainName} {p totalLen : Nat} (hm : m.Has sp (12 + totalLen))
    (hn : n.At m sp p) (hp : sp ≤ p) (hin : p + n.size ≤ sp + 12 + totalLen) (hw : n.weight ≤ 253)
    (s : Text) :
    parseLabel m p (sp + 12 + totalLen - p) sp totalLen (some s)
        = .ok (some (p + n.size), some n.text) ↔
      (n.Direct ∧ n.InBounds totalLen) ∨ n.Accident m sp totalLen p := by
  have hsp : m.Has sp totalLen := hm.sub (Nat.le_refl _) (by omega)
  have hpr : m.Has p (sp + 12 + totalLen - p) := by
    have := n.size_pos
    exact hm.sub hp (by omega)
  rw [parseLabel_iff hsp hpr]
  constructor
  · rintro ⟨n', hread, hsize, hbounds, hw', hpos, htext⟩
    have htext' : n'.text = n.text := (Option.some.inj htext).symm
    by_cases hd : n.Direct
    · obtain rfl := (hn.read hd (fun hc => by cases hc)).unique hread
      exact .inl ⟨hd, hbounds⟩
    · obtain ⟨l, hl, h192⟩ := hread.long_label hn fun hc => hd hc.1
      have hlen := DomainName.length_text hl
      rw [htext'] at hlen
      exact .inr ⟨hd, by omega, n', hread, by omega, hbounds, hw', htext'⟩
  · rintro (⟨hd, hbounds⟩ | ⟨-, -, n', hread, hsize, hbounds, hw', htext⟩)
    · exact ⟨n, hn.read hd (fun hc => by cases hc), by omega, hbounds, by omega, rfl, rfl⟩
    · exact ⟨n', hread, by omega, hbounds, hw', by rw [hsize], by rw [← htext]; rfl⟩

end Compressed

/-- A message with one question, and a name that points back to its name. -/
def pointerMessage (behind : List UInt8) : List UInt8 :=
  List.replicate 12 0 ++ [1, 0x61, 0, 0, 1, 0, 1, 0xC0, 0x0C] ++ behind

/-- The name `C0 0C`, which points to a label of one byte. -/
def pointedName : DomainName := .pointer 12 (.label [0x61] .root)

theorem pointedName_at (behind : List UInt8) :
    pointedName.At (window 0 (pointerMessage behind)) 0 19 :=
  ⟨⟨rfl, by decide⟩, ⟨rfl, rfl⟩, ⟨by decide, by decide⟩, rfl⟩

/-- The pointer of an answer with an address. -/
theorem compressed_answer :
    pointedName.At (window 0 (pointerMessage (List.replicate 14 0))) 0 19 ∧
      (parseLabel (window 0 (pointerMessage (List.replicate 14 0))) 19 (0 + 12 + 23 - 19) 0 23 (some [])
          = .ok (some (19 + pointedName.size), some pointedName.text) ↔
        (pointedName.Direct ∧ pointedName.InBounds 23) ∨
          pointedName.Accident (window 0 (pointerMessage (List.replicate 14 0))) 0 23 19) :=
  ⟨pointedName_at _, compressed_iff (has_window 0 _) (pointedName_at _) (by decide) (by decide)
    (by decide) []⟩

/-- **A target in the last twelve bytes of the message is refused.** -/
theorem late_target_refused :
    pointedName.At (window 0 (pointerMessage [])) 0 19 ∧ pointedName.weight ≤ 253 ∧
      parseLabel (window 0 (pointerMessage [])) 19 (0 + 12 + 9 - 19) 0 9 (some [])
        = .ok (none, some []) :=
  ⟨pointedName_at [], by decide, by decide +kernel⟩

/-! ## Names without pointers -/

/-- A domain name as it is sent without compression: labels of 1 to 63 bytes, at most 253 together. -/
structure WireName where
  labels : List (List UInt8)
  label : ∀ l ∈ labels, 0 < l.length ∧ l.length < 64
  total : (labels.map List.length).sum ≤ 253

/-- The labels, each behind its length, and a zero byte. -/
def labelBytes : List (List UInt8) → List UInt8
  | [] => [0]
  | l :: ls => UInt8.ofNat l.length :: (l ++ labelBytes ls)

def labelTree : List (List UInt8) → DomainName
  | [] => .root
  | l :: ls => .label l (labelTree ls)

def WireName.bytes (n : WireName) : List UInt8 := labelBytes n.labels

/-- The labels, each followed by a dot. -/
def WireName.text (n : WireName) : Text := n.labels.flatMap fun l => textOf l ++ ['.']

section Wire

variable {m : Mem} {sp p : Nat} {bytes : List UInt8}

theorem labels_tree (ls : List (List UInt8)) : (labelTree ls).labels = ls := by
  induction ls with
  | nil => rfl
  | cons l ls ih => rw [labelTree, DomainName.labels, ih]

theorem size_tree (ls : List (List UInt8)) : (labelTree ls).size = (labelBytes ls).length := by
  induction ls with
  | nil => rfl
  | cons l ls ih =>
    rw [labelTree, DomainName.size, ih, labelBytes, List.length_cons, List.length_append]
    omega

/-- No pointer stands in the tree of labels. -/
theorem tree_direct (ls : List (List UInt8)) (totalLen : Nat) :
    (labelTree ls).Direct ∧ (labelTree ls).InBounds totalLen := by
  induction ls with
  | nil => exact ⟨trivial, trivial⟩
  | cons l ls ih => exact ih

theorem Mem.Holds.block (h : m.Holds p bytes) : m.block p bytes.length = bytes :=
  (block_of_bytes h.bytes).symm

/-- The bytes of labels are a name of the grammar. -/
theorem tree_at {ls : List (List UInt8)} (hl : ∀ l ∈ ls, 0 < l.length ∧ l.length < 64)
    (h : m.Holds p (labelBytes ls)) : (labelTree ls).At m sp p := by
  induction ls generalizing p with
  | nil =>
    show m.u8 p = .ok 0
    rw [Mem.u8, h.1]
  | cons l ls ih =>
    obtain ⟨hlen, hlabels⟩ := List.forall_mem_cons.mp hl
    obtain ⟨hfirst, hrest⟩ := h
    obtain ⟨hbytes, hrest⟩ := Mem.holds_append.mp hrest
    refine ⟨⟨?_, hbytes.block.symm⟩, hlen, ?_⟩
    · rw [Mem.u8, hfirst]
    · rw [← Nat.add_assoc]
      exact ih hlabels hrest

/-- **A name without pointers is parsed in full**, wherever it stands. -/
theorem WireName.parsed (n : WireName) (h : m.Holds p n.bytes) {remain totalLen : Nat}
    (hr : n.bytes.length ≤ remain) (hp : m.Has p remain) (hsp : m.Has sp totalLen) (s : Option Text) :
    parseLabel m p remain sp totalLen s
      = .ok (some (p + n.bytes.length), s.map fun _ => n.text) := by
  have hsize : (labelTree n.labels).size = n.bytes.length := size_tree n.labels
  have htext : (labelTree n.labels).text = n.text := by
    rw [DomainName.text, labels_tree]
    rfl
  have hweight : (labelTree n.labels).weight ≤ 253 := by
    rw [DomainName.weight, labels_tree]
    exact n.total
  obtain ⟨hdirect, hbounds⟩ := tree_direct n.labels totalLen
  exact (parseLabel_iff hsp hp).mpr ⟨labelTree n.labels,
    (tree_at n.label h).read hdirect (fun hj => by cases hj), by omega, hbounds, by omega,
    by rw [hsize], by rw [htext]⟩

end Wire

end PacketMachine.Decode
