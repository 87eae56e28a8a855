import PacketMachine.Decode.Payload

/-!
# `NameService::parse_label`: domain names with compression pointers

Model of `parse_label` (`modules/utils.cc:241-308`). `sp` is the start of the message and `totalLen`
the length of what follows its 12-byte header, so the target of a jump is compared with a length
that is 12 less than the message. `s` is the string the labels are collected in, `none` for `NULL`.

A label that is reached by a jump is not tested for being a pointer itself: its first byte is taken
for a length.

Results:
* **`parseLabel_returns`**: every byte read lies in the two ranges given, the loop ends, and a
  position that is returned lies strictly after the start and at most `remain` behind it. Pointer
  cycles end because `len` grows by at least one in every round and the loop stops at 256.
-/

namespace PacketMachine.Decode

open PacketMachine.Lib

/-- The characters of a string; a byte is the character of its code. -/
abbrev Text := List Char

def textOf (bs : List UInt8) : Text := bs.map fun b => Char.ofNat b.toNat

/-- The pointer part of a round: position, remaining bytes and `rp` behind it, or `none` where the
function returns `NULL`. -/
def jump (m : Mem) (sp totalLen p remain : Nat) (rp : Option Nat) :
    Except Fault (Option (Nat × Nat × Option Nat)) := do
  let b ← m.u8 p
  if b &&& 0xC0 = 0xC0 then
    if remain < 2 then return none
    else
      let h ← m.u16 p
      let jmp := h % 0x4000
      if jmp ≥ totalLen then return none
      else return some (sp + jmp, totalLen - jmp, some (rp.getD (p + 2)))
  else return some (p, remain, rp)

/-- `s->append(data); s->append(".")`, when there is a string. -/
def appendLabel (m : Mem) (p dataLen : Nat) : Option Text → Except Fault (Option Text)
  | none => .ok none
  | some s => do
    let bs ← m.bytes p dataLen
    return some (s ++ textOf bs ++ ['.'])

/-- The loop of `parse_label`. -/
def parseLoop (m : Mem) (sp totalLen : Nat) :
    Nat → Nat → Nat → Nat → Option Nat → Option Text → Except Fault (Option Nat × Option Text)
  | 0, _, _, _, _, _ => .error .fuel
  | fuel + 1, p, remain, len, rp, s =>
    if ¬ len < 256 then .ok (none, s)
    else if remain < 1 then .ok (none, s)
    else do
      match ← jump m sp totalLen p remain rp with
      | none => return (none, s)
      | some (p, remain, rp) =>
        let dataLen := (← m.u8 p).toNat
        if dataLen = 0 then return (some (rp.getD (p + 1)), s)
        else if dataLen + 1 ≥ remain then return (none, s)
        else
          let s ← appendLabel m (p + 1) dataLen s
          parseLoop m sp totalLen fuel (p + dataLen + 1) (remain - (dataLen + 1)) (len + dataLen) rp s

/-- `NameService::parse_label`: the position behind the name, `none` for `NULL`, and the string. -/
def parseLabel (m : Mem) (p remain sp totalLen : Nat) (s : Option Text) :
    Except Fault (Option Nat × Option Text) :=
  parseLoop m sp totalLen 257 p remain 0 none (s.map fun _ => [])

section Safety

variable {m : Mem} {sp totalLen : Nat}

/-- Before the first jump the cursor is between the start and the end; afterwards the position to
return is. -/
def Between (lo hi p remain : Nat) : Option Nat → Prop
  | none => lo ≤ p ∧ p + remain ≤ hi
  | some r => lo < r ∧ r ≤ hi

theorem jump_returns {lo hi p remain : Nat} {rp : Option Nat} (hsp : m.Has sp totalLen)
    (hp : m.Has p remain) (hr : 1 ≤ remain) (hb : Between lo hi p remain rp) :
    Returns (jump m sp totalLen p remain rp) fun r => ∀ q, r = some q →
      m.Has q.1 q.2.1 ∧ 1 ≤ q.2.1 ∧ Between lo hi q.1 q.2.1 q.2.2 := by
  unfold jump
  refine .bind_ok (Mem.u8_eq hp (Nat.le_refl p) (by omega)) ?_
  split
  · split
    · exact returns_pure.mpr (by simp)
    · rename_i h2
      refine .bind_ok (Mem.u16_eq hp (Nat.le_refl p) (by omega)) ?_
      dsimp only
      split
      · exact returns_pure.mpr (by simp)
      · rename_i hj
        refine returns_pure.mpr ?_
        rintro q ⟨⟩
        refine ⟨hsp.sub (Nat.le_add_right _ _) (by dsimp only; omega), by dsimp only; omega, ?_⟩
        -- the position behind the first pointer is the one to return
        cases rp with
        | none =>
          simp only [Between, Option.getD_none] at hb ⊢
          omega
        | some r => exact hb
  · refine returns_pure.mpr ?_
    rintro q ⟨⟩
    exact ⟨hp, hr, hb⟩

theorem appendLabel_returns {p dataLen : Nat} (h : m.Has p dataLen) (s : Option Text) :
    Returns (appendLabel m p dataLen s) fun _ => True := by
  cases s with
  | none => exact returns_ok.mpr trivial
  | some s => exact (Mem.bytes_returns h).bind fun _ _ => returns_pure.mpr trivial

theorem parseLoop_returns {lo hi : Nat} (hsp : m.Has sp totalLen) :
    ∀ (fuel : Nat) {p remain len : Nat} {rp : Option Nat} {s : Option Text}, 256 - len < fuel →
      m.Has p remain → Between lo hi p remain rp →
      Returns (parseLoop m sp totalLen fuel p remain len rp s) fun r =>
        ∀ q, r.1 = some q → lo < q ∧ q ≤ hi
  | 0, _, _, _, _, _, hf, _, _ => absurd hf (Nat.not_lt_zero _)
  | fuel + 1, p, remain, len, rp, s, hf, hp, hb => by
    unfold parseLoop
    split
    · exact returns_ok.mpr (by simp)
    · split
      · exact returns_ok.mpr (by simp)
      · refine (jump_returns hsp hp (by omega) hb).bind ?_
        intro r hr
        split
        · exact returns_pure.mpr (by simp)
        · rename_i p' remain' rp'
          obtain ⟨hp', hr', hb'⟩ := hr _ rfl
          simp only at hp' hr' hb'
          refine .bind_ok (Mem.u8_eq hp' (Nat.le_refl p') (by omega)) ?_
          dsimp only
          split
          · refine returns_pure.mpr ?_
            rintro q ⟨⟩
            cases rp' with
            | none =>
              simp only [Between, Option.getD_none] at hb' ⊢
              omega
            | some r => exact hb'
          · split
            · exact returns_pure.mpr (by simp)
            · refine (appendLabel_returns (hp'.sub (by omega) (by omega)) s).bind ?_
              intro s' _
              refine parseLoop_returns hsp fuel (by omega) (hp'.sub (by omega) (by omega)) ?_
              cases rp' with
              | none =>
                simp only [Between] at hb' ⊢
                omega
              | some r => exact hb'

/-- **`parse_label` reads only the bytes it was given, ends, and returns a later position.** -/
theorem parseLabel_returns {p remain : Nat} (hsp : m.Has sp totalLen) (hp : m.Has p remain)
    (s : Option Text) :
    Returns (parseLabel m p remain sp totalLen s) fun r =>
      ∀ q, r.1 = some q → p < q ∧ q ≤ p + remain :=
  parseLoop_returns hsp 257 (by omega) hp ⟨Nat.le_refl p, Nat.le_refl _⟩

end Safety

end PacketMachine.Decode
