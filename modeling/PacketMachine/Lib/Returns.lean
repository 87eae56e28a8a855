import Mathlib

/-!
# Postconditions of programs that may fail

A program that can go wrong is an `Except ε α`, where `ε` lists the ways. `Returns x Q` says that `x`
does not go wrong and that its result satisfies `Q`: it is a total postcondition, so that a proof of
it is a proof that no error is reached.

* `Returns.bind` and `Returns.bind_ok` are the rules of a sequence, and `Returns.mono` weakens the
  postcondition.
* `Ensures x Q` is the partial postcondition: when `x` returns, its result satisfies `Q`. It needs
  nothing of what `x` reads.
* `Alike E R x y` relates two programs: both return, with results that `R` relates, or both go wrong,
  with errors that `E` relates. Its rules follow the programs side by side.
* `Follows R x y`: where `x` returns, `y` returns, with a result that `R` relates. It may go further.
-/

namespace PacketMachine.Lib

universe u v

variable {ε : Type v} {α β : Type u}

/-- The program returns, and its result satisfies `Q`. -/
def Returns (x : Except ε α) (Q : α → Prop) : Prop := ∃ a, x = .ok a ∧ Q a

@[simp] theorem returns_ok {a : α} {Q : α → Prop} : Returns (.ok a : Except ε α) Q ↔ Q a := by
  constructor
  · rintro ⟨b, hb, hQ⟩
    obtain rfl := Except.ok.inj hb
    exact hQ
  · intro hQ
    exact ⟨a, rfl, hQ⟩

@[simp] theorem returns_pure {a : α} {Q : α → Prop} :
    Returns (pure a : Except ε α) Q ↔ Q a :=
  returns_ok

theorem Returns.bind {x : Except ε α} {f : α → Except ε β} {P : α → Prop} {Q : β → Prop}
    (hx : Returns x P) (hf : ∀ a, P a → Returns (f a) Q) : Returns (x >>= f) Q := by
  obtain ⟨a, rfl, ha⟩ := hx
  exact hf a ha

/-- The rule of a sequence whose first part is known. -/
theorem Returns.bind_ok {x : Except ε α} {f : α → Except ε β} {a : α} {Q : β → Prop}
    (hx : x = .ok a) (hf : Returns (f a) Q) : Returns (x >>= f) Q := by
  rw [hx]
  exact hf

/-- When a sequence returns, so does its first part. -/
theorem returns_of_bind {x : Except ε α} {f : α → Except ε β} {b : β} (h : x >>= f = .ok b) :
    Returns x fun a => f a = .ok b := by
  cases x with
  | error e => cases h
  | ok a => exact ⟨a, rfl, h⟩

theorem Returns.mono {x : Except ε α} {P Q : α → Prop} (hx : Returns x P) (h : ∀ a, P a → Q a) :
    Returns x Q := by
  obtain ⟨a, rfl, ha⟩ := hx
  exact ⟨a, rfl, h a ha⟩

/-- When the program returns, its result satisfies `Q`. -/
def Ensures (x : Except ε α) (Q : α → Prop) : Prop := ∀ a, x = .ok a → Q a

theorem ensures_ok {a : α} {Q : α → Prop} (h : Q a) : Ensures (.ok a : Except ε α) Q := by
  intro b hb
  obtain rfl := Except.ok.inj hb
  exact h

theorem ensures_pure {a : α} {Q : α → Prop} (h : Q a) : Ensures (pure a : Except ε α) Q :=
  ensures_ok h

theorem ensures_error {e : ε} {Q : α → Prop} : Ensures (.error e : Except ε α) Q := by
  rintro a ⟨⟩

theorem Ensures.bind {x : Except ε α} {f : α → Except ε β} {P : α → Prop} {Q : β → Prop}
    (hx : Ensures x P) (hf : ∀ a, P a → Ensures (f a) Q) : Ensures (x >>= f) Q := by
  cases x with
  | error e => exact ensures_error
  | ok a => exact hf a (hx a rfl)

/-- The rule of a sequence whose first part is only read. -/
theorem ensures_bind {x : Except ε α} {f : α → Except ε β} {Q : β → Prop}
    (hf : ∀ a, Ensures (f a) Q) : Ensures (x >>= f) Q :=
  Ensures.bind (P := fun _ => True) (fun _ _ => trivial) fun a _ => hf a

theorem Ensures.mono {x : Except ε α} {P Q : α → Prop} (hx : Ensures x P) (h : ∀ a, P a → Q a) :
    Ensures x Q :=
  fun a ha => h a (hx a ha)

/-! ## Two programs side by side -/

/-- Both return, or both go wrong. -/
inductive Alike (E : ε → ε → Prop) (R : α → β → Prop) : Except ε α → Except ε β → Prop
  | ok {a : α} {b : β} (h : R a b) : Alike E R (.ok a) (.ok b)
  | error {e e' : ε} (h : E e e') : Alike E R (.error e) (.error e')

section Alike

variable {γ δ : Type u} {E : ε → ε → Prop} {P R : α → β → Prop} {S : γ → δ → Prop}
  {x x' : Except ε α} {y y' : Except ε β}

theorem alike_pure {a : α} {b : β} (h : R a b) :
    Alike E R (pure a : Except ε α) (pure b : Except ε β) :=
  .ok h

theorem Alike.bind {f : α → Except ε γ} {g : β → Except ε δ} (hx : Alike E P x y)
    (hf : ∀ a b, P a b → Alike E S (f a) (g b)) : Alike E S (x >>= f) (y >>= g) := by
  cases hx with
  | ok h => exact hf _ _ h
  | error h => exact .error h

/-- The rule of sequences that start with the same result. -/
theorem Alike.bind_eq {x y : Except ε α} {f : α → Except ε γ} {g : α → Except ε δ}
    (hx : Alike E Eq x y) (hf : ∀ a, Alike E S (f a) (g a)) : Alike E S (x >>= f) (y >>= g) := by
  refine hx.bind ?_
  rintro a _ rfl
  exact hf a

/-- The rule of a branch on conditions that agree. -/
theorem Alike.ite {c c' : Prop} [Decidable c] [Decidable c'] (hc : c ↔ c')
    (ht : c → Alike E R x y) (hf : ¬ c → Alike E R x' y') :
    Alike E R (if c then x else x') (if c' then y else y') := by
  by_cases h : c
  · rw [if_pos h, if_pos (hc.mp h)]
    exact ht h
  · rw [if_neg h, if_neg (fun h' => h (hc.mpr h'))]
    exact hf h

/-- When the first program returns, so does the second. -/
theorem Alike.returns {Q : α → Prop} (hxy : Alike E R x y) (hx : Returns x Q) :
    Returns y fun b => ∃ a, x = .ok a ∧ Q a ∧ R a b := by
  obtain ⟨a, rfl, ha⟩ := hx
  cases hxy with
  | ok h => exact ⟨_, rfl, a, rfl, ha, h⟩

theorem alike_of_eq {x y : Except ε α} (hE : ∀ e, E e e) (h : x = y) : Alike E Eq x y := by
  subst h
  cases x with
  | ok a => exact .ok rfl
  | error e => exact .error (hE e)

end Alike

/-! ## A program that goes further -/

/-- Where the first program returns, the second does, with a related result. -/
def Follows (R : α → β → Prop) (x : Except ε α) (y : Except ε β) : Prop :=
  ∀ a, x = .ok a → Returns y (R a)

section Follows

variable {γ δ : Type u} {E : ε → ε → Prop} {P R : α → β → Prop} {S : γ → δ → Prop}
  {x x' : Except ε α} {y y' : Except ε β}

theorem follows_ok {a : α} {b : β} (h : R a b) :
    Follows R (.ok a : Except ε α) (.ok b : Except ε β) := by
  intro a' ha
  obtain rfl := Except.ok.inj ha
  exact returns_ok.mpr h

theorem follows_pure {a : α} {b : β} (h : R a b) :
    Follows R (pure a : Except ε α) (pure b : Except ε β) :=
  follows_ok h

theorem follows_error {e : ε} : Follows R (.error e : Except ε α) y := nofun

theorem follows_refl (x : Except ε α) : Follows Eq x x := fun a ha => ⟨a, ha, rfl⟩

theorem Follows.bind {f : α → Except ε γ} {g : β → Except ε δ} (hx : Follows P x y)
    (hf : ∀ a b, P a b → Follows S (f a) (g b)) : Follows S (x >>= f) (y >>= g) := by
  cases x with
  | error e => exact follows_error
  | ok a =>
    obtain ⟨b, rfl, hb⟩ := hx a rfl
    exact hf a b hb

/-- The rule of sequences that start with the same result. -/
theorem Follows.bind_eq {x y : Except ε α} {f : α → Except ε γ} {g : α → Except ε δ}
    (hx : Follows Eq x y) (hf : ∀ a, Follows S (f a) (g a)) :
    Follows S (x >>= f) (y >>= g) := by
  refine hx.bind ?_
  rintro a _ rfl
  exact hf a

/-- The rule of a branch on one condition. -/
theorem Follows.ite {c : Prop} [Decidable c] (ht : c → Follows R x y)
    (hf : ¬ c → Follows R x' y') : Follows R (if c then x else x') (if c then y else y') := by
  split
  · exact ht ‹_›
  · exact hf ‹_›

theorem Follows.mono (h : Follows P x y) (hP : ∀ a b, P a b → R a b) : Follows R x y :=
  fun a ha => (h a ha).mono fun b => hP a b

/-- The same result. -/
theorem Follows.eq_ok {x y : Except ε α} {a : α} (h : Follows Eq x y) (ha : x = .ok a) :
    y = .ok a := by
  obtain ⟨b, hb, rfl⟩ := h a ha
  exact hb

theorem Alike.follows (h : Alike E R x y) : Follows R x y := by
  rintro a rfl
  cases h with
  | ok h => exact returns_ok.mpr h

/-- A program that goes further, and one like it. -/
theorem Follows.alike {x y : Except ε α} {z : Except ε β} (h : Follows Eq x y)
    (hyz : Alike E R y z) : Follows R x z :=
  fun a ha => hyz.follows a (h.eq_ok ha)

end Follows

end PacketMachine.Lib
