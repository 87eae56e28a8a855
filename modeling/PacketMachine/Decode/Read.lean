import PacketMachine.Decode.Same

/-!
# What a user reads of one value

The bytes of `value(key)` and `value(key).uint64()` for a key, after a list of calls on a property. A
parameter that is filled by `set` or `cpy` alone shows what the first of these calls has put in
(`shows_call`), a minor parameter what its function makes of the header (`shows_minor`), and one
that was not filled shows `Property::null_` (`shows_absent`).
-/

namespace PacketMachine.Decode

open PacketMachine.Lib

/-- The value that `value(key)` refers to; `Property::null_` was never set. -/
def Property.read (q : Property) (m : Mem) (key : Key) : Except Fault Cell := do
  match ← q.value m key with
  | (_, .null) => return {}
  | (q, .obj h) => return ((q.obj? h).map Obj.cell).getD {}
  | (q, .slot h i) => return (q.slot? h i).getD {}

/-- The bytes of `value(key)`, when it is active. -/
def Property.content (q : Property) (m : Mem) (key : Key) : Except Fault (Option (List UInt8)) := do
  (← q.read m key).content m

/-- `value(key).uint64()`. -/
def Property.uint64 (q : Property) (m : Mem) (key : Key) : Except Fault Nat := do
  (← q.read m key).uint64 m

/-- `value(key)` shows the bytes of a cell. -/
def Property.Shows (q : Property) (m : Mem) (key : Key) (c : Cell) : Prop :=
  Returns (q.read m key) c.Same

section Shows

variable {q : Property} {m : Mem} {key : Key} {c : Cell} {d : Param} {ops : List Op}

theorem Property.Shows.content_eq (h : q.Shows m key c) : q.content m key = c.content m := by
  obtain ⟨c', hc', hs⟩ := h
  rw [Property.content, hc', hs.content_eq]
  rfl

theorem Property.Shows.uint64_eq (h : q.Shows m key c) : q.uint64 m key = c.uint64 m := by
  obtain ⟨c', hc', hs⟩ := h
  rw [Property.uint64, hc']
  show c'.uint64 m = c.uint64 m
  unfold Cell.uint64
  rw [hs.uint64?_eq]

/-- A parameter that was not filled. -/
theorem shows_absent (hd : d.direct = true) (hw : q.WF) (hc : q.count d = 0)
    (h : setCalls d ops = []) : (q.exec ops).Shows m (.param d) {} := by
  have hcall := exec_call hd hw hc ops
  rw [h] at hcall
  have hnot : ¬ 0 < (q.exec ops).count d := by
    dsimp only at hcall
    omega
  refine ⟨{}, ?_, Cell.same_of_inactive rfl rfl⟩
  rw [Property.read, Property.value, if_neg hnot]
  rfl

/-- **A parameter shows what the first call for it has put in.** -/
theorem shows_call (hd : d.direct = true) (hw : q.WF) (hc : q.count d = 0) {f : Cell → Cell}
    {fs : List (Cell → Cell)} (h : setCalls d ops = f :: fs) (hf : ∀ c, (f {}).Same (f c)) :
    (q.exec ops).Shows m (.param d) (f {}) := by
  have hcall := exec_call hd hw hc ops
  rw [h] at hcall
  obtain ⟨hl, o, c, ho, hcell⟩ := hcall
  refine ⟨o.cell, ?_, hcell ▸ hf c⟩
  have hpos : 0 < (q.exec ops).count d := hl
  rw [Property.read, Property.value, if_pos hpos]
  simp only [bind, Except.bind, ho]
  rfl

/-- What a minor parameter computes does not depend on what was in its slot. -/
theorem Defer.run_shows {f : Defer} {ptr : Nat} {slot : Cell} (h : f.run m ptr {} = .ok slot) (c : Cell) :
    Returns (f.run m ptr c) slot.Same := by
  rcases f with ⟨off, len⟩ | f
  · obtain rfl := Except.ok.inj h
    exact returns_ok.mpr (Cell.same_set _ _ _ (by simp))
  · rw [Defer.run] at h ⊢
    cases hf : f m ptr with
    | error e =>
      rw [hf] at h
      cases h
    | ok bytes =>
      rw [hf] at h
      obtain rfl := Except.ok.inj h
      exact returns_ok.mpr (Cell.same_cpy bytes _)

/-- **A minor parameter shows what its function makes of the header.** -/
theorem shows_minor (hw : q.WF) (hc : q.count d = 0) {f : Cell → Cell} {fs : List (Cell → Cell)}
    {off : Nat} (h : setCalls d ops = f :: fs) (hf : ∀ c, (f c).start = .ok off)
    (i : Fin d.minors.length) {slot : Cell} (hrun : (d.minors.get i).2.run m off {} = .ok slot) :
    (q.exec ops).Shows m (.minor d i) slot := by
  have hk := Param.kind_of_minor i
  have hd : d.direct = true := by
    refine Param.direct_iff.mpr ⟨by rw [hk]; rfl, by rw [hk]; simp, ?_, ?_, ?_⟩
    all_goals
      rintro rfl
      cases hk
  have hcall := exec_call hd hw hc ops
  rw [h] at hcall
  obtain ⟨hl, o, c, ho, hcell⟩ := hcall
  have hpos : 0 < (q.exec ops).count d := hl
  obtain ⟨c', hv⟩ := (hw.exec ops).valueMinor_eq (m := m) i ho
  obtain ⟨slot', hslot', hsame⟩ := Defer.run_shows hrun c'
  have hstart : o.cell.start = .ok off := by rw [hcell, hf]
  refine ⟨slot', ?_, hsame⟩
  rw [Property.read, Property.value, if_pos hpos, hv, hstart]
  have hget := (hw.exec ops).slot?_setSlot i ho slot'
  simp only [bind, Except.bind, hslot', pure, Except.pure, hget, Option.getD_some]

end Shows

end PacketMachine.Decode
