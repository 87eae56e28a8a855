import PacketMachine.Setup.Names
import PacketMachine.Lib.Run

/-!
# `Property` for any modules

Model of `retain_value`, `has_value` and `value` (`property.cc:93-263`) and of the storage behind
minor parameters (`module.cc:66-143`), for the definitions of any `Decoder`.

* A value is an object of a class (`Class`) and its state. The classes are `Value`, `ValueStorage`
  and those of the modules, whose constructors and virtual functions are in `Methods`. `is_null()`
  is a constant in each class: `false` in `Value` (`value.hpp:91`), which `ValueStorage` does not
  override, `true` in `NoneValue`.
* `value` of a minor parameter makes the slots of the storage at the first use, then lets the
  function that the minor parameter was defined with write to its slot. Such a function gets the
  slot and what `raw()` points to.
* A module retains values for the definitions that it has made, and calls methods of values it has
  been given (`Op.write`). `new_object` is expected to return an object.
* An access outside a vector and a failed assertion are faults.

Results:
* `WF`: the objects have the classes of their definitions, and a storage has no slots or one for
  each minor parameter. Every step keeps it (`WF.step`), and so every run does (`wf_exec`).
* `count_exec`: `param_idx_` counts what was retained since the last `init`.
-/

namespace PacketMachine.Setup

open PacketMachine.Lib Std
open PacketMachine.Decode (Fault indexed indexed_of_lt lt_of_indexed)

/-! ## Values -/

/-- The class of a value. -/
inductive Class (κ : Type) where
  /-- `Value`. -/
  | value
  /-- `ValueStorage`. -/
  | storage
  | other (c : κ)
  deriving DecidableEq, Repr

/-- The methods of values: `M` is the memory, `P` a pointer to bytes, `S` the state of an object,
`δ` the functions of minor parameters, and `O` what can be seen of a value. -/
structure Methods (M P κ S δ O : Type) where
  /-- The constructor. -/
  new : Class κ → S
  /-- `clear()`. -/
  clear : Class κ → S → S
  /-- `is_null()` of a class of a module. -/
  null : κ → Bool
  /-- `raw()`. -/
  raw : S → P
  /-- `defer(v, ptr)`. -/
  defer : δ → M → P → S → Except Fault S
  /-- The accessors. -/
  look : M → Class κ → S → O

variable {M P κ S δ O : Type}

/-- `is_null()`. -/
def Methods.isNull (w : Methods M P κ S δ O) : Class κ → Bool
  | .value => false
  | .storage => false
  | .other c => w.null c

/-- A `Value`. -/
structure Value (κ S : Type) where
  cls : Class κ
  state : S

/-- A pooled object. `slots` is the `storage_` of a `ValueStorage`. -/
structure Object (κ S : Type) extends Value κ S where
  slots : List (Value κ S) := []

/-- An object of a class. -/
def Methods.make (w : Methods M P κ S δ O) (c : Class κ) : Value κ S := ⟨c, w.new c⟩

/-- The class that `new_object` makes. -/
def Def.newClass (d : Def δ (Class κ)) : Class κ :=
  match d.cls with
  | .param new => new
  | .major => .storage
  | .minor _ _ new _ => new

/-! ## The property -/

/-- `Property`. -/
structure Property (κ S : Type) where
  param : List (List (Object κ S)) := []
  paramIdx : List Nat := []

/-- `Property::init`. -/
def Property.init (q : Property κ S) : Property κ S :=
  { q with paramIdx := q.paramIdx.map fun _ => 0 }

/-- The objects that were made for an id. -/
def Property.objs (q : Property κ S) (pid : Nat) : List (Object κ S) := (q.param[pid]?).getD []

/-- `param_idx_`. -/
def Property.count (q : Property κ S) (pid : Nat) : Nat := (q.paramIdx[pid]?).getD 0

/-- The vectors reach to an id. -/
def Property.grow (q : Property κ S) (psize : Nat) : Property κ S where
  param := q.param ++ List.replicate (psize - q.param.length) []
  paramIdx := q.paramIdx ++ List.replicate (psize - q.param.length) 0

/-- `Property::retain_value`. -/
def Property.retainValue (w : Methods M P κ S δ O) (q : Property κ S) (d : Def δ (Class κ)) :
    Property κ S :=
  let q := q.grow (d.id + 1)
  let idx := q.count d.id
  let objs := q.objs d.id
  let objs :=
    if idx < objs.length then objs.modify idx fun o => { o with state := w.clear o.cls o.state }
    else objs ++ [⟨w.make d.newClass, []⟩]
  { param := q.param.set d.id objs, paramIdx := q.paramIdx.set d.id (idx + 1) }

/-- A change of an object. -/
def Property.modify (q : Property κ S) (pid idx : Nat) (f : Object κ S → Object κ S) :
    Property κ S :=
  { q with param := q.param.modify pid (·.modify idx f) }

/-- A call on a value. -/
def Property.write (q : Property κ S) (pid idx : Nat) (f : S → S) : Property κ S :=
  q.modify pid idx fun o => { o with state := f o.state }

/-- What a `const Value&` refers to. -/
inductive Place where
  /-- `Property::null_`. -/
  | null
  /-- The first object of an id. -/
  | obj (pid : Nat)
  /-- A slot of the first object of an id. -/
  | slot (pid i : Nat)
  deriving DecidableEq, Repr

/-- `Property::has_value` of a key. -/
def Property.hasValueKey (q : Property κ S) (key : ParamKey δ (Class κ)) : Except Fault Bool := do
  return 0 < (← indexed q.paramIdx key.id)

/-- `Property::has_value` of a name. -/
def Property.hasValue (d : Decoder δ (Class κ)) (q : Property κ S) (name : String) :
    Except Fault Bool :=
  let key := d.lookupParamKey name
  if key.same nullKey then return false else q.hasValueKey key

/-- The slots of a `ValueStorage`, made at the first use. -/
def resizeSlots (w : Methods M P κ S δ O) (slots : List (Value κ S)) (minorSize : Nat)
    (new : Class κ) :
    List (Value κ S) :=
  if slots.length = 0 then List.replicate minorSize (w.make new) else slots

/-- The slots of the first object of an id are set. -/
def Property.setSlots (q : Property κ S) (pid : Nat) (slots : List (Value κ S)) : Property κ S :=
  q.modify pid 0 fun o => { o with slots }

/-- `Property::value` of a key. -/
def Property.valueKey (w : Methods M P κ S δ O) (q : Property κ S) (m : M)
    (key : ParamKey δ (Class κ)) :
    Except Fault (Property κ S × Place) := do
  if 0 < (← indexed q.paramIdx key.id) then
    let objs ← indexed q.param key.id
    let val ← indexed objs 0
    match key.definition with
    | none => .error (.assertion "def")
    | some def_ =>
      match def_.cls with
      | .minor minorId defer new minorSize =>
        match val.cls with
        | .storage =>
          let slots := resizeSlots w val.slots minorSize new
          match slots[minorId]? with
          | none => .error (.assertion "this->storage_.size() > idx")
          | some v => do
            let state ← w.defer defer m (w.raw val.state) v.state
            return (q.setSlots key.id.toNat (slots.set minorId { v with state }),
              .slot key.id.toNat minorId)
        | _ => .error (.assertion "mdef && sval")
      | _ => return (q, .obj key.id.toNat)
  else return (q, .null)

/-- `Property::value` of a name. -/
def Property.value (w : Methods M P κ S δ O) (d : Decoder δ (Class κ)) (q : Property κ S) (m : M)
    (name : String) : Except Fault (Property κ S × Place) :=
  let key := d.lookupParamKey name
  if key.same nullKey then return (q, .null) else q.valueKey w m key

/-- The value at a place. -/
def Property.at? (w : Methods M P κ S δ O) (q : Property κ S) : Place → Option (Value κ S)
  | .null => some (w.make .value)
  | .obj pid => ((q.objs pid)[0]?).map Object.toValue
  | .slot pid i => ((q.objs pid)[0]?).bind fun o => o.slots[i]?

/-! ## Runs -/

/-- What happens to a property. -/
inductive Op (M S : Type) where
  /-- `init`, for a packet. -/
  | init
  /-- `retain_value` of the definition with this id. -/
  | retain (pid : Nat)
  /-- A call on the value with this index. -/
  | write (pid idx : Nat) (f : S → S)
  /-- `value` of a name. -/
  | read (m : M) (name : String)

/-- A step. There is none where the source would leave a vector or fail an assertion. -/
def step (w : Methods M P κ S δ O) (d : Decoder δ (Class κ)) (q : Property κ S) :
    Op M S → Option (Property κ S)
  | .init => some q.init
  | .retain pid => (d.params.params[pid]?).map (q.retainValue w)
  | .write pid idx f => some (q.write pid idx f)
  | .read m name => (q.value w d m name).toOption.map Prod.fst

/-- The ids that were retained since the last `init`. -/
def retainedNow : List (Op M S) → List Nat := List.foldl (fun ids op =>
  match op with
  | .init => []
  | .retain pid => ids ++ [pid]
  | _ => ids) []

/-! ## The pool -/

/-- The vectors have the same length, and no more values are retained than were made. -/
structure Property.Sized (q : Property κ S) : Prop where
  length : q.paramIdx.length = q.param.length
  count_le : ∀ pid, q.count pid ≤ (q.objs pid).length

/-- The object that `retain_value` hands out. -/
def Property.fresh (w : Methods M P κ S δ O) (q : Property κ S) (d : Def δ (Class κ)) :
    Object κ S :=
  match (q.objs d.id)[q.count d.id]? with
  | some o => { o with state := w.clear o.cls o.state }
  | none => ⟨w.make d.newClass, []⟩

section Pool

variable {w : Methods M P κ S δ O} {q : Property κ S}

theorem count_init (q : Property κ S) (pid : Nat) : q.init.count pid = 0 := by
  rw [Property.count, Property.init, List.getElem?_map]
  cases q.paramIdx[pid]? <;> rfl

theorem count_modify (q : Property κ S) (pid idx : Nat) (f : Object κ S → Object κ S) (pid' : Nat) :
    (q.modify pid idx f).count pid' = q.count pid' := rfl

theorem objs_modify (q : Property κ S) (pid idx : Nat) (f : Object κ S → Object κ S) (pid' : Nat) :
    (q.modify pid idx f).objs pid' =
      if pid' = pid then (q.objs pid').modify idx f else q.objs pid' :=
  getD_modify _ (List.modify_nil ..) _ _ _

theorem count_retainValue (hs : q.Sized) (d : Def δ (Class κ)) (pid : Nat) :
    (q.retainValue w d).count pid = if pid = d.id then q.count pid + 1 else q.count pid := by
  have hlt : d.id < (q.grow (d.id + 1)).paramIdx.length := by
    simp only [Property.grow, List.length_append, List.length_replicate, hs.length]
    omega
  have hgrow : ∀ i, (q.grow (d.id + 1)).count i = q.count i :=
    fun i => getD_append_replicate _ _ i _
  change (((q.grow (d.id + 1)).paramIdx.set d.id _)[pid]?).getD 0 = _
  rw [getD_set hlt, hgrow]
  split
  · rename_i h
    rw [h]
  · exact hgrow pid

/-- `retain_value` puts one object into the pool of its id. -/
theorem objs_retainValue (d : Def δ (Class κ)) (pid : Nat) :
    (q.retainValue w d).objs pid = if pid = d.id then
      (if q.count pid < (q.objs pid).length then (q.objs pid).set (q.count pid) (q.fresh w d)
        else q.objs pid ++ [q.fresh w d])
      else q.objs pid := by
  have hlt : d.id < (q.grow (d.id + 1)).param.length := by
    simp only [Property.grow, List.length_append, List.length_replicate]
    omega
  have hobjs : ∀ i, (q.grow (d.id + 1)).objs i = q.objs i := fun i => getD_append_replicate _ _ i _
  have hcount : ∀ i, (q.grow (d.id + 1)).count i = q.count i :=
    fun i => getD_append_replicate _ _ i _
  change (((q.grow (d.id + 1)).param.set d.id _)[pid]?).getD [] = _
  rw [getD_set hlt, hobjs, hcount]
  by_cases h : pid = d.id
  · subst h
    rw [if_pos rfl, if_pos rfl]
    unfold Property.fresh
    by_cases hc : q.count d.id < (q.objs d.id).length
    · rw [if_pos hc, if_pos hc, List.getElem?_eq_getElem hc, modify_eq_set_getElem _ hc]
    · rw [if_neg hc, if_neg hc, List.getElem?_eq_none (Nat.le_of_not_lt hc)]
  · rw [if_neg h, if_neg h]
    exact hobjs pid

theorem Property.Sized.init (hs : q.Sized) : q.init.Sized := by
  refine ⟨?_, fun pid => ?_⟩
  · simp [Property.init, hs.length]
  · rw [count_init]
    exact Nat.zero_le _

theorem Property.Sized.modify (hs : q.Sized) (pid idx : Nat) (f : Object κ S → Object κ S) :
    (q.modify pid idx f).Sized := by
  refine ⟨?_, fun pid' => ?_⟩
  · simp [Property.modify, hs.length]
  · have hle := hs.count_le pid'
    rw [count_modify, objs_modify]
    split
    · rwa [List.length_modify]
    · exact hle

theorem Property.Sized.retainValue (hs : q.Sized) (d : Def δ (Class κ)) :
    (q.retainValue w d).Sized := by
  refine ⟨?_, fun pid => ?_⟩
  · simp [Property.retainValue, Property.grow, hs.length]
  · have hle := hs.count_le pid
    rw [count_retainValue hs, objs_retainValue]
    by_cases h : pid = d.id
    · rw [if_pos h, if_pos h]
      split
      · rw [List.length_set]
        omega
      · rw [List.length_append, List.length_singleton]
        omega
    · rwa [if_neg h, if_neg h]

end Pool

/-! ## The invariant -/

/-- The object has the class of the parameter, and its slots those of the minor parameters. -/
def Declared.Fits (r : Declared δ (Class κ)) (o : Object κ S) : Prop :=
  match r.definition with
  | .param new => o.cls = new
  | .major new defMap => o.cls = .storage ∧ (o.slots.length = 0 ∨ o.slots.length = defMap.size) ∧
      ∀ v ∈ o.slots, v.cls = new

/-- Every object fits its parameter. -/
structure Property.WF (mods : ModMap δ (Class κ)) (q : Property κ S) : Prop where
  sized : q.Sized
  fits : ∀ (pid : Nat) (r : Declared δ (Class κ)), (declared mods)[pid]? = some r →
    ∀ o ∈ q.objs pid, r.Fits o

section Invariant

variable {w : Methods M P κ S δ O} {mods : ModMap δ (Class κ)} {q : Property κ S}
  {r : Declared δ (Class κ)}
  {pid : Nat}

theorem Declared.Fits.state {o : Object κ S} (h : r.Fits o) (state : S) :
    r.Fits { o with state } := h

/-- A new object fits. -/
theorem fits_make (w : Methods M P κ S δ O) (r : Declared δ (Class κ)) (pid : Nat) :
    r.Fits (⟨w.make (r.finalize pid).newClass, []⟩ : Object κ S) := by
  unfold Declared.Fits Declared.finalize ParamDef.finalize Def.newClass
  cases r.definition with
  | param new => rfl
  | major new defMap => exact ⟨rfl, .inl rfl, fun v hv => absurd hv List.not_mem_nil⟩

theorem wf_empty (mods : ModMap δ (Class κ)) : ({} : Property κ S).WF mods :=
  ⟨⟨rfl, fun _ => Nat.le_refl _⟩, fun _ _ _ _ ho => absurd ho List.not_mem_nil⟩

theorem Property.WF.init (h : q.WF mods) : q.init.WF mods := ⟨h.sized.init, h.fits⟩

theorem Property.WF.modify (h : q.WF mods) (pid idx : Nat) (f : Object κ S → Object κ S)
    (hf : ∀ r o, (declared mods)[pid]? = some r → (q.objs pid)[idx]? = some o → r.Fits o →
      r.Fits (f o)) :
    (q.modify pid idx f).WF mods := by
  refine ⟨h.sized.modify pid idx f, fun pid' r hr o ho => ?_⟩
  rw [objs_modify] at ho
  by_cases hp : pid' = pid
  · subst hp
    rw [if_pos rfl] at ho
    obtain ⟨i, hi⟩ := List.getElem?_of_mem ho
    rw [List.getElem?_modify] at hi
    obtain ⟨o', ho', rfl⟩ := Option.map_eq_some_iff.mp hi
    have hfits := h.fits pid' r hr o' (List.mem_of_getElem? ho')
    split
    · rename_i hidx
      subst hidx
      exact hf r o' hr ho' hfits
    · exact hfits
  · rw [if_neg hp] at ho
    exact h.fits pid' r hr o ho

theorem Property.WF.retainValue (h : q.WF mods) (hr : (declared mods)[pid]? = some r) :
    (q.retainValue w (r.finalize pid)).WF mods := by
  refine ⟨h.sized.retainValue _, fun pid' r' hr' o ho => ?_⟩
  have hfresh : r.Fits (q.fresh w (r.finalize pid)) := by
    unfold Property.fresh
    split
    · rename_i o ho
      exact h.fits pid r hr o (List.mem_of_getElem? ho)
    · exact fits_make w r pid
  rw [objs_retainValue] at ho
  by_cases hp : pid' = (r.finalize pid).id
  · rw [if_pos hp] at ho
    obtain rfl : pid' = pid := hp
    obtain rfl := Option.some.inj (hr.symm.trans hr')
    have hmem : o ∈ q.objs pid' ∨ o = q.fresh w (r.finalize pid') := by
      split at ho
      · exact List.mem_or_eq_of_mem_set ho
      · simpa using ho
    rcases hmem with hmem | rfl
    · exact h.fits pid' r hr o hmem
    · exact hfresh
  · rw [if_neg hp] at ho
    exact h.fits pid' r' hr' o ho

end Invariant

/-! ## Reading -/

section Reading

variable {w : Methods M P κ S δ O} {mods : ModMap δ (Class κ)} {q q' : Property κ S}
  {r : Declared δ (Class κ)} {i j : Nat} {m : M} {name f : String} {s : Def δ (Class κ)}
  {new : Class κ}
  {defMap : TreeMap String δ} {defer : δ}

/-- A name is unknown, or it has the key of an entry. -/
theorem lookup_cases (mods : ModMap δ (Class κ)) (name : String) :
    (Decoder.build mods).lookupParamKey name = nullKey ∨
      ∃ (i : Nat) (r : Declared δ (Class κ)) (s : _),
      (declared mods)[i]? = some r ∧ (name, s) ∈ r.entries i ∧
        (Decoder.build mods).lookupParamKey name = ⟨i, some s⟩ := by
  rw [Decoder.lookupParamKey]
  cases hfind : (Decoder.build mods).params.paramMap[name]? with
  | none => exact .inl rfl
  | some s =>
    obtain ⟨i, r, hi, hs⟩ := of_getElem?_paramMap hfind
    refine .inr ⟨i, r, s, hi, hs, ?_⟩
    rw [← id_of_mem_entries hs]

theorem not_same_nullKey (i : Nat) (s : Option (Def δ (Class κ))) :
    (⟨i, s⟩ : ParamKey δ (Class κ)).same nullKey = false :=
  beq_eq_false_iff_ne.mpr (by simp [nullKey])

theorem hasValue_unknown (hkey : (Decoder.build mods).lookupParamKey name = nullKey) :
    q.hasValue (Decoder.build mods) name = .ok false := by
  rw [Property.hasValue, hkey]
  rfl

theorem value_unknown (hkey : (Decoder.build mods).lookupParamKey name = nullKey) :
    q.value w (Decoder.build mods) m name = .ok (q, .null) := by
  rw [Property.value, hkey]
  rfl

theorem indexed_count (hlt : i < q.paramIdx.length) : indexed q.paramIdx i = .ok (q.count i) := by
  rw [indexed_of_lt hlt, Property.count, List.getElem?_eq_getElem hlt]
  rfl

theorem hasValue_known (hkey : (Decoder.build mods).lookupParamKey name = ⟨i, some s⟩)
    (hlt : i < q.paramIdx.length) :
    q.hasValue (Decoder.build mods) name = .ok (decide (0 < q.count i)) := by
  simp only [Property.hasValue, hkey, not_same_nullKey, Property.hasValueKey, indexed_count hlt]
  rfl

theorem value_absent (hkey : (Decoder.build mods).lookupParamKey name = ⟨i, some s⟩)
    (hlt : i < q.paramIdx.length) (hc : q.count i = 0) :
    q.value w (Decoder.build mods) m name = .ok (q, .null) := by
  simp only [Property.value, hkey, not_same_nullKey, Property.valueKey, indexed_count hlt, hc]
  rfl

/-- A pool of which something is retained has a first object. -/
theorem first_of_count (hs : q.Sized) (hc : 0 < q.count i) :
    ∃ o, (q.objs i)[0]? = some o ∧ indexed q.param i = .ok (q.objs i) ∧
      indexed (q.objs i) 0 = .ok o := by
  have hpos : 0 < (q.objs i).length := Nat.lt_of_lt_of_le hc (hs.count_le i)
  have hlt : i < q.param.length := by
    by_contra hge
    rw [Property.objs, List.getElem?_eq_none (Nat.le_of_not_lt hge)] at hpos
    exact Nat.lt_irrefl 0 hpos
  refine ⟨_, List.getElem?_eq_getElem hpos, ?_, indexed_of_lt hpos⟩
  rw [indexed_of_lt hlt, Property.objs, List.getElem?_eq_getElem hlt]
  rfl

theorem lt_of_count (hc : 0 < q.count i) : i < q.paramIdx.length := by
  by_contra hge
  rw [Property.count, List.getElem?_eq_none (Nat.le_of_not_lt hge)] at hc
  exact Nat.lt_irrefl 0 hc

/-- **`value` of a top-level parameter**: its first object. -/
theorem value_param (hs : q.Sized)
    (hkey : (Decoder.build mods).lookupParamKey name = ⟨i, some (r.finalize i)⟩)
    (hc : 0 < q.count i) :
    q.value w (Decoder.build mods) m name = .ok (q, .obj i) := by
  obtain ⟨o, -, hparam, hzero⟩ := first_of_count hs hc
  simp only [Property.value, hkey, not_same_nullKey, Property.valueKey,
    indexed_count (lt_of_count hc), hparam, bind, Except.bind, hc, hzero]
  unfold Declared.finalize ParamDef.finalize
  cases r.definition <;> rfl

/-- The slots have the class of the minor parameters, and there is one for each. -/
theorem resizeSlots_fits {o : Object κ S} (hd : r.definition = .major new defMap) (h : r.Fits o) :
    (resizeSlots w o.slots defMap.size new).length = defMap.size ∧
      ∀ v ∈ resizeSlots w o.slots defMap.size new, v.cls = new := by
  unfold Declared.Fits at h
  rw [hd] at h
  obtain ⟨-, hlen, hcls⟩ := h
  unfold resizeSlots
  split
  · exact ⟨List.length_replicate, fun v hv => by rw [List.eq_of_mem_replicate hv]; rfl⟩
  · rename_i hne
    exact ⟨hlen.resolve_left hne, hcls⟩

/-- The definition of minor parameter `j`. -/
def minorDef (r : Declared δ (Class κ)) (i j : Nat) (f : String) (defer : δ) (new : Class κ)
    (defMap : TreeMap String δ) : Def δ (Class κ) :=
  ⟨r.moduleId, i, dotted r.name f, .minor j defer new defMap.size⟩

/-- **`value` of a minor parameter**: the slot is in range, and its function is called on it. -/
theorem value_minor (h : q.WF mods) (hi : (declared mods)[i]? = some r)
    (hd : r.definition = .major new defMap)
    (hj : defMap.toList[j]? = some (f, defer))
    (hkey : (Decoder.build mods).lookupParamKey name =
      ⟨i, some (minorDef r i j f defer new defMap)⟩)
    (hc : 0 < q.count i) :
    ∃ o v, (q.objs i)[0]? = some o ∧ (resizeSlots w o.slots defMap.size new)[j]? = some v ∧
      v.cls = new ∧
      q.value w (Decoder.build mods) m name = (do
        let state ← w.defer defer m (w.raw o.state) v.state
        return (q.setSlots i ((resizeSlots w o.slots defMap.size new).set j { v with state }),
          .slot i j)) := by
  obtain ⟨o, ho, hparam, hzero⟩ := first_of_count h.sized hc
  have hfits := h.fits i r hi o (List.mem_of_getElem? ho)
  obtain ⟨hlen, hcls⟩ := resizeSlots_fits (w := w) hd hfits
  have hstorage : o.cls = .storage := by
    unfold Declared.Fits at hfits
    rw [hd] at hfits
    exact hfits.1
  have hlt : j < (resizeSlots w o.slots defMap.size new).length := by
    rw [hlen, ← TreeMap.length_toList]
    exact (List.getElem?_eq_some_iff.mp hj).1
  refine ⟨o, _, ho, List.getElem?_eq_getElem hlt, hcls _ (List.getElem_mem hlt), ?_⟩
  simp only [Property.value, hkey, not_same_nullKey, Property.valueKey,
    indexed_count (lt_of_count hc), hparam, bind, Except.bind, hc, hzero, minorDef, hstorage,
    List.getElem?_eq_getElem hlt]
  rfl

/-- **What a call of `value` that returns has done.** -/
inductive Read (w : Methods M P κ S δ O) (mods : ModMap δ (Class κ)) (q : Property κ S) (m : M)
    (name : String) : Property κ S × Place → Prop
  /-- The name has no value. -/
  | null (habsent : ∀ (i : Nat) (s : Def δ (Class κ)),
      (Decoder.build mods).lookupParamKey name = ⟨i, some s⟩ → q.count i = 0) :
    Read w mods q m name (q, .null)
  | obj {i : Nat} {r : Declared δ (Class κ)} (hi : (declared mods)[i]? = some r)
      (hkey : (Decoder.build mods).lookupParamKey name = ⟨i, some (r.finalize i)⟩)
      (hc : 0 < q.count i) :
    Read w mods q m name (q, .obj i)
  | slot {i j : Nat} {r : Declared δ (Class κ)} {new : Class κ} {defMap : TreeMap String δ}
      {f : String}
      {defer : δ} {o : Object κ S} {v : Value κ S} {state : S} (hi : (declared mods)[i]? = some r)
      (hd : r.definition = .major new defMap) (hj : defMap.toList[j]? = some (f, defer))
      (hkey : (Decoder.build mods).lookupParamKey name =
        ⟨i, some (minorDef r i j f defer new defMap)⟩)
      (hc : 0 < q.count i) (ho : (q.objs i)[0]? = some o)
      (hv : (resizeSlots w o.slots defMap.size new)[j]? = some v) (hcls : v.cls = new)
      (hstate : w.defer defer m (w.raw o.state) v.state = .ok state) :
    Read w mods q m name
      (q.setSlots i ((resizeSlots w o.slots defMap.size new).set j { v with state }), .slot i j)

theorem read_of_value (h : q.WF mods) {res : Property κ S × Place}
    (hok : q.value w (Decoder.build mods) m name = .ok res) : Read w mods q m name res := by
  rcases lookup_cases mods name with hkey | ⟨i, r, s, hi, hs, hkey⟩
  · rw [value_unknown hkey] at hok
    obtain rfl := Except.ok.inj hok
    refine .null fun i s hkey' => ?_
    rw [hkey] at hkey'
    cases congrArg ParamKey.definition hkey'
  · have hlt : i < q.paramIdx.length := by
      simp only [Property.value, hkey, not_same_nullKey] at hok
      obtain ⟨n, hn, hlt⟩ := lt_of_indexed (returns_of_bind hok)
      exact Int.ofNat.inj hn ▸ hlt
    by_cases hc : 0 < q.count i
    · obtain ⟨-, rfl | hsub⟩ := mem_entries hs
      · rw [value_param h.sized hkey hc] at hok
        obtain rfl := Except.ok.inj hok
        exact .obj hi hkey hc
      · obtain ⟨new, defMap, j, f, defer, hd, hj, rfl⟩ := mem_subDefs.mp hsub
        obtain ⟨o, v, ho, hv, hcls, hval⟩ := value_minor (w := w) (m := m) h hi hd hj hkey hc
        rw [hval] at hok
        obtain ⟨state, hstate, hret⟩ := returns_of_bind hok
        obtain rfl := Except.ok.inj hret
        exact .slot hi hd hj hkey hc ho hv hcls hstate
    · rw [value_absent hkey hlt (Nat.eq_zero_of_not_pos hc)] at hok
      obtain rfl := Except.ok.inj hok
      refine .null fun i' s' hkey' => ?_
      rw [hkey] at hkey'
      have hid : (i : Int) = i' := congrArg ParamKey.id hkey'
      rw [← Int.ofNat.inj hid]
      exact Nat.eq_zero_of_not_pos hc

/-- Reading keeps the invariant and counts nothing. -/
theorem Read.keeps {res : Property κ S × Place} (hread : Read w mods q m name res) (h : q.WF mods) :
    res.1.WF mods ∧ ∀ pid, res.1.count pid = q.count pid := by
  cases hread with
  | null habsent => exact ⟨h, fun _ => rfl⟩
  | obj hi hkey hc => exact ⟨h, fun _ => rfl⟩
  | @slot i j r new defMap f defer o v state hi hd hj hkey hc ho hv hcls hstate =>
    refine ⟨h.modify i 0 _ fun r' o' hr' ho' hfits => ?_, fun _ => rfl⟩
    obtain rfl := Option.some.inj (hi.symm.trans hr')
    obtain rfl := Option.some.inj (ho.symm.trans ho')
    obtain ⟨hlen, hall⟩ := resizeSlots_fits (w := w) hd hfits
    unfold Declared.Fits at hfits ⊢
    rw [hd] at hfits ⊢
    refine ⟨hfits.1, .inr (by rw [List.length_set, hlen]), fun v' hv' => ?_⟩
    rcases List.mem_or_eq_of_mem_set hv' with hmem | rfl
    · exact hall v' hmem
    · exact hcls

end Reading

/-! ## Every run -/

section Runs

variable {w : Methods M P κ S δ O} {mods : ModMap δ (Class κ)} {q q' : Property κ S} {op : Op M S}
  {ops : List (Op M S)}

theorem retainedNow_snoc (ops : List (Op M S)) (op : Op M S) : retainedNow (ops ++ [op]) =
    match op with
    | .init => []
    | .retain pid => retainedNow ops ++ [pid]
    | _ => retainedNow ops := by
  rw [retainedNow, List.foldl_append]
  cases op <;> rfl

/-- A module retains values for the definitions of the decoder. -/
theorem step_retain {pid : Nat} (hstep : step w (Decoder.build mods) q (.retain pid) = some q') :
    ∃ r, (declared mods)[pid]? = some r ∧ q' = q.retainValue w (r.finalize pid) := by
  obtain ⟨d, hd, rfl⟩ := Option.map_eq_some_iff.mp hstep
  rw [getElem?_params] at hd
  obtain ⟨r, hr, rfl⟩ := Option.map_eq_some_iff.mp hd
  exact ⟨r, hr, rfl⟩

theorem step_read {m : M} {name : String} (h : q.WF mods)
    (hstep : step w (Decoder.build mods) q (.read m name) = some q') :
    ∃ place, Read w mods q m name (q', place) := by
  obtain ⟨⟨q₁, place⟩, hres, rfl⟩ := Option.map_eq_some_iff.mp hstep
  refine ⟨place, read_of_value h ?_⟩
  cases hval : q.value w (Decoder.build mods) m name with
  | error e =>
    rw [hval] at hres
    cases hres
  | ok res =>
    rw [hval] at hres
    rw [Option.some.inj hres]

/-- Every step keeps the invariant. -/
theorem Property.WF.step (h : q.WF mods) (hstep : step w (Decoder.build mods) q op = some q') :
    q'.WF mods := by
  cases op with
  | init =>
    obtain rfl := Option.some.inj hstep
    exact h.init
  | retain pid =>
    obtain ⟨r, hr, rfl⟩ := step_retain hstep
    exact h.retainValue hr
  | write pid idx f =>
    obtain rfl := Option.some.inj hstep
    exact h.modify pid idx _ fun r o _ _ hfits => hfits.state _
  | read m name =>
    obtain ⟨place, hread⟩ := step_read h hstep
    exact (hread.keeps h).1

/-- **`param_idx_` counts what was retained since the last `init`**, in every run. -/
theorem count_exec (hrun : exec (step w (Decoder.build mods)) {} ops = some q) :
    q.WF mods ∧ ∀ pid, q.count pid = (retainedNow ops).count pid := by
  refine exec_induct
    (I := fun ops q => q.WF mods ∧ ∀ pid, q.count pid = (retainedNow ops).count pid)
    ⟨wf_empty mods, fun _ => rfl⟩
    (fun ops q op q' hi hstep => ⟨hi.1.step hstep, fun pid => ?_⟩) ops hrun
  rw [retainedNow_snoc]
  cases op with
  | init =>
    obtain rfl := Option.some.inj hstep
    exact count_init q pid
  | retain pid' =>
    obtain ⟨r, hr, rfl⟩ := step_retain hstep
    rw [count_retainValue hi.1.sized, hi.2, List.count_append, List.count_singleton]
    have hid : (r.finalize pid').id = pid' := rfl
    rw [hid]
    by_cases hp : pid = pid'
    · simp [hp]
    · simp [hp, Ne.symm hp]
  | write pid' idx f =>
    obtain rfl := Option.some.inj hstep
    exact hi.2 pid
  | read m name =>
    obtain ⟨place, hread⟩ := step_read hi.1 hstep
    rw [(hread.keeps hi.1).2 pid, hi.2]

end Runs

/-! ## Absence -/

/-- The parameter that the name leads to was retained since the last `init`, and the class that its
value is made of is not one of null values. -/
def Shown (w : Methods M P κ S δ O) (d : Decoder δ (Class κ)) (ops : List (Op M S)) (name : String) :
    Prop :=
  ∃ (i : Nat) (s : Def δ (Class κ)), d.lookupParamKey name = ⟨i, some s⟩ ∧ i ∈ retainedNow ops ∧
    w.isNull s.newClass = false

section Absence

variable {w : Methods M P κ S δ O} {mods : ModMap δ (Class κ)} {q : Property κ S}
  {ops : List (Op M S)}
  {m : M} {name : String} {i j : Nat}

theorem setSlots_first {o : Object κ S} (ho : (q.objs i)[0]? = some o) (slots : List (Value κ S)) :
    ((q.setSlots i slots).objs i)[0]? = some { o with slots } := by
  rw [Property.setSlots, objs_modify, if_pos rfl, List.getElem?_modify_eq, ho]
  rfl

theorem at?_setSlots {o : Object κ S} (ho : (q.objs i)[0]? = some o) (slots : List (Value κ S)) :
    (q.setSlots i slots).at? w (.slot i j) = slots[j]? := by
  rw [Property.at?, setSlots_first ho]
  rfl

/-- The value that is referred to has the class of the definition of the name. -/
theorem Read.class {res : Property κ S × Place} (hread : Read w mods q m name res) (h : q.WF mods) :
    ∃ v, res.1.at? w res.2 = some v ∧
      ((∀ (i : Nat) (s : Def δ (Class κ)), (Decoder.build mods).lookupParamKey name = ⟨i, some s⟩ →
        q.count i = 0) ∧
          v.cls = .value ∨
        ∃ (i : Nat) (s : Def δ (Class κ)), (Decoder.build mods).lookupParamKey name = ⟨i, some s⟩ ∧
          0 < q.count i ∧ v.cls = s.newClass) := by
  cases hread with
  | null habsent => exact ⟨_, rfl, .inl ⟨habsent, rfl⟩⟩
  | @obj i r hi hkey hc =>
    obtain ⟨o, ho, -, -⟩ := first_of_count h.sized hc
    have hfits := h.fits i r hi o (List.mem_of_getElem? ho)
    refine ⟨o.toValue, by rw [Property.at?, ho]; rfl, .inr ⟨i, _, hkey, hc, ?_⟩⟩
    unfold Declared.Fits at hfits
    unfold Def.newClass Declared.finalize ParamDef.finalize
    cases hd : r.definition with
    | param new =>
      rw [hd] at hfits
      exact hfits
    | major new defMap =>
      rw [hd] at hfits
      exact hfits.1
  | @slot i j r new defMap f defer o v state hi hd hj hkey hc ho hv hcls hstate =>
    refine ⟨{ v with state }, ?_, .inr ⟨i, _, hkey, hc, hcls⟩⟩
    rw [at?_setSlots ho, List.getElem?_set_self (List.getElem?_eq_some_iff.mp hv).1]

/-- What `has_value` says. -/
theorem hasValue_iff {b : Bool} (hok : q.hasValue (Decoder.build mods) name = .ok b) :
    b = true ↔ ∃ (i : Nat) (s : Def δ (Class κ)),
      (Decoder.build mods).lookupParamKey name = ⟨i, some s⟩ ∧
      0 < q.count i := by
  rcases lookup_cases mods name with hkey | ⟨i, r, s, -, -, hkey⟩
  · rw [hasValue_unknown hkey] at hok
    obtain rfl := Except.ok.inj hok
    refine iff_of_false Bool.false_ne_true ?_
    rintro ⟨i, s, hkey', -⟩
    rw [hkey] at hkey'
    cases congrArg ParamKey.definition hkey'
  · have hlt : i < q.paramIdx.length := by
      simp only [Property.hasValue, hkey, not_same_nullKey] at hok
      obtain ⟨n, hn, hlt⟩ := lt_of_indexed (returns_of_bind hok)
      exact Int.ofNat.inj hn ▸ hlt
    rw [hasValue_known hkey hlt] at hok
    obtain rfl := Except.ok.inj hok
    rw [decide_eq_true_iff]
    refine ⟨fun hc => ⟨i, s, hkey, hc⟩, ?_⟩
    rintro ⟨i', s', hkey', hc⟩
    rw [hkey] at hkey'
    have hid : (i : Int) = i' := congrArg ParamKey.id hkey'
    rwa [Int.ofNat.inj hid]

/-- **Absence and `is_null()`.** In every run, when the look-ups of a name stay inside the vectors,
`is_null()` of its value is the opposite of `has_value` exactly when the parameter was retained
since the last `init` and is not of a class of null values: `Property::null_` is a `Value`, whose
`is_null()` is `false`. -/
theorem null_iff_absent_iff (w : Methods M P κ S δ O) (config : Config) (mods : ModMap δ (Class κ))
    (d : Decoder δ (Class κ)) (hinit : (Decoder.init config mods).2 = .done d) (ops : List (Op M S))
    (q : Property κ S) (hrun : exec (step w d) {} ops = some q) (m : M) (name : String) (b : Bool)
    (hhas : q.hasValue d name = .ok b) (res : Property κ S × Place)
    (hval : q.value w d m name = .ok res) :
    ∃ v, res.1.at? w res.2 = some v ∧
      ((w.isNull v.cls = true ↔ b = false) ↔ Shown w d ops name) := by
  obtain rfl := init_done hinit
  obtain ⟨hwf, hcount⟩ := count_exec hrun
  obtain ⟨v, hv, hcls⟩ := (read_of_value hwf hval).class hwf
  have hb := hasValue_iff hhas
  have hmem : ∀ i, i ∈ retainedNow ops ↔ 0 < q.count i :=
    fun i => by rw [hcount, List.count_pos_iff]
  refine ⟨v, hv, ?_⟩
  rcases hcls with ⟨habsent, hnull⟩ | ⟨i, s, hkey, hc, hnew⟩
  · have hfalse : b = false := by
      refine Bool.eq_false_iff.mpr fun htrue => ?_
      obtain ⟨i, s, hkey, hc⟩ := hb.mp htrue
      exact Nat.ne_of_gt hc (habsent i s hkey)
    have hno : ¬ Shown w (Decoder.build mods) ops name := by
      rintro ⟨i, s, hkey, hi, -⟩
      exact Nat.ne_of_gt ((hmem i).mp hi) (habsent i s hkey)
    rw [hnull, hfalse]
    simp [Methods.isNull, hno]
  · have htrue : b = true := hb.mpr ⟨i, s, hkey, hc⟩
    rw [hnew, htrue]
    constructor
    · intro hiff
      refine ⟨i, s, hkey, (hmem i).mpr hc, Bool.eq_false_iff.mpr fun h => ?_⟩
      exact absurd (hiff.mp h).symm Bool.false_ne_true
    · rintro ⟨i', s', hkey', -, hnull⟩
      obtain rfl : s = s' := Option.some.inj (congrArg ParamKey.definition (hkey.symm.trans hkey'))
      simp [hnull]

end Absence

/-! ### The values of the built-in modules -/

/-- `Value` and the functions that the built-in modules give to `define_minor`, which read a
packet. -/
def packetMethods (ntop6 : List UInt8 → Decode.Text) :
    Methods Decode.Mem (Option Nat) Empty Decode.Cell Decode.Defer Decode.Look where
  new _ := {}
  clear _ c := c.clear
  null c := c.elim
  raw c :=
    match c.active, c.ptr with
    | true, .pkt off => some off
    | _, _ => none
  defer d m ptr c :=
    match ptr with
    | some off => d.run m off c
    | none => .error (.read 0)
  look m _ c := c.look ntop6 m (c.repr m) 0

/-- The module of `batch_param` with its functions. -/
def batchHeader : ModMap Decode.Defer (Class Empty) := batchModules (.field 0 2) (.field 2 2) .value

theorem batchHeader_init : (Decoder.init {} batchHeader).2 = .done (Decoder.build batchHeader) :=
  init_of rfl rfl rfl

/-- A retained parameter is not null. -/
theorem null_iff_absent_retained : ∃ q : Property Empty Decode.Cell,
    exec (step (packetMethods fun _ => []) (Decoder.build batchHeader)) {} [.init, .retain 0] =
      some q ∧
      ∃ v, q.at? (packetMethods fun _ => []) (.obj 0) = some v ∧
        (((packetMethods fun _ => []).isNull v.cls = true ↔ true = false) ↔
          Shown (packetMethods fun _ => []) (Decoder.build batchHeader) [.init, .retain 0]
            "Ethernet.p") :=
  ⟨_, rfl, null_iff_absent_iff (packetMethods fun _ => []) {} batchHeader _ batchHeader_init
    [.init, .retain 0]
    _ rfl (fun _ => none) "Ethernet.p" true rfl (_, .obj 0) rfl⟩

/-- The parameter was retained for a packet, but not for the one after it. -/
theorem absent_not_null : ∃ q : Property Empty Decode.Cell,
    exec (step (packetMethods fun _ => []) (Decoder.build batchHeader)) {}
      [.init, .retain 0, .init] = some q ∧
      q.hasValue (Decoder.build batchHeader) "Ethernet.p" = .ok false ∧
      q.value (packetMethods fun _ => []) (Decoder.build batchHeader) (fun _ => none) "Ethernet.p" =
        .ok (q, .null) ∧
      (q.at? (packetMethods fun _ => []) .null).map
          (fun v => (packetMethods fun _ => []).isNull v.cls) =
        some false :=
  ⟨_, rfl, rfl, rfl, rfl⟩

end PacketMachine.Setup
