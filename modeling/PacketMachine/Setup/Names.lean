import PacketMachine.Setup.Build

/-!
# Names, ids and keys

What the look-ups of `Decoder` (`decoder.cc:190-236`) answer after `Decoder::init`, for any modules.

* `Under` says which names belong to a parameter of a module: its own, and those of its minor
  parameters.
* The key of a minor parameter has the id of its major one, and keys are compared by their ids
  (`property.hpp:86-91`). So such a key leads to the name of the major parameter.

Results:
* `lookupKeyName_iff`: which names their own keys lead back to.
* `keys_differ_iff`: which names have keys that differ.
* **`names_inverse_iff`**: these with the ids of the parameters and of the events, and with the
  names that nothing has.
-/

namespace PacketMachine.Setup

open PacketMachine.Lib Std
open PacketMachine.Decode (Fault indexed indexed_of_lt)

variable {δ ν : Type}

/-! ## What a name stands for -/

/-- A minor parameter of a major one. -/
def ParamDef.HasMinor (f : String) : ParamDef δ ν → Prop
  | .param _ => False
  | .major _ defMap => f ∈ defMap

/-- The names of parameter `p` of module `mod`, and of its minor parameters. -/
def Under (mods : ModMap δ ν) (mod p name : String) : Prop :=
  ∃ (m : Module δ ν) (d : ParamDef δ ν), mods[mod]? = some m ∧ m.paramMap[p]? = some d ∧
    (name = dotted mod p ∨ ∃ f, d.HasMinor f ∧ name = dotted (dotted mod p) f)

/-- A full parameter name. -/
def Registered (mods : ModMap δ ν) (name : String) : Prop := ∃ mod p, Under mods mod p name

/-- The name of a parameter that is not a minor one. -/
def TopLevel (mods : ModMap δ ν) (name : String) : Prop :=
  ∃ mod p, Under mods mod p name ∧ name = dotted mod p

/-- Two names of one parameter. -/
def SameParent (mods : ModMap δ ν) (name name' : String) : Prop :=
  ∃ mod p, Under mods mod p name ∧ Under mods mod p name'

/-- An event name. -/
def RegisteredEvent (mods : ModMap δ ν) (name : String) : Prop :=
  ∃ (mod : String) (m : Module δ ν), mods[mod]? = some m ∧
    (name = mod ∨ ∃ ev ∈ m.eventMap, name = dotted mod ev)

/-- `Decoder::param_size`. -/
def Decoder.paramSize (d : Decoder δ ν) : Nat := d.params.params.length

/-- `Decoder::event_size`. -/
def Decoder.eventSize (d : Decoder δ ν) : Nat := d.events.events.length

section Registered

variable {mods : ModMap δ ν} {r : Declared δ ν} {i : Nat} {name : String}

theorem getElem?_toList_of {mod : String} {m : Module δ ν} (h : mods[mod]? = some m) :
    ∃ j : Nat, mods.toList[j]? = some (mod, m) :=
  List.getElem?_of_mem (TreeMap.mem_toList_iff_getElem?_eq_some.mpr h)

theorem hasMinor_iff {f : String} :
    r.definition.HasMinor f ↔ ∃ s ∈ r.subDefs i, s.name = dotted r.name f := by
  have hsub := fun s => @mem_subDefs δ ν r i s
  constructor
  · intro hf
    cases hd : r.definition with
    | param new =>
      rw [hd] at hf
      cases hf
    | major new defMap =>
      rw [hd] at hf
      obtain ⟨defer, hdefer⟩ := mem_iff_toList.mp hf
      obtain ⟨j, hj⟩ := List.getElem?_of_mem hdefer
      exact ⟨_, (hsub _).mpr ⟨new, defMap, j, f, defer, hd, hj, rfl⟩, rfl⟩
  · rintro ⟨s, hs, hname⟩
    obtain ⟨new, defMap, j, f', defer, hd, hj, rfl⟩ := (hsub s).mp hs
    obtain rfl := dotted_right_inj.mp hname
    rw [hd]
    exact mem_iff_toList.mpr ⟨defer, List.mem_of_getElem? hj⟩

/-- The names of a parameter are those that `param_map_` has for it. -/
theorem under_iff {mod p : String} : Under mods mod p name ↔
    ∃ (i : Nat) (r : Declared δ ν), (declared mods)[i]? = some r ∧ r.mod = mod ∧ r.localName = p ∧
      ∃ s, (name, s) ∈ r.entries i := by
  constructor
  · rintro ⟨m, d, hm, hd, hname⟩
    obtain ⟨j, hj⟩ := getElem?_toList_of hm
    have hr : (⟨j, mod, p, d⟩ : Declared δ ν) ∈ declared mods := mem_declared.mpr ⟨m, hj, hd⟩
    obtain ⟨i, hi⟩ := List.getElem?_of_mem hr
    refine ⟨i, _, hi, rfl, rfl, ?_⟩
    rcases hname with rfl | ⟨f, hf, rfl⟩
    · exact ⟨_, List.mem_map.mpr ⟨_, List.mem_cons_self, rfl⟩⟩
    · obtain ⟨s, hs, hsname⟩ := (hasMinor_iff (r := ⟨j, mod, p, d⟩) (i := i)).mp hf
      exact ⟨s, List.mem_map.mpr ⟨s, List.mem_cons_of_mem _ hs, Prod.ext hsname rfl⟩⟩
  · rintro ⟨i, r, hi, rfl, rfl, s, hs⟩
    obtain ⟨m, hm, hd⟩ := mem_declared.mp (List.mem_of_getElem? hi)
    refine ⟨m, r.definition, getElem?_of_toList hm, hd, ?_⟩
    obtain ⟨rfl, rfl | hsub⟩ := mem_entries hs
    · exact .inl rfl
    · obtain ⟨f, hf⟩ := name_of_mem_subDefs hsub
      exact .inr ⟨f, hasMinor_iff.mpr ⟨s, hsub, hf⟩, hf⟩

/-- A name belongs to one parameter. -/
theorem Under.unique (h : Plain mods) {mod p mod' p' : String} (hu : Under mods mod p name)
    (hu' : Under mods mod' p' name) : mod = mod' ∧ p = p' := by
  obtain ⟨i, r, hi, rfl, rfl, s, hs⟩ := under_iff.mp hu
  obtain ⟨i', r', hi', rfl, rfl, s', hs'⟩ := under_iff.mp hu'
  obtain ⟨hmod, hparam⟩ := h.of_mem (List.mem_of_getElem? hi)
  obtain ⟨hmod', hparam'⟩ := h.of_mem (List.mem_of_getElem? hi')
  by_contra hne
  exact entries_disjoint hmod hparam hmod' hparam' hne _ hs _ hs' rfl

end Registered

/-! ## Parameters -/

section Params

variable {mods : ModMap δ ν} {r : Declared δ ν} {i : Nat} {name name' : String} {s : Def δ ν}

theorem id_of_mem_entries (h : (name, s) ∈ r.entries i) : s.id = i := by
  obtain ⟨-, rfl | hsub⟩ := mem_entries h
  · rfl
  · obtain ⟨_, _, _, _, _, -, -, rfl⟩ := mem_subDefs.mp hsub
    rfl

/-- **The key of a registered name** has the position of its parameter as its id. -/
theorem lookupParamKey_of_entry (h : Plain mods) (hi : (declared mods)[i]? = some r)
    (hs : (name, s) ∈ r.entries i) : (Decoder.build mods).lookupParamKey name = ⟨i, some s⟩ := by
  have hfind := (getElem?_paramMap h).mpr ⟨i, r, hi, hs⟩
  rw [Decoder.lookupParamKey, hfind, ← id_of_mem_entries hs]

theorem lookupParamId_of_entry (h : Plain mods) (hi : (declared mods)[i]? = some r)
    (hs : (name, s) ∈ r.entries i) : (Decoder.build mods).lookupParamId name = i := by
  have hfind := (getElem?_paramMap h).mpr ⟨i, r, hi, hs⟩
  rw [Decoder.lookupParamId, hfind, ← id_of_mem_entries hs]

theorem lookupParamKey_of_not (h : Plain mods) (hname : ¬ Registered mods name) :
    (Decoder.build mods).lookupParamKey name = nullKey := by
  rw [Decoder.lookupParamKey]
  cases hfind : (Decoder.build mods).params.paramMap[name]? with
  | none => rfl
  | some s =>
    obtain ⟨i, r, hi, hs⟩ := (getElem?_paramMap h).mp hfind
    exact absurd ⟨r.mod, r.localName, under_iff.mpr ⟨i, r, hi, rfl, rfl, s, hs⟩⟩ hname

/-- **A key leads back to the name of the top-level parameter.** -/
theorem lookupKeyName_of_under (h : Plain mods) {mod p : String} (hu : Under mods mod p name) :
    (Decoder.build mods).lookupKeyName ((Decoder.build mods).lookupParamKey name) =
      .ok (dotted mod p) := by
  obtain ⟨i, r, hi, rfl, rfl, s, hs⟩ := under_iff.mp hu
  rw [lookupParamKey_of_entry h hi hs, Decoder.lookupKeyName]
  have hget := getElem?_params mods i
  rw [hi] at hget
  obtain ⟨hlt, hval⟩ := List.getElem?_eq_some_iff.mp hget
  rw [indexed_of_lt hlt, hval]
  rfl

theorem lookupKeyName_iff (h : Plain mods) (hname : Registered mods name) :
    (Decoder.build mods).lookupKeyName ((Decoder.build mods).lookupParamKey name) = .ok name ↔
      TopLevel mods name := by
  obtain ⟨mod, p, hu⟩ := hname
  rw [lookupKeyName_of_under h hu]
  constructor
  · intro heq
    exact ⟨mod, p, hu, (Except.ok.inj heq).symm⟩
  · rintro ⟨mod', p', hu', heq⟩
    obtain ⟨rfl, rfl⟩ := hu.unique h hu'
    rw [← heq]

theorem keys_differ_iff (h : Plain mods) (hname : Registered mods name)
    (hname' : Registered mods name') :
    ((Decoder.build mods).lookupParamKey name).same
        ((Decoder.build mods).lookupParamKey name') = false ↔
      ¬ SameParent mods name name' := by
  obtain ⟨mod, p, hu⟩ := hname
  obtain ⟨mod', p', hu'⟩ := hname'
  obtain ⟨i, r, hi, hrmod, hrp, s, hs⟩ := under_iff.mp hu
  obtain ⟨i', r', hi', hrmod', hrp', s', hs'⟩ := under_iff.mp hu'
  rw [lookupParamKey_of_entry h hi hs, lookupParamKey_of_entry h hi' hs', ParamKey.same,
    beq_eq_false_iff_ne, ne_eq, Int.natCast_inj, not_iff_not]
  constructor
  · rintro rfl
    obtain rfl := Option.some.inj (hi.symm.trans hi')
    subst hrmod hrp
    exact ⟨r.mod, r.localName, hu, under_iff.mpr ⟨i, r, hi, rfl, rfl, s', hs'⟩⟩
  · rintro ⟨mod₀, p₀, hu₀, hu₀'⟩
    obtain ⟨rfl, rfl⟩ := hu.unique h hu₀
    obtain ⟨rfl, rfl⟩ := hu'.unique h hu₀'
    exact declared_index hi hi' (hrmod.trans hrmod'.symm) (hrp.trans hrp'.symm)

/-- **The name of an id leads back to the id.** -/
theorem lookupParamId_lookupParamName (h : Plain mods) (hi : i < (Decoder.build mods).paramSize) :
    ∃ n, (Decoder.build mods).lookupParamName i = .ok n ∧
      (Decoder.build mods).lookupParamId n = i := by
  have hget := getElem?_params mods i
  rw [List.getElem?_eq_getElem hi] at hget
  obtain ⟨r, hr, hfin⟩ := Option.map_eq_some_iff.mp hget.symm
  refine ⟨r.name, ?_, lookupParamId_of_entry h hr (List.mem_map.mpr ⟨_, List.mem_cons_self, rfl⟩)⟩
  rw [Decoder.lookupParamName, if_neg (Int.not_lt.mpr (Int.natCast_nonneg i)), Int.toNat_natCast,
    List.getElem?_eq_getElem hi, ← hfin]
  rfl

end Params

/-! ## Events -/

section Events

variable {mods : ModMap δ ν} {e : Nat × String × String} {i : Nat} {name : String}

theorem lookupEventId_of_getElem? (h : ∀ name ∈ mods, DotFree name)
    (he : (declaredEvents mods)[i]? = some e) :
    (Decoder.build mods).lookupEventId (eventName e.2.1 e.2.2) = i := by
  have hfind := (getElem?_eventMap h).mpr ⟨i, e, he, rfl, rfl⟩
  change (Decoder.build mods).events.eventMap[eventName e.2.1 e.2.2]? = _ at hfind
  rw [Decoder.lookupEventId, hfind]
  rfl

theorem lookupEventName_of_getElem? (he : (declaredEvents mods)[i]? = some e) :
    (Decoder.build mods).lookupEventName i = .ok (eventName e.2.1 e.2.2) := by
  rw [Decoder.lookupEventName, if_neg (Int.not_lt.mpr (Int.natCast_nonneg i)), Int.toNat_natCast,
    getElem?_events, he]
  rfl

theorem registeredEvent_iff :
    RegisteredEvent mods name ↔ ∃ e ∈ declaredEvents mods, name = eventName e.2.1 e.2.2 := by
  have hempty : ∀ mod : String, eventName mod "" = mod := fun mod => rfl
  have hpos : ∀ (m : Module δ ν), ∀ ev ∈ m.eventMap, ∀ mod, eventName mod ev = dotted mod ev := by
    intro m ev hev mod
    refine if_pos (Nat.pos_of_ne_zero fun hlen => m.noEmpty ?_)
    rwa [String.length_eq_zero_iff.mp hlen] at hev
  constructor
  · rintro ⟨mod, m, hm, hname⟩
    obtain ⟨j, hj⟩ := getElem?_toList_of hm
    rcases hname with rfl | ⟨ev, hev, rfl⟩
    · exact ⟨(j, name, ""), mem_declaredEvents.mpr ⟨m, hj, .inl rfl⟩, rfl⟩
    · exact ⟨(j, mod, ev), mem_declaredEvents.mpr ⟨m, hj, .inr hev⟩, (hpos m ev hev mod).symm⟩
  · rintro ⟨⟨j, mod, ev⟩, he, rfl⟩
    obtain ⟨m, hm, rfl | hev⟩ := mem_declaredEvents.mp he
    · exact ⟨mod, m, getElem?_of_toList hm, .inl rfl⟩
    · exact ⟨mod, m, getElem?_of_toList hm, .inr ⟨ev, hev, hpos m ev hev mod⟩⟩

theorem lookupEventName_lookupEventId (h : ∀ name ∈ mods, DotFree name)
    (hname : RegisteredEvent mods name) :
    (Decoder.build mods).lookupEventName ((Decoder.build mods).lookupEventId name) = .ok name := by
  obtain ⟨e, he, rfl⟩ := registeredEvent_iff.mp hname
  obtain ⟨i, hi⟩ := List.getElem?_of_mem he
  rw [lookupEventId_of_getElem? h hi, lookupEventName_of_getElem? hi]

theorem lookupEventId_lookupEventName (h : ∀ name ∈ mods, DotFree name)
    (hi : i < (Decoder.build mods).eventSize) :
    ∃ n, (Decoder.build mods).lookupEventName i = .ok n ∧
      (Decoder.build mods).lookupEventId n = i := by
  have hget := getElem?_events mods i
  rw [List.getElem?_eq_getElem hi] at hget
  obtain ⟨e, he, -⟩ := Option.map_eq_some_iff.mp hget.symm
  exact ⟨_, lookupEventName_of_getElem? he, lookupEventId_of_getElem? h he⟩

theorem lookupEventId_of_not (h : ∀ name ∈ mods, DotFree name)
    (hname : ¬ RegisteredEvent mods name) :
    (Decoder.build mods).lookupEventId name = -2 := by
  rw [Decoder.lookupEventId]
  cases hfind : (Decoder.build mods).events.eventMap[name]? with
  | none => rfl
  | some s =>
    obtain ⟨i, e, he, rfl, rfl⟩ := (getElem?_eventMap h).mp hfind
    exact absurd (registeredEvent_iff.mpr ⟨e, List.mem_of_getElem? he, rfl⟩) hname

end Events

/-! ## Both ways -/

/-- **Names, ids and keys after `init`.** The name of a key is the one that the key was looked up
with exactly for the names of top-level parameters, and the keys of two names differ exactly when
the names are not of one parameter. Everything else is inverse for all names and ids. -/
theorem names_inverse_iff (mods : ModMap δ ν) (h : Plain mods) (config : Config) (d : Decoder δ ν)
    (hinit : (Decoder.init config mods).2 = .done d) :
    (∀ n, Registered mods n → (d.lookupKeyName (d.lookupParamKey n) = .ok n ↔ TopLevel mods n)) ∧
    (∀ n n', Registered mods n → Registered mods n' → n ≠ n' →
      ((d.lookupParamKey n).same (d.lookupParamKey n') = false ↔ ¬ SameParent mods n n')) ∧
    (∀ i : Nat, i < d.paramSize → ∃ n, d.lookupParamName i = .ok n ∧ d.lookupParamId n = i) ∧
    (∀ e, RegisteredEvent mods e → d.lookupEventName (d.lookupEventId e) = .ok e) ∧
    (∀ i : Nat, i < d.eventSize → ∃ e, d.lookupEventName i = .ok e ∧ d.lookupEventId e = i) ∧
    (∀ n, ¬ Registered mods n → d.lookupParamKey n = nullKey) ∧
    (∀ e, ¬ RegisteredEvent mods e → d.lookupEventId e = -2) := by
  obtain rfl := init_done hinit
  refine ⟨fun n hn => lookupKeyName_iff h hn, fun n n' hn hn' _ => keys_differ_iff h hn hn',
    fun i hi => lookupParamId_lookupParamName h hi,
    fun e he => lookupEventName_lookupEventId h.mod he,
    fun i hi => lookupEventId_lookupEventName h.mod hi, fun n hn => lookupParamKey_of_not h hn,
    fun e he => lookupEventId_of_not h.mod he⟩

/-- The module of the test `batch_param`: a major parameter with two minor ones. -/
def batchModule (one two : δ) (new : ν) : Module δ ν where
  paramMap := (∅ : TreeMap String (ParamDef δ ν)).insert "p"
    (.major new (((∅ : TreeMap String δ).insert "1" one).insert "2" two))

/-- The map with this module. -/
def batchModules (one two : δ) (new : ν) : ModMap δ ν :=
  (∅ : ModMap δ ν).insert "Ethernet" (batchModule one two new)

theorem batchModules_plain (one two : δ) (new : ν) : Plain (batchModules one two new) := by
  have hmods : (batchModules one two new).toList = [("Ethernet", batchModule one two new)] := rfl
  have hparams : (batchModule one two new).paramMap.toList.map Prod.fst = ["p"] := rfl
  refine plain_iff.mp fun m hm => ?_
  rw [hmods] at hm
  obtain rfl := List.mem_singleton.mp hm
  refine ⟨show DotFree "Ethernet" by decide, fun p hp => ?_⟩
  have hname : p.1 ∈ ["p"] := hparams ▸ List.mem_map.mpr ⟨p, hp, rfl⟩
  rw [List.mem_singleton.mp hname]
  decide

theorem batchModules_init : (Decoder.init {} (batchModules () () ())).2 =
    .done (Decoder.build (batchModules () () ())) :=
  init_of rfl rfl rfl

theorem batchModules_under (one two : δ) (new : ν) :
    Under (batchModules one two new) "Ethernet" "p" "Ethernet.p" ∧
      Under (batchModules one two new) "Ethernet" "p" "Ethernet.p.1" ∧
      Under (batchModules one two new) "Ethernet" "p" "Ethernet.p.2" := by
  have hminor : ∀ f, f = "1" ∨ f = "2" →
      Under (batchModules one two new) "Ethernet" "p" (dotted "Ethernet.p" f) := by
    intro f hf
    refine ⟨batchModule one two new, _, by simp [batchModules], by simp [batchModule]; rfl,
      .inr ⟨f, ?_, rfl⟩⟩
    rcases hf with rfl | rfl <;> simp [ParamDef.HasMinor]
  exact ⟨⟨batchModule one two new, _, by simp [batchModules], by simp [batchModule]; rfl, .inl rfl⟩,
    hminor "1" (.inl rfl), hminor "2" (.inr rfl)⟩

theorem names_inverse_batch :
    (Decoder.build (batchModules () () ())).lookupKeyName
      ((Decoder.build (batchModules () () ())).lookupParamKey "Ethernet.p") = .ok "Ethernet.p" :=
  ((names_inverse_iff (batchModules () () ()) (batchModules_plain () () ()) {} _
    batchModules_init).1 "Ethernet.p"
    ⟨_, _, (batchModules_under () () ()).1⟩).mpr ⟨_, _, (batchModules_under () () ()).1, rfl⟩

/-- The minor parameters have one key, and it has the name of neither. -/
theorem minor_keys_collide : ∃ d : Decoder Unit Unit,
    (Decoder.init {} (batchModules () () ())).2 = .done d ∧
    Plain (batchModules () () ()) ∧
    Registered (batchModules () () ()) "Ethernet.p.1" ∧
    Registered (batchModules () () ()) "Ethernet.p.2" ∧
    d.lookupKeyName (d.lookupParamKey "Ethernet.p.1") = .ok "Ethernet.p" ∧
    (d.lookupParamKey "Ethernet.p.1").same (d.lookupParamKey "Ethernet.p.2") = true :=
  ⟨_, batchModules_init, batchModules_plain () () (), ⟨_, _, (batchModules_under () () ()).2.1⟩,
    ⟨_, _, (batchModules_under () () ()).2.2⟩, rfl, rfl⟩

end PacketMachine.Setup
