import PacketMachine.Setup.Init

/-!
# What `Decoder::init` builds, and the look-ups of names and ids

`Decoder::init` numbers the parameters of all modules in one loop and files them, with their minor
parameters, under their names (`decoder.cc:70-87`); so it does with the events
(`decoder.cc:90-103`). Here these tables are given in closed form, and what the look-ups
(`decoder.cc:190-236`) find in them.

* `declared` and `declaredEvents` are what the modules define, in the order of the loops. The
  position of a definition is its id.
* A minor parameter has no id of its own: it keeps the one of its major parameter.

Results:
* `Decoder.build_params`, `Decoder.build_paramMap`, `Decoder.build_events`,
  `Decoder.build_eventMap`: the tables.
-/

namespace PacketMachine.Setup

open PacketMachine.Lib Std

variable {δ ν : Type}

/-! ## Parameters -/

/-- A parameter of a module. -/
structure Declared (δ ν : Type) where
  moduleId : Nat
  mod : String
  localName : String
  definition : ParamDef δ ν

/-- The parameters of all modules. -/
def declared (mods : ModMap δ ν) : List (Declared δ ν) :=
  (numbered mods).flatMap fun m => m.2.2.paramMap.toList.map fun p => ⟨m.1, m.2.1, p.1, p.2⟩

/-- `ParamDef::name`. -/
def Declared.name (r : Declared δ ν) : String := dotted r.mod r.localName

/-- The definition behind `finalize`. -/
def Declared.finalize (r : Declared δ ν) (pid : Nat) : Def δ ν :=
  r.definition.finalize r.moduleId pid r.mod r.localName

/-- The minor definitions. -/
def Declared.subDefs (r : Declared δ ν) (pid : Nat) : List (Def δ ν) :=
  r.definition.subDefs r.moduleId pid r.name

/-- What `param_map_` has for a parameter. -/
def Declared.entries (r : Declared δ ν) (pid : Nat) : List (String × Def δ ν) :=
  (r.finalize pid :: r.subDefs pid).map fun s => (s.name, s)

/-- The loop over the parameters, for one of them. -/
def ParamTable.push (t : ParamTable δ ν) (r : Declared δ ν) : ParamTable δ ν :=
  t.add r.moduleId r.mod (r.localName, r.definition)

/-- No module and no parameter of a module has a dot in its name. -/
structure Plain (mods : ModMap δ ν) : Prop where
  mod : ∀ name ∈ mods, DotFree name
  param : ∀ (name : String) (mod : Module δ ν), mods[name]? = some mod →
    ∀ p ∈ mod.paramMap, DotFree p

section Params

variable {mods : ModMap δ ν} {r r' : Declared δ ν} {pid : Nat}

theorem mem_numbered {i : Nat} {name : String} {mod : Module δ ν} :
    (i, name, mod) ∈ numbered mods ↔ mods.toList[i]? = some (name, mod) := by
  unfold numbered
  rw [List.mem_mapIdx]
  constructor
  · rintro ⟨j, hj, heq⟩
    obtain ⟨rfl, hm⟩ := Prod.mk.inj heq
    rw [List.getElem?_eq_getElem hj, hm]
  · intro h
    obtain ⟨hi, hm⟩ := List.getElem?_eq_some_iff.mp h
    exact ⟨i, hi, by rw [hm]⟩

/-- No two modules have the same name. -/
theorem numbered_pairwise (mods : ModMap δ ν) :
    (numbered mods).Pairwise fun m m' => m.2.1 ≠ m'.2.1 := by
  have hmap : (numbered mods).map Prod.snd = mods.toList := by
    refine List.ext_getElem? fun i => ?_
    simp [numbered, Function.comp_def]
  have hkeys := nodup_keys_toList mods
  rw [← hmap, List.map_map] at hkeys
  exact List.pairwise_map.mp hkeys

theorem getElem?_of_toList {i : Nat} {name : String} {mod : Module δ ν}
    (h : mods.toList[i]? = some (name, mod)) : mods[name]? = some mod :=
  TreeMap.mem_toList_iff_getElem?_eq_some.mp (List.mem_of_getElem? h)

theorem mem_of_toList {i : Nat} {name : String} {mod : Module δ ν}
    (h : mods.toList[i]? = some (name, mod)) : name ∈ mods :=
  mem_iff_toList.mpr ⟨mod, List.mem_of_getElem? h⟩

theorem mem_declared : r ∈ declared mods ↔
    ∃ mod, mods.toList[r.moduleId]? = some (r.mod, mod) ∧
      mod.paramMap[r.localName]? = some r.definition := by
  unfold declared
  simp only [List.mem_flatMap, List.mem_map]
  constructor
  · rintro ⟨⟨i, name, mod⟩, hm, ⟨p, d⟩, hp, rfl⟩
    exact ⟨mod, mem_numbered.mp hm, TreeMap.mem_toList_iff_getElem?_eq_some.mp hp⟩
  · rintro ⟨mod, hm, hp⟩
    exact ⟨_, mem_numbered.mpr hm, _, TreeMap.mem_toList_iff_getElem?_eq_some.mpr hp, rfl⟩

theorem mem_subDefs {s : Def δ ν} : s ∈ r.subDefs pid ↔
    ∃ new defMap i f defer, r.definition = .major new defMap ∧ defMap.toList[i]? = some (f, defer) ∧
      s = ⟨r.moduleId, pid, dotted r.name f, .minor i defer new defMap.size⟩ := by
  unfold Declared.subDefs ParamDef.subDefs
  cases r.definition with
  | param new => simp
  | major new defMap =>
    rw [List.mem_mapIdx]
    constructor
    · rintro ⟨i, hi, rfl⟩
      exact ⟨new, defMap, i, _, _, rfl, List.getElem?_eq_getElem hi, rfl⟩
    · rintro ⟨_, _, i, f, defer, heq, hi, rfl⟩
      obtain ⟨rfl, rfl⟩ := ParamDef.major.inj heq
      obtain ⟨hlt, hget⟩ := List.getElem?_eq_some_iff.mp hi
      exact ⟨i, hlt, by rw [hget]⟩

/-- The names of the minor definitions, which have the order of the local names. -/
theorem subDefs_names (mid pid : Nat) (name : String) (new : ν) (defMap : TreeMap String δ) :
    ((ParamDef.major new defMap).subDefs mid pid name).map Def.name =
      (defMap.toList.map Prod.fst).map (dotted name) := by
  refine List.ext_getElem? fun i => ?_
  simp only [ParamDef.subDefs, List.getElem?_map, List.getElem?_mapIdx, Option.map_map]
  rfl

theorem subDefs_nodup (d : ParamDef δ ν) (mid pid : Nat) (name : String) :
    ((d.subDefs mid pid name).map Def.name).Nodup := by
  cases d with
  | param new => exact List.nodup_nil
  | major new defMap =>
    rw [subDefs_names]
    exact (nodup_keys_toList defMap).map fun _ _ => dotted_right_inj.mp

/-- The name of an entry is the one of the parameter, or one below it. -/
theorem mem_entries {k : String} {s : Def δ ν} (h : (k, s) ∈ r.entries pid) :
    k = s.name ∧ (s = r.finalize pid ∨ s ∈ r.subDefs pid) := by
  obtain ⟨s', hs', heq⟩ := List.mem_map.mp h
  obtain ⟨rfl, rfl⟩ := Prod.mk.inj heq
  exact ⟨rfl, List.mem_cons.mp hs'⟩

theorem name_of_mem_subDefs {s : Def δ ν} (h : s ∈ r.subDefs pid) :
    ∃ f, s.name = dotted r.name f := by
  obtain ⟨_, _, _, f, _, -, -, rfl⟩ := mem_subDefs.mp h
  exact ⟨f, rfl⟩

theorem entries_nodup (r : Declared δ ν) (pid : Nat) : ((r.entries pid).map Prod.fst).Nodup := by
  rw [Declared.entries, List.map_map, List.map_cons, List.nodup_cons]
  refine ⟨fun hmem => ?_, subDefs_nodup _ _ _ _⟩
  obtain ⟨s, hs, heq⟩ := List.mem_map.mp hmem
  obtain ⟨f, hf⟩ := name_of_mem_subDefs hs
  exact dotted_ne_self r.name f (hf.symm.trans heq)

/-- **A name leads to its module and its parameter**, when these have no dots. -/
theorem parts_entry (hmod : DotFree r.mod) (hparam : DotFree r.localName) {k : String} {s : Def δ ν}
    (h : (k, s) ∈ r.entries pid) : (parts k).take 2 = [r.mod.toList, r.localName.toList] := by
  obtain ⟨rfl, rfl | hs⟩ := mem_entries h
  · change (parts (dotted r.mod r.localName)).take 2 = _
    rw [parts_dotted hmod, parts_dotFree hparam]
    rfl
  · obtain ⟨f, hf⟩ := name_of_mem_subDefs hs
    rw [hf, Declared.name, dotted_assoc, parts_dotted hmod, parts_dotted hparam]
    rfl

/-- Two parameters share no name. -/
theorem entries_disjoint {pid' : Nat} (hmod : DotFree r.mod) (hparam : DotFree r.localName)
    (hmod' : DotFree r'.mod) (hparam' : DotFree r'.localName)
    (hne : ¬ (r.mod = r'.mod ∧ r.localName = r'.localName)) :
    ∀ e ∈ r.entries pid, ∀ e' ∈ r'.entries pid', e.1 ≠ e'.1 := by
  rintro ⟨k, s⟩ he ⟨k', s'⟩ he' rfl
  have hparts := (parts_entry hmod hparam he).symm.trans (parts_entry hmod' hparam' he')
  simp only [List.cons.injEq, String.toList_inj, and_true] at hparts
  exact hne hparts

/-- No parameter is declared twice. -/
theorem declared_pairwise (mods : ModMap δ ν) :
    (declared mods).Pairwise fun r r' => ¬ (r.mod = r'.mod ∧ r.localName = r'.localName) := by
  unfold declared
  rw [List.pairwise_flatMap]
  constructor
  · rintro ⟨i, name, mod⟩ -
    refine List.pairwise_map.mpr ?_
    have hkeys := nodup_keys_toList mod.paramMap
    exact (List.pairwise_map.mp hkeys).imp fun hne heq => hne heq.2
  · refine (numbered_pairwise mods).imp fun hne r hr r' hr' heq => ?_
    obtain ⟨p, -, rfl⟩ := List.mem_map.mp hr
    obtain ⟨p', -, rfl⟩ := List.mem_map.mp hr'
    exact hne heq.1

/-- The names are checked one by one. -/
theorem plain_iff :
    (∀ m ∈ mods.toList, DotFree m.1 ∧ ∀ p ∈ m.2.paramMap.toList, DotFree p.1) ↔ Plain mods := by
  constructor
  · intro h
    refine ⟨fun name hname => ?_, fun name mod hmod p hp => ?_⟩
    · obtain ⟨mod, hmod⟩ := mem_iff_toList.mp hname
      exact (h _ hmod).1
    · obtain ⟨d, hd⟩ := mem_iff_toList.mp hp
      exact (h _ (TreeMap.mem_toList_iff_getElem?_eq_some.mpr hmod)).2 _ hd
  · rintro h ⟨name, mod⟩ hmod
    refine ⟨h.mod name (mem_iff_toList.mpr ⟨mod, hmod⟩), fun p hp => ?_⟩
    exact h.param name mod (TreeMap.mem_toList_iff_getElem?_eq_some.mp hmod) _
      (mem_iff_toList.mpr ⟨p.2, hp⟩)

instance (mods : ModMap δ ν) : Decidable (Plain mods) := decidable_of_iff _ plain_iff

theorem declared_index {i i' : Nat} (hi : (declared mods)[i]? = some r)
    (hi' : (declared mods)[i']? = some r')
    (hmod : r.mod = r'.mod) (hname : r.localName = r'.localName) : i = i' := by
  have hpair := List.pairwise_iff_getElem.mp (declared_pairwise mods)
  obtain ⟨hlt, rfl⟩ := List.getElem?_eq_some_iff.mp hi
  obtain ⟨hlt', rfl⟩ := List.getElem?_eq_some_iff.mp hi'
  rcases Nat.lt_trichotomy i i' with h | h | h
  · exact absurd ⟨hmod, hname⟩ (hpair i i' hlt hlt' h)
  · exact h
  · exact absurd ⟨hmod.symm, hname.symm⟩ (hpair i' i hlt' hlt h)

theorem Plain.of_mem (h : Plain mods) (hr : r ∈ declared mods) :
    DotFree r.mod ∧ DotFree r.localName := by
  obtain ⟨mod, hm, hp⟩ := mem_declared.mp hr
  exact ⟨h.mod _ (mem_of_toList hm), h.param _ _ (getElem?_of_toList hm) _
    (mem_iff_toList.mpr ⟨_, TreeMap.mem_toList_iff_getElem?_eq_some.mpr hp⟩)⟩

/-! ### The tables -/

theorem build_params_eq (mods : ModMap δ ν) :
    (Decoder.build mods).params = (declared mods).foldl ParamTable.push {} := by
  have hfold : ∀ (l : List (Nat × String × Module δ ν)) (d : Decoder δ ν),
      (l.foldl Decoder.addDefs d).params = (l.flatMap fun m => m.2.2.paramMap.toList.map fun p =>
        (⟨m.1, m.2.1, p.1, p.2⟩ : Declared δ ν)).foldl ParamTable.push d.params := by
    intro l d
    rw [List.foldl_flatMap]
    simp only [List.foldl_map]
    exact (List.foldl_hom Decoder.params fun _ _ => rfl).symm
  exact hfold _ _

/-- `params_`: each parameter has its position as its id. -/
theorem build_params (mods : ModMap δ ν) :
    (Decoder.build mods).params.params = (declared mods).zipIdx.map fun e => e.1.finalize e.2 := by
  rw [build_params_eq, foldl_number ParamTable.push (fun t => t.params.length) ParamTable.params
    (fun acc e => acc ++ [e.1.finalize e.2]) (fun t r => List.length_append) fun _ _ => rfl]
  rw [List.foldl_append_eq_append, List.nil_append, ← List.flatMap_def, List.map_eq_flatMap]
  rfl

/-- `param_map_` has the entries of each parameter, and no others. -/
theorem build_paramMap (h : Plain mods) : Lists (Decoder.build mods).params.paramMap
    ((declared mods).zipIdx.flatMap fun e => e.1.entries e.2) := by
  rw [build_params_eq, foldl_number ParamTable.push (fun t => t.params.length) ParamTable.paramMap
    (fun m e => insertAll (m.insertIfNew e.1.name (e.1.finalize e.2))
      (e.1.definition.copySubDef e.1.moduleId e.2 e.1.name).toList)
    (fun t r => List.length_append) fun _ _ => rfl]
  refine lists_foldl (fun m l e hm hnew => ?_) ?_
  · obtain ⟨r, pid⟩ := e
    have hnodup := entries_nodup r pid
    rw [Declared.entries, List.map_cons] at hnodup hnew
    have hone : ([(r.name, r.finalize pid)].map Prod.fst).Nodup := List.nodup_singleton _
    have hparam : Lists (m.insertIfNew r.name (r.finalize pid)) (l ++ [(r.name, r.finalize pid)]) :=
      hm.insertAll hone fun e he e' he' =>
        hnew e he e' (List.mem_cons.mpr (.inl (List.mem_singleton.mp he')))
    have hsub : Lists (r.definition.copySubDef r.moduleId pid r.name)
        ((r.subDefs pid).map fun s => (s.name, s)) := by
      refine lists_insertAll ?_
      rw [List.map_map]
      exact subDefs_nodup _ _ _ _
    rw [Declared.entries, List.map_cons, ← List.singleton_append, ← List.append_assoc]
    refine hparam.copy hsub fun e he e' he' => ?_
    rcases List.mem_append.mp he with he | he
    · exact hnew e he e' (List.mem_cons_of_mem _ he')
    · rw [List.map_cons, List.nodup_cons] at hnodup
      rw [List.mem_singleton.mp he]
      exact fun heq => hnodup.1 (List.mem_map.mpr ⟨e', he', heq.symm⟩)
  · refine (pairwise_zipIdx (declared_pairwise mods)).imp_of_mem fun {e e'} he he' hne => ?_
    obtain ⟨hmod, hparam⟩ := h.of_mem (List.fst_mem_of_mem_zipIdx he)
    obtain ⟨hmod', hparam'⟩ := h.of_mem (List.fst_mem_of_mem_zipIdx he')
    exact entries_disjoint hmod hparam hmod' hparam' hne

theorem getElem?_params (mods : ModMap δ ν) (i : Nat) :
    (Decoder.build mods).params.params[i]? = ((declared mods)[i]?).map fun r => r.finalize i := by
  rw [build_params, List.getElem?_map, List.getElem?_zipIdx]
  cases (declared mods)[i]? <;> simp

/-- The entries are all there is in `param_map_`, also where names collide. -/
theorem of_getElem?_paramMap {k : String} {s : Def δ ν}
    (h : (Decoder.build mods).params.paramMap[k]? = some s) :
    ∃ (i : Nat) (r : Declared δ ν), (declared mods)[i]? = some r ∧ (k, s) ∈ r.entries i := by
  rw [build_params_eq, foldl_number ParamTable.push (fun t => t.params.length) ParamTable.paramMap
    (fun m e => insertAll (m.insertIfNew e.1.name (e.1.finalize e.2))
      (e.1.definition.copySubDef e.1.moduleId e.2 e.1.name).toList)
    (fun t r => List.length_append) fun _ _ => rfl] at h
  have hstep : ∀ (m : TreeMap String (Def δ ν)) (e : Declared δ ν × Nat),
      (insertAll (m.insertIfNew e.1.name (e.1.finalize e.2))
        (e.1.definition.copySubDef e.1.moduleId e.2 e.1.name).toList)[k]? = some s →
      m[k]? = some s ∨ (k, s) ∈ e.1.entries e.2 := by
    intro m e hfind
    rcases of_getElem?_insertAll hfind with hfind | hsub
    · rcases of_getElem?_insertAll (l := [(e.1.name, e.1.finalize e.2)]) hfind with hm | hone
      · exact .inl hm
      · exact .inr (List.mem_cons.mpr (.inl (List.mem_singleton.mp hone)))
    · rcases of_getElem?_insertAll (TreeMap.mem_toList_iff_getElem?_eq_some.mp hsub)
        with hempty | hmem
      · simp at hempty
      · exact .inr (List.mem_cons_of_mem _ hmem)
  obtain ⟨⟨r, i⟩, he, hs⟩ := of_getElem?_foldl hstep h
  exact ⟨i, r, List.mk_mem_zipIdx_iff_getElem?.mp he, hs⟩

theorem getElem?_paramMap (h : Plain mods) {k : String} {s : Def δ ν} :
    (Decoder.build mods).params.paramMap[k]? = some s ↔
      ∃ (i : Nat) (r : Declared δ ν), (declared mods)[i]? = some r ∧ (k, s) ∈ r.entries i := by
  rw [build_paramMap h k s, List.mem_flatMap]
  constructor
  · rintro ⟨⟨r, i⟩, he, hs⟩
    exact ⟨i, r, List.mk_mem_zipIdx_iff_getElem?.mp he, hs⟩
  · rintro ⟨i, r, he, hs⟩
    exact ⟨(r, i), List.mk_mem_zipIdx_iff_getElem?.mpr he, hs⟩

end Params

/-! ## Events -/

/-- The events of all modules: the id and the name of the module, and the local name. -/
def declaredEvents (mods : ModMap δ ν) : List (Nat × String × String) :=
  (numbered mods).flatMap fun m =>
    (m.2.2.eventMap.insertIfNew "" ()).toList.map fun ev => (m.1, m.2.1, ev.1)

/-- The name of an event. -/
def eventName (mod ev : String) : String := if ev.length > 0 then dotted mod ev else mod

section Events

variable {mods : ModMap δ ν} {a a' b b' : String}

theorem mem_declaredEvents {e : Nat × String × String} : e ∈ declaredEvents mods ↔
    ∃ mod, mods.toList[e.1]? = some (e.2.1, mod) ∧ (e.2.2 = "" ∨ e.2.2 ∈ mod.eventMap) := by
  obtain ⟨i, name, ev⟩ := e
  unfold declaredEvents
  simp only [List.mem_flatMap, List.mem_map]
  have hkeys : ∀ mod : Module δ ν, (∃ e ∈ (mod.eventMap.insertIfNew "" ()).toList, e.1 = ev) ↔
      ev = "" ∨ ev ∈ mod.eventMap := by
    intro mod
    rw [← List.mem_map, TreeMap.map_fst_toList_eq_keys, TreeMap.mem_keys, TreeMap.mem_insertIfNew,
      LawfulEqCmp.compare_eq_iff_eq, eq_comm]
  constructor
  · rintro ⟨⟨j, name', mod⟩, hm, e, he, heq⟩
    simp only [Prod.mk.injEq] at heq
    obtain ⟨rfl, rfl, rfl⟩ := heq
    exact ⟨mod, mem_numbered.mp hm, (hkeys mod).mp ⟨e, he, rfl⟩⟩
  · rintro ⟨mod, hm, hev⟩
    obtain ⟨e, he, rfl⟩ := (hkeys mod).mpr hev
    exact ⟨_, mem_numbered.mpr hm, e, he, rfl⟩

theorem eventName_inj (ha : DotFree a) (ha' : DotFree a') :
    eventName a b = eventName a' b' ↔ a = a' ∧ b = b' := by
  have hempty : ∀ s : String, ¬ s.length > 0 ↔ s = "" := by
    intro s
    rw [Nat.not_lt, Nat.le_zero, String.length_eq_zero_iff]
  unfold eventName
  by_cases hb : b.length > 0
  · by_cases hb' : b'.length > 0
    · rw [if_pos hb, if_pos hb', dotted_inj ha ha']
    · rw [if_pos hb, if_neg hb']
      refine iff_of_false (dotted_ne ha ha') fun h => hb' (h.2 ▸ hb)
  · by_cases hb' : b'.length > 0
    · rw [if_neg hb, if_pos hb']
      refine iff_of_false (fun h => dotted_ne ha' ha h.symm) fun h => hb (h.2 ▸ hb')
    · rw [if_neg hb, if_neg hb', (hempty b).mp hb, (hempty b').mp hb', and_iff_left rfl]

/-- The definition of an event. -/
def eventDef (e : (Nat × String × String) × Nat) : EventDef :=
  ⟨e.1.1, e.2, eventName e.1.2.1 e.1.2.2⟩

/-- No event is declared twice. -/
theorem declaredEvents_pairwise (mods : ModMap δ ν) :
    (declaredEvents mods).Pairwise fun e e' => e.2 ≠ e'.2 := by
  unfold declaredEvents
  rw [List.pairwise_flatMap]
  constructor
  · rintro ⟨i, name, mod⟩ -
    refine List.pairwise_map.mpr ?_
    have hkeys := nodup_keys_toList (mod.eventMap.insertIfNew "" ())
    exact (List.pairwise_map.mp hkeys).imp fun hne heq => hne (Prod.mk.inj heq).2
  · refine (numbered_pairwise mods).imp fun hne e he e' he' heq => ?_
    obtain ⟨ev, -, rfl⟩ := List.mem_map.mp he
    obtain ⟨ev', -, rfl⟩ := List.mem_map.mp he'
    exact hne (Prod.mk.inj heq).1

theorem build_events_eq (mods : ModMap δ ν) : (Decoder.build mods).events =
    (declaredEvents mods).foldl (fun t e => t.add e.1 e.2.1 e.2.2) {} := by
  have hfold : ∀ (l : List (Nat × String × Module δ ν)) (d : Decoder δ ν),
      (l.foldl Decoder.addDefs d).events = (l.flatMap fun m =>
        (m.2.2.eventMap.insertIfNew "" ()).toList.map fun ev => (m.1, m.2.1, ev.1)).foldl
          (fun t e => t.add e.1 e.2.1 e.2.2) d.events := by
    intro l d
    rw [List.foldl_flatMap]
    simp only [List.foldl_map]
    exact (List.foldl_hom Decoder.events fun _ _ => rfl).symm
  exact hfold _ _

/-- `events_`: each event has its position as its id. -/
theorem build_events (mods : ModMap δ ν) :
    (Decoder.build mods).events.events = (declaredEvents mods).zipIdx.map eventDef := by
  rw [build_events_eq, foldl_number (fun t e => t.add e.1 e.2.1 e.2.2) (fun t => t.events.length)
    EventTable.events (fun acc e => acc ++ [eventDef e]) (fun t r => List.length_append)
    fun _ _ => rfl]
  rw [List.foldl_append_eq_append, List.nil_append, ← List.flatMap_def, List.map_eq_flatMap]
  rfl

/-- `event_map_` has each event under its name. -/
theorem build_eventMap (h : ∀ name ∈ mods, DotFree name) :
    Lists (Decoder.build mods).events.eventMap
      ((declaredEvents mods).zipIdx.flatMap fun e => [((eventDef e).name, eventDef e)]) := by
  rw [build_events_eq, foldl_number (fun t e => t.add e.1 e.2.1 e.2.2) (fun t => t.events.length)
    EventTable.eventMap (fun m e => m.insertIfNew (eventDef e).name (eventDef e))
    (fun t r => List.length_append) fun _ _ => rfl]
  refine lists_foldl (fun m l e hm hnew => ?_) ?_
  · have hone : ([((eventDef e).name, eventDef e)].map Prod.fst).Nodup := List.nodup_singleton _
    exact hm.insertAll hone hnew
  · refine (pairwise_zipIdx (declaredEvents_pairwise mods)).imp_of_mem fun {e e'} he he' hne => ?_
    obtain ⟨mod, hm, -⟩ := mem_declaredEvents.mp (List.fst_mem_of_mem_zipIdx he)
    obtain ⟨mod', hm', -⟩ := mem_declaredEvents.mp (List.fst_mem_of_mem_zipIdx he')
    simp only [List.mem_singleton, forall_eq]
    intro heq
    have hinj := (eventName_inj (h _ (mem_of_toList hm)) (h _ (mem_of_toList hm'))).mp heq
    exact hne (Prod.ext hinj.1 hinj.2)

theorem getElem?_events (mods : ModMap δ ν) (i : Nat) :
    (Decoder.build mods).events.events[i]? =
      ((declaredEvents mods)[i]?).map fun e => eventDef (e, i) := by
  rw [build_events, List.getElem?_map, List.getElem?_zipIdx]
  cases (declaredEvents mods)[i]? <;> simp

theorem getElem?_eventMap (h : ∀ name ∈ mods, DotFree name) {k : String} {s : EventDef} :
    (Decoder.build mods).events.eventMap[k]? = some s ↔
      ∃ (i : Nat) (e : Nat × String × String), (declaredEvents mods)[i]? = some e ∧
        s = eventDef (e, i) ∧ k = s.name := by
  rw [build_eventMap h k s, List.mem_flatMap]
  constructor
  · rintro ⟨⟨e, i⟩, he, hs⟩
    obtain ⟨rfl, rfl⟩ := Prod.mk.inj (List.mem_singleton.mp hs)
    exact ⟨i, e, List.mk_mem_zipIdx_iff_getElem?.mp he, rfl, rfl⟩
  · rintro ⟨i, e, he, rfl, rfl⟩
    exact ⟨(e, i), List.mk_mem_zipIdx_iff_getElem?.mpr he, List.mem_singleton_self _⟩

end Events

/-! ## `init` -/

section Init

variable {mods : ModMap δ ν} {config : Config}

/-- `init` ends with what it built. -/
theorem init_done {d : Decoder δ ν} (h : (Decoder.init config mods).2 = .done d) :
    d = Decoder.build mods := by
  unfold Decoder.init at h
  cases hkeys : (Decoder.build mods).checkKeys config with
  | some e => simp [hkeys] at h
  | none =>
    cases hset : (setupAll config (Decoder.build mods).modules).2 with
    | some e => simp [hkeys, hset] at h
    | none =>
      simp only [hkeys, hset] at h
      split at h
      · exact (InitEnd.done.inj h).symm
      · cases h

/-- When every key is known, no `setup` throws and there is a module `Ethernet`, it does. -/
theorem init_of (hkeys : (Decoder.build mods).checkKeys config = none)
    (hset : (setupAll config (Decoder.build mods).modules).2 = none)
    (heth : (Decoder.build mods).modEthernet.isSome = true) :
    (Decoder.init config mods).2 = .done (Decoder.build mods) := by
  unfold Decoder.init
  simp only [hkeys, hset, heth, if_true]

end Init

end PacketMachine.Setup
