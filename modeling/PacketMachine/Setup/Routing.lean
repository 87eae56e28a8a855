import PacketMachine.Setup.Build

/-!
# The configuration is checked and goes to its owner

What `Decoder::init` does with its `Config` (`decoder.cc:104-141`), for any modules: first every key
is looked up in `config_map_`, then the modules are set up in the order of their names.

* `setup` of a module may throw, as `as_int` and its like do for a value of another type; the
  exception leaves `init`, and the modules behind are not set up.

Results:
* `checkKeys_eq_none_iff`: the keys that are accepted.
* `setupAll_of_returns`, `setupAll_of_throws`: which calls of `setup` are made.
* `getElem?_localConfig`: what a module sees. `localConfig_of_other`: it does not see the settings
  of another module.
* **`init_routes`**: all of this for `init`.
-/

namespace PacketMachine.Setup

open PacketMachine.Lib Std

variable {δ ν : Type}

/-- The key is `M.k` for a module `M` that declares a configuration `k`. -/
def Declares (mods : ModMap δ ν) (key : String) : Prop :=
  ∃ (name : String) (mod : Module δ ν), mods[name]? = some mod ∧
    ∃ k ∈ mod.configMap, key = dotted name k

/-! ## The check -/

section Check

variable {mods : ModMap δ ν} {config : Config} {key : String}

theorem mem_configMap : key ∈ (Decoder.build mods).configMap ↔ Declares mods key := by
  have hfold : ∀ (l : List (Nat × String × Module δ ν)) (d : Decoder δ ν),
      key ∈ (l.foldl Decoder.addDefs d).configMap ↔
        key ∈ d.configMap ∨ ∃ m ∈ l, ∃ k ∈ m.2.2.configMap, key = dotted m.2.1 k := by
    intro l
    induction l with
    | nil => simp
    | cons m l ih =>
      intro d
      obtain ⟨i, name, mod⟩ := m
      have hadd : key ∈ (d.addDefs (i, name, mod)).configMap ↔
          key ∈ d.configMap ∨ ∃ k ∈ mod.configMap, key = dotted name k := by
        change key ∈ insertAll _ _ ↔ _
        rw [mem_insertAll, List.map_map]
        refine or_congr_right ⟨fun h => ?_, fun h => ?_⟩
        · obtain ⟨c, hc, rfl⟩ := List.mem_map.mp h
          exact ⟨c.1, mem_iff_toList.mpr ⟨c.2, hc⟩, rfl⟩
        · obtain ⟨k, hk, rfl⟩ := h
          obtain ⟨c, hc⟩ := mem_iff_toList.mp hk
          exact List.mem_map.mpr ⟨_, hc, rfl⟩
      rw [List.foldl_cons, ih, hadd]
      simp only [List.mem_cons, exists_eq_or_imp, or_assoc]
  rw [Decoder.build, hfold]
  constructor
  · rintro (h | ⟨⟨i, name, mod⟩, hm, k, hk, rfl⟩)
    · cases h
    · exact ⟨name, mod, getElem?_of_toList (mem_numbered.mp hm), k, hk, rfl⟩
  · rintro ⟨name, mod, hm, k, hk, rfl⟩
    obtain ⟨i, hi⟩ := List.getElem?_of_mem (TreeMap.mem_toList_iff_getElem?_eq_some.mpr hm)
    exact .inr ⟨_, mem_numbered.mpr hi, k, hk, rfl⟩

theorem checkKeys_eq_none_iff :
    (Decoder.build mods).checkKeys config = none ↔ ∀ key ∈ config.kvMap, Declares mods key := by
  unfold Decoder.checkKeys
  rw [Option.map_eq_none_iff, List.find?_eq_none]
  simp only [decide_not, Bool.not_eq_true', decide_eq_false_iff_not, not_not]
  constructor
  · intro h key hkey
    obtain ⟨v, hv⟩ := mem_iff_toList.mp hkey
    exact mem_configMap.mp (TreeMap.contains_iff_mem.mp (h _ hv))
  · rintro h ⟨key, v⟩ hv
    exact TreeMap.contains_iff_mem.mpr (mem_configMap.mpr (h _ (mem_iff_toList.mpr ⟨v, hv⟩)))

/-- When a key is not known, the exception names one, and no `setup` is called. -/
theorem init_rejects (hbad : ¬ ∀ key ∈ config.kvMap, Declares mods key) :
    ∃ key ∈ config.kvMap, ¬ Declares mods key ∧ Decoder.init config mods =
      ([], .threw ⟨.configError, "'" ++ key ++ "' is not valid config key"⟩) := by
  have hsome := mt checkKeys_eq_none_iff.mp hbad
  obtain ⟨e, he⟩ := Option.ne_none_iff_exists'.mp hsome
  have hinit : Decoder.init config mods = ([], .threw e) := by simp [Decoder.init, he]
  obtain ⟨conf, hconf, rfl⟩ := Option.map_eq_some_iff.mp he
  refine ⟨conf.1, mem_iff_toList.mpr ⟨conf.2, List.mem_of_find?_eq_some hconf⟩,
    fun hdecl => ?_, hinit⟩
  have hnot := List.find?_some hconf
  rw [TreeMap.contains_iff_mem.mpr (mem_configMap.mpr hdecl)] at hnot
  simp at hnot

end Check

/-! ## The calls of `setup` -/

/-- The call of `setup` for a module. -/
def setupCall (config : Config) (m : String × Module δ ν) : String × Config :=
  (m.1, localConfig config m.1 m.2)

/-- `setup` of the module returns. -/
def SetupReturns (config : Config) (m : String × Module δ ν) : Prop :=
  m.2.setup (localConfig config m.1 m.2) = none

section Calls

variable {config : Config} {mods : ModMap δ ν} {ms ms' : List (String × Module δ ν)}
  {m : String × Module δ ν} {e : Exception}

theorem setupAll_of_returns (h : ∀ m ∈ ms, SetupReturns config m) :
    setupAll config ms = (ms.map (setupCall config), none) := by
  induction ms with
  | nil => rfl
  | cons m ms ih =>
    rw [List.forall_mem_cons] at h
    have hm : m.2.setup (localConfig config m.1 m.2) = none := h.1
    simp only [setupAll, hm, ih h.2]
    rfl

theorem setupAll_of_throws (h : ∀ m ∈ ms, SetupReturns config m)
    (hm : m.2.setup (localConfig config m.1 m.2) = some e) :
    setupAll config (ms ++ m :: ms') = ((ms ++ [m]).map (setupCall config), some e) := by
  induction ms with
  | nil =>
    simp only [List.nil_append, setupAll, hm]
    rfl
  | cons m' ms ih =>
    rw [List.forall_mem_cons] at h
    have hm' : m'.2.setup (localConfig config m'.1 m'.2) = none := h.1
    simp only [List.cons_append, setupAll, hm', ih h.2]
    rfl

/-- An exception comes out of a call. -/
theorem setupAll_of_eq_nil (h : (setupAll config ms).1 = []) : (setupAll config ms).2 = none := by
  cases ms with
  | nil => rfl
  | cons m ms =>
    cases hm : m.2.setup (localConfig config m.1 m.2) with
    | none => simp [setupAll, hm] at h
    | some e => simp [setupAll, hm] at h

theorem build_modules (mods : ModMap δ ν) : (Decoder.build mods).modules = mods.toList := by
  have hfold : ∀ (l : List (Nat × String × Module δ ν)) (d : Decoder δ ν),
      (l.foldl Decoder.addDefs d).modules = d.modules := by
    intro l
    induction l with
    | nil => exact fun d => rfl
    | cons m l ih => exact fun d => ih _
  exact hfold _ _

theorem init_of_returns (hkeys : ∀ key ∈ config.kvMap, Declares mods key)
    (h : ∀ m ∈ mods.toList, SetupReturns config m) :
    (Decoder.init config mods).1 = mods.toList.map (setupCall config) ∧
      ∀ e, (Decoder.init config mods).2 ≠ .threw e := by
  have hall := setupAll_of_returns h
  simp only [Decoder.init, checkKeys_eq_none_iff.mpr hkeys, build_modules, hall]
  split <;> simp

theorem init_of_throws (hkeys : ∀ key ∈ config.kvMap, Declares mods key)
    (hmods : mods.toList = ms ++ m :: ms')
    (h : ∀ m ∈ ms, SetupReturns config m) (hm : m.2.setup (localConfig config m.1 m.2) = some e) :
    Decoder.init config mods = ((ms ++ [m]).map (setupCall config), .threw e) := by
  have hall : setupAll config (ms ++ m :: ms') = _ := setupAll_of_throws h hm
  rw [← hmods] at hall
  simp only [Decoder.init, checkKeys_eq_none_iff.mpr hkeys, build_modules, hall]

/-- Behind the check an exception comes out of a call. -/
theorem init_calls_ne_nil (hkeys : ∀ key ∈ config.kvMap, Declares mods key)
    (h : (Decoder.init config mods).2 = .threw e) : (Decoder.init config mods).1 ≠ [] := by
  have hcheck := checkKeys_eq_none_iff.mpr hkeys
  intro hnil
  have hcalls : (Decoder.init config mods).1 = (setupAll config mods.toList).1 := by
    simp only [Decoder.init, hcheck, build_modules]
    split <;> [rfl; (split <;> rfl)]
  have hnone := setupAll_of_eq_nil (hcalls.symm.trans hnil)
  simp only [Decoder.init, hcheck, build_modules, hnone] at h
  split at h <;> cases h

end Calls

/-! ## What a module sees -/

section Local

variable {config config' : Config} {name : String} {mod : Module δ ν}

/-- The value for a key that a module declares: the user's, or else the default. -/
def Config.valueFor (config : Config) (name : String) (c : String × ConfigDef) :
    Option ConfigValue :=
  (config.kvMap[dotted name c.1]?).or c.2.default

/-- A loop that sets the values that there are. -/
theorem foldl_kvMap {β : Type} {step : Config → β → Config}
    {value : β → Option (String × ConfigValue)}
    (hstep : ∀ c e, (step c e).kvMap = assignAll c.kvMap (value e).toList) (l : List β)
    (c : Config) :
    (l.foldl step c).kvMap = assignAll c.kvMap (l.filterMap value) := by
  induction l generalizing c with
  | nil => rfl
  | cons e l ih =>
    rw [List.foldl_cons, ih, hstep]
    cases hval : value e <;> simp [hval, assignAll]

theorem localConfig_kvMap (config : Config) (name : String) (mod : Module δ ν) :
    (localConfig config name mod).kvMap =
      assignAll ∅ (mod.configMap.toList.filterMap
        fun c => (config.valueFor name c).map fun v => (c.1, v)) := by
  refine foldl_kvMap (fun c e => ?_) _ _
  cases hval : config.kvMap[dotted name e.1]? with
  | some val => simp [Config.valueFor, hval, assignAll, Config.set]
  | none =>
    cases hdef : e.2.default with
    | some dflt => simp [Config.valueFor, hval, hdef, assignAll, Config.set]
    | none => simp [Config.valueFor, hval, hdef, assignAll]

/-- **What a module sees** under a key: nothing when it does not declare the key, else the value of
the user, else the default. -/
theorem getElem?_localConfig (config : Config) (name : String) (mod : Module δ ν) (k : String) :
    (localConfig config name mod).kvMap[k]? =
      (mod.configMap[k]?).bind fun c => config.valueFor name (k, c) := by
  have hkeys := nodup_keys_filterMap (nodup_keys_toList mod.configMap) (config.valueFor name)
  rw [localConfig_kvMap, getElem?_assignAll, TreeMap.getElem?_emptyc, Option.or_none]
  refine Option.ext fun v => ?_
  rw [lastOf_eq_some_iff hkeys, List.mem_filterMap, Option.bind_eq_some_iff]
  constructor
  · rintro ⟨c, hc, hv⟩
    obtain ⟨v', hv', heq⟩ := Option.map_eq_some_iff.mp hv
    obtain ⟨rfl, rfl⟩ := Prod.mk.inj heq
    exact ⟨c.2, TreeMap.mem_toList_iff_getElem?_eq_some.mp hc, hv'⟩
  · rintro ⟨c, hc, hv⟩
    exact ⟨(k, c), TreeMap.mem_toList_iff_getElem?_eq_some.mpr hc, by rw [hv]; rfl⟩

/-- Other settings make no difference. -/
theorem localConfig_congr
    (h : ∀ k ∈ mod.configMap, config.kvMap[dotted name k]? = config'.kvMap[dotted name k]?) :
    localConfig config name mod = localConfig config' name mod := by
  have hmap : (localConfig config name mod).kvMap = (localConfig config' name mod).kvMap := by
    rw [localConfig_kvMap, localConfig_kvMap]
    refine congrArg (assignAll ∅) (List.filterMap_congr fun c hc => ?_)
    rw [Config.valueFor, Config.valueFor, h c.1 (mem_iff_toList.mpr ⟨c.2, hc⟩)]
  exact congrArg Config.mk hmap

/-- A setting of another module makes none. -/
theorem localConfig_of_other {name' : String} (hname : DotFree name) (hname' : DotFree name')
    (hne : name' ≠ name) (k : String) (v : ConfigValue) :
    localConfig (config.set (dotted name' k) v) name mod = localConfig config name mod := by
  refine localConfig_congr fun k' _ => ?_
  rw [Config.set, TreeMap.getElem?_insert, if_neg]
  exact fun hcmp => hne ((dotted_inj hname' hname).mp (LawfulEqCmp.compare_eq_iff_eq.mp hcmp)).1

theorem ofSets_kvMap (sets : List (String × ConfigValue)) :
    (Config.ofSets sets).kvMap = assignAll ∅ sets :=
  (List.foldl_hom Config.kvMap fun _ _ => rfl).symm

/-- A `Config` has the value that was set last. -/
theorem getElem?_ofSets (sets : List (String × ConfigValue)) (key : String) :
    (Config.ofSets sets).kvMap[key]? = lastOf sets key := by
  rw [ofSets_kvMap, getElem?_assignAll, TreeMap.getElem?_emptyc, Option.or_none]

theorem mem_ofSets {sets : List (String × ConfigValue)} {key : String} :
    key ∈ (Config.ofSets sets).kvMap ↔ key ∈ sets.map Prod.fst := by
  rw [ofSets_kvMap, mem_assignAll]
  simp

end Local

/-! ## The whole -/

/-- **The configuration of `init`.** It ends with a `ConfigError` before any `setup` exactly when
some key that was set is not `M.k` for a module `M` that declares `k`. Otherwise the modules are set
up one after the other, each with its own settings, until one throws. -/
theorem init_routes (mods : ModMap δ ν) (h : ∀ name ∈ mods, DotFree name)
    (sets : List (String × ConfigValue)) :
    (((Decoder.init (Config.ofSets sets) mods).1 = [] ∧
        ∃ text, (Decoder.init (Config.ofSets sets) mods).2 = .threw ⟨.configError, text⟩) ↔
      ∃ e ∈ sets, ¬ Declares mods e.1) ∧
    ((∀ e ∈ sets, Declares mods e.1) →
      ((∀ m ∈ mods.toList, SetupReturns (Config.ofSets sets) m) →
        (Decoder.init (Config.ofSets sets) mods).1 =
          mods.toList.map (setupCall (Config.ofSets sets)) ∧
          ∀ e, (Decoder.init (Config.ofSets sets) mods).2 ≠ .threw e) ∧
      ∀ ms m ms' e, mods.toList = ms ++ m :: ms' → (∀ m ∈ ms, SetupReturns (Config.ofSets sets) m) →
        m.2.setup (localConfig (Config.ofSets sets) m.1 m.2) = some e →
        Decoder.init (Config.ofSets sets) mods =
          ((ms ++ [m]).map (setupCall (Config.ofSets sets)), .threw e)) ∧
    (mods.toList.map Prod.fst).Nodup ∧
    (∀ name mod, mods[name]? = some mod →
      ∀ k, (localConfig (Config.ofSets sets) name mod).kvMap[k]? =
      (mod.configMap[k]?).bind fun c => (lastOf sets (dotted name k)).or c.default) ∧
    ∀ name mod name' k v, mods[name]? = some mod → name' ∈ mods → name' ≠ name →
      localConfig (Config.ofSets (sets ++ [(dotted name' k, v)])) name mod =
        localConfig (Config.ofSets sets) name mod := by
  have hkeys : (∀ key ∈ (Config.ofSets sets).kvMap, Declares mods key) ↔
      ∀ e ∈ sets, Declares mods e.1 := by
    simp only [mem_ofSets, List.forall_mem_map]
  refine ⟨⟨?_, ?_⟩, fun hall => ⟨?_, ?_⟩, nodup_keys_toList mods, ?_, ?_⟩
  · rintro ⟨hnil, text, hthrew⟩
    by_contra hno
    push Not at hno
    exact init_calls_ne_nil (hkeys.mpr hno) hthrew hnil
  · rintro ⟨e, he, hbad⟩
    obtain ⟨key, -, -, hinit⟩ := init_rejects (mt hkeys.mp fun hall => hbad (hall e he))
    rw [hinit]
    exact ⟨rfl, _, rfl⟩
  · exact fun hret => init_of_returns (hkeys.mpr hall) hret
  · exact fun ms m ms' e hmods hret hm => init_of_throws (hkeys.mpr hall) hmods hret hm
  · intro name mod _ k
    rw [getElem?_localConfig]
    simp only [Config.valueFor, getElem?_ofSets]
  · intro name mod name' k v hmod hmod' hne
    have hsnoc : Config.ofSets (sets ++ [(dotted name' k, v)]) =
        (Config.ofSets sets).set (dotted name' k) v := by
      simp [Config.ofSets]
    rw [hsnoc]
    refine localConfig_of_other (h name ?_) (h name' hmod') hne k v
    exact mem_iff_toList.mpr ⟨mod, TreeMap.mem_toList_iff_getElem?_eq_some.mpr hmod⟩

theorem empty_not_mem : "" ∉ (∅ : TreeMap String Unit) := TreeMap.not_mem_emptyc

/-- A module that reads one key as a string in its `setup`, as those of the test `config_test`. -/
def readingModule (key : String) : Module Unit Unit where
  configMap := (∅ : TreeMap String ConfigDef).insert key {}
  setup := fun config => match config.get key with
    | .error e => some e
    | .ok v => match v.asStr with
      | .error e => some e
      | .ok _ => none
  noEmpty := empty_not_mem

/-- The modules of that test. -/
def testModules : ModMap Unit Unit :=
  ((∅ : ModMap Unit Unit).insert "Ethernet" (readingModule "t1")).insert "Blue" (readingModule "t2")

/-- The settings of its normal case. -/
def normalSets : List (String × ConfigValue) :=
  [("Ethernet.t1", ⟨"Ethernet.t1", .str "v"⟩), ("Blue.t2", ⟨"Blue.t2", .str "x"⟩)]

/-- The settings of its type error. -/
def intSets : List (String × ConfigValue) := [("Blue.t2", ⟨"Blue.t2", .int 1⟩)]

theorem testModules_dotFree : ∀ name ∈ testModules, DotFree name := by
  intro name hname
  obtain ⟨mod, hmod⟩ := mem_iff_toList.mp hname
  have hnames : testModules.toList.map Prod.fst = ["Blue", "Ethernet"] := rfl
  have hmem : name ∈ ["Blue", "Ethernet"] := hnames ▸ List.mem_map.mpr ⟨_, hmod, rfl⟩
  simp only [List.mem_cons, List.not_mem_nil, or_false] at hmem
  rcases hmem with rfl | rfl <;> decide

theorem intSets_declared : ∀ e ∈ intSets, Declares testModules e.1 := by
  intro e he
  obtain rfl := List.mem_singleton.mp he
  exact ⟨"Blue", readingModule "t2", rfl, "t2", TreeMap.mem_insert_self, rfl⟩

theorem init_routes_normal :
    (localConfig (Config.ofSets normalSets) "Blue" (readingModule "t2")).kvMap["t2"]? =
      some ⟨"Blue.t2", .str "x"⟩ :=
  ((init_routes testModules testModules_dotFree normalSets).2.2.2.1 "Blue" (readingModule "t2")
    rfl "t2").trans
    rfl

/-- With an integer for `Blue.t2` every key is known, but the `setup` of `Blue` throws, and that of
`Ethernet` is not called. -/
theorem ethernet_not_set_up : (∀ name ∈ testModules, DotFree name) ∧
    (∀ e ∈ intSets, Declares testModules e.1) ∧ "Ethernet" ∈ testModules ∧
    (Decoder.init (Config.ofSets intSets) testModules).1.map Prod.fst = ["Blue"] ∧
    (Decoder.init (Config.ofSets intSets) testModules).2 =
      .threw ⟨.typeError, "config: Blue.t2 does not allow str type"⟩ := by
  have hkeys : ∀ key ∈ (Config.ofSets intSets).kvMap, Declares testModules key := by
    simp only [mem_ofSets, List.forall_mem_map]
    exact intSets_declared
  have hmods : testModules.toList =
      [] ++ ("Blue", readingModule "t2") :: [("Ethernet", readingModule "t1")] := rfl
  have hinit := init_of_throws hkeys hmods
    (e := ⟨.typeError, "config: Blue.t2 does not allow str type"⟩)
    (List.forall_mem_nil _) rfl
  refine ⟨testModules_dotFree, intSets_declared, TreeMap.contains_iff_mem.mp rfl, ?_, ?_⟩
  · rw [hinit]
    rfl
  · rw [hinit]

end PacketMachine.Setup
