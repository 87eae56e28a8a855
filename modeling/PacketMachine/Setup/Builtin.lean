import PacketMachine.Setup.Property
import PacketMachine.Setup.Routing

/-!
# The built-in modules

The modules of the library (`modules/`) as modules of `Decoder::init`. `Decode.Param`, its names and
its look-ups are about these, with the ids written down; here they come out of the loops.

* The constructors define the parameters in another order: a `std::map` sorts them.
* Only `TCP` declares settings and reads them (`tcp.cc:534-558`).

Results:
* `declared_builtin`: the parameters are those of `Decode.params`, in this order.
* **`lookupParamKey_builtin`**: every name has the key that it has in `Decode.paramMap`.
* `hasValue_builtin`: so `has_value` of a name is the one of `Decode.Property`.
* **`init_builtin_iff`**: `init` ends well exactly when every key is one of `TCP` and its values have
  the types that `TCP` reads.
-/

namespace PacketMachine.Setup

open PacketMachine.Lib Std
open PacketMachine.Decode (Defer Fault Kind Mod Param indexed)

/-! ## Definitions -/

/-- What a module gives to `define_param` or `define_major_param`. -/
def definition (d : Param) : ParamDef Defer (Class Kind) :=
  match d.kind with
  | .storage => .major .value (insertAll ∅ d.minors)
  | .value => .param .value
  | kind => .param (.other kind)

/-- The events that a module defines. -/
def localEvents : Mod → List String
  | .arp => ["request", "reply"]
  | .dns | .mdns => ["query", "reply"]
  | .tcp => ["new_session", "established", "closed"]
  | _ => []

/-- The settings of `TCP`. -/
def tcpConfigMap : TreeMap String ConfigDef :=
  insertAll ∅ [("enable_session_mgmt", ⟨some ⟨"enable_session_mgmt", .bool true⟩⟩),
    ("session_table_size", ⟨some ⟨"session_table_size", .int 65521⟩⟩),
    ("session_timeout", ⟨some ⟨"session_timeout", .int 300⟩⟩)]

/-- What `TCP::setup` reads: the size of the table, whether there is one, and the timeout. -/
def tcpSettings (config : Config) : Except Exception (Int × Bool × Int) := do
  let ssnTableSize ← (← config.get "session_table_size").asInt
  let enableSsnMgmt ← (← config.get "enable_session_mgmt").asBool
  let ssnTimeout ← (← config.get "session_timeout").asInt
  return (ssnTableSize, enableSsnMgmt, ssnTimeout)

/-- `setup` of a module: the others look up modules or do nothing. -/
def setupOf : Mod → Config → Option Exception
  | .tcp => fun config => match tcpSettings config with
    | .error e => some e
    | .ok _ => none
  | _ => fun _ => none

theorem empty_not_localEvents (m : Mod) :
    "" ∉ insertAll (∅ : TreeMap String Unit) ((localEvents m).map (·, ())) := by
  rw [mem_insertAll, List.map_map]
  cases m <;> simp [localEvents]

/-- A module, as its constructor leaves it. -/
def moduleOf (m : Mod) : Module Defer (Class Kind) where
  paramMap := insertAll ∅
    ((Decode.params.filter (·.mod = m)).map fun d => (d.localName, definition d))
  eventMap := insertAll ∅ ((localEvents m).map (·, ()))
  configMap := match m with
    | .tcp => tcpConfigMap
    | _ => ∅
  setup := setupOf m
  noEmpty := empty_not_localEvents m

/-- `modules_`. -/
def builtin : ModMap Defer (Class Kind) :=
  insertAll ∅ (Decode.modules.map fun m => (m.name, moduleOf m))

/-! ## The order of the loops -/

theorem builtin_toList : builtin.toList = Decode.modules.map fun m => (m.name, moduleOf m) := by
  refine toList_insertAll (List.pairwise_map.mpr ?_)
  have hsorted : (Decode.modules.map Mod.name).IsChain (· < ·) := by decide
  exact (List.pairwise_map.mp hsorted.pairwise).imp compare_lt_iff_lt.mpr

theorem paramMap_toList (m : Mod) : (moduleOf m).paramMap.toList =
    (Decode.params.filter (·.mod = m)).map fun d => (d.localName, definition d) := by
  refine toList_insertAll (List.pairwise_map.mpr ?_)
  refine (Decode.params_sorted.filter _).imp_of_mem fun {d d'} hd hd' h => ?_
  have hmod := of_decide_eq_true (List.mem_filter.mp hd).2
  have hmod' := of_decide_eq_true (List.mem_filter.mp hd').2
  refine compare_lt_iff_lt.mpr (h.resolve_left fun hlt => ?_).2
  rw [hmod, hmod'] at hlt
  exact lt_irrefl _ hlt

theorem minors_toList (d : Param) :
    (insertAll (∅ : TreeMap String Defer) d.minors).toList = d.minors := by
  have hsorted : (d.minors.map Prod.fst).IsChain (· < ·) := by
    cases d <;> decide
  exact toList_insertAll ((List.pairwise_map.mp hsorted.pairwise).imp compare_lt_iff_lt.mpr)

/-- A parameter with its module. -/
def declaredOf (d : Param) : Declared Defer (Class Kind) :=
  ⟨d.mod.ctorIdx, d.mod.name, d.localName, definition d⟩

theorem numbered_builtin :
    numbered builtin = Decode.modules.map fun m => (m.ctorIdx, m.name, moduleOf m) := by
  rw [numbered, builtin_toList]
  rfl

/-- **The parameters in the order of their ids.** -/
theorem declared_builtin : declared builtin = Decode.params.map declaredOf := by
  have hmods : Decode.modules.flatMap (fun m => Decode.params.filter (·.mod = m)) =
      Decode.params := by decide +kernel
  have hone : ∀ m : Mod, ((moduleOf m).paramMap.toList.map fun p =>
      (⟨m.ctorIdx, m.name, p.1, p.2⟩ : Declared Defer (Class Kind))) =
        (Decode.params.filter (·.mod = m)).map declaredOf := by
    intro m
    rw [paramMap_toList, List.map_map]
    refine List.map_congr_left fun d hd => ?_
    obtain rfl := of_decide_eq_true (List.mem_filter.mp hd).2
    rfl
  rw [declared, numbered_builtin, List.flatMap_map]
  simp only [hone]
  rw [← List.map_flatMap, hmods]

/-- No name has a dot. -/
theorem builtin_plain : Plain builtin := by
  have hmod : ∀ m : Mod, DotFree m.name := by
    intro m
    cases m <;> decide
  have hparam : ∀ d : Param, DotFree d.localName := by
    intro d
    cases d <;> decide
  rw [← plain_iff, builtin_toList]
  simp only [List.forall_mem_map, paramMap_toList]
  exact fun m _ => ⟨hmod m, fun d _ => hparam d⟩

/-! ## Keys -/

/-- The definition that a key leads to. -/
def defOf : Decode.Key → Def Defer (Class Kind)
  | .param d => (declaredOf d).finalize d.id
  | .minor d i => ⟨d.mod.ctorIdx, d.id, dotted d.name (d.minors.get i).1,
      .minor i (d.minors.get i).2 .value d.minors.length⟩

/-- The `ParamKey` of a key. -/
def keyOf : Option Decode.Key → ParamKey Defer (Class Kind)
  | none => nullKey
  | some key => ⟨key.pool.id, some (defOf key)⟩

theorem subDefs_declaredOf (d : Param) : (declaredOf d).subDefs d.id =
    (List.finRange d.minors.length).map fun i => defOf (.minor d i) := by
  by_cases hk : d.kind = .storage
  · have hdef : definition d = .major .value (insertAll ∅ d.minors) := by
      unfold definition
      rw [hk]
    have hsize : (insertAll (∅ : TreeMap String Defer) d.minors).size = d.minors.length := by
      rw [← TreeMap.length_toList, minors_toList]
    unfold Declared.subDefs declaredOf
    rw [hdef]
    simp only [ParamDef.subDefs, minors_toList, hsize]
    refine List.ext_getElem (by simp) fun i hi hi' => ?_
    simp [defOf, Declared.name, Decode.Param.name, dotted]
  · have hnil : d.minors = [] := by
      cases d <;> first | rfl | exact absurd rfl hk
    have hfin : List.finRange d.minors.length = [] :=
      List.eq_nil_of_length_eq_zero (by rw [List.length_finRange, hnil, List.length_nil])
    rw [hfin]
    unfold Declared.subDefs declaredOf definition
    split
    · rename_i h
      exact absurd h hk
    · rfl
    · rfl

/-- What `param_map_` has for a parameter. -/
theorem entries_declaredOf (d : Param) : (declaredOf d).entries d.id =
    ((d.name, Decode.Key.param d) :: (List.finRange d.minors.length).map fun i =>
      (d.name ++ "." ++ (d.minors.get i).1, .minor d i)).map fun e => (e.1, defOf e.2) := by
  rw [Declared.entries, subDefs_declaredOf, List.map_cons, List.map_cons, List.map_map,
    List.map_map]
  rfl

theorem id_of_params {i : Nat} {d : Param} (h : Decode.params[i]? = some d) : d.id = i := by
  have hnodup : Decode.params.Nodup := Decode.params_sorted.imp fun {d d'} hlt heq => by
    subst heq
    rcases hlt with hlt | ⟨-, hlt⟩ <;> exact lt_irrefl _ hlt
  obtain ⟨hi, hget⟩ := List.getElem?_eq_some_iff.mp h
  obtain ⟨hid, hget'⟩ := List.getElem?_eq_some_iff.mp (Decode.params_id d)
  exact (hnodup.getElem_inj_iff).mp (hget'.trans hget.symm)

/-- The names of a parameter are those that `Decode.paramMap` has for it. -/
theorem mem_paramMap_iff {name : String} {s : Def Defer (Class Kind)} :
    (∃ (i : Nat) (r : Declared Defer (Class Kind)), (declared builtin)[i]? = some r ∧
      (name, s) ∈ r.entries i) ↔ ∃ key, (name, key) ∈ Decode.paramMap ∧ s = defOf key := by
  rw [declared_builtin]
  simp only [List.getElem?_map, Option.map_eq_some_iff, Decode.paramMap, List.mem_flatMap]
  constructor
  · rintro ⟨i, _, ⟨d, hd, rfl⟩, hs⟩
    obtain rfl := id_of_params hd
    rw [entries_declaredOf] at hs
    obtain ⟨⟨_, key⟩, he, heq⟩ := List.mem_map.mp hs
    obtain ⟨rfl, rfl⟩ := Prod.mk.inj heq
    exact ⟨key, ⟨d, List.mem_of_getElem? hd, he⟩, rfl⟩
  · rintro ⟨key, ⟨d, -, he⟩, rfl⟩
    refine ⟨d.id, _, ⟨d, Decode.params_id d, rfl⟩, ?_⟩
    rw [entries_declaredOf]
    exact List.mem_map.mpr ⟨_, he, rfl⟩

theorem id_defOf (key : Decode.Key) : (defOf key).id = key.pool.id := by
  cases key <;> rfl

/-- **The keys come out of the loops as they are written down.** -/
theorem lookupParamKey_builtin (name : String) :
    (Decoder.build builtin).lookupParamKey name = keyOf (Decode.lookupParamKey name) := by
  have hfind : ∀ s, (Decoder.build builtin).params.paramMap[name]? = some s ↔
      ∃ key, (name, key) ∈ Decode.paramMap ∧ s = defOf key :=
    fun s => (getElem?_paramMap builtin_plain).trans mem_paramMap_iff
  rw [Decoder.lookupParamKey, Decode.lookupParamKey]
  cases he : Decode.paramMap.find? (·.1 = name) with
  | none =>
    have hnone : (Decoder.build builtin).params.paramMap[name]? = none := by
      refine Option.eq_none_iff_forall_ne_some.mpr fun s hs => ?_
      obtain ⟨key, hkey, -⟩ := (hfind s).mp hs
      exact List.find?_eq_none.mp he _ hkey (decide_eq_true rfl)
    rw [hnone]
    rfl
  | some e =>
    have hname : e.1 = name := by simpa using List.find?_some he
    subst hname
    rw [(hfind (defOf e.2)).mpr ⟨e.2, List.mem_of_find?_eq_some he, rfl⟩]
    change (⟨(defOf e.2).id, some (defOf e.2)⟩ : ParamKey Defer (Class Kind)) = _
    rw [id_defOf]
    rfl

/-- **`has_value` of a name** is the one of `Decode.Property`. -/
theorem hasValue_builtin {S : Type} {q : Property Kind S} {q' : Decode.Property}
    (h : q.paramIdx = q'.paramIdx) (name : String) :
    q.hasValue (Decoder.build builtin) name = q'.hasValue name := by
  unfold Property.hasValue Decode.Property.hasValue
  rw [lookupParamKey_builtin]
  cases hkey : Decode.lookupParamKey name with
  | none => rfl
  | some key =>
    have hsame : (keyOf (some key)).same nullKey = false := not_same_nullKey _ _
    simp only [hsame, Bool.false_eq_true, if_false]
    rw [Property.hasValueKey, h]
    rfl

/-! ## `init` -/

section Init

variable {config : Config}

theorem getElem?_builtin {name : String} {mod : Module Defer (Class Kind)} :
    builtin[name]? = some mod ↔ ∃ m : Mod, m.name = name ∧ moduleOf m = mod := by
  have hall : ∀ m : Mod, m ∈ Decode.modules := by
    intro m
    cases m <;> decide
  rw [← TreeMap.mem_toList_iff_getElem?_eq_some, builtin_toList, List.mem_map]
  simp only [Prod.mk.injEq]
  exact ⟨fun ⟨m, _, hm⟩ => ⟨m, hm⟩, fun ⟨m, hm⟩ => ⟨m, hall m, hm⟩⟩

/-- Only `TCP` has settings. -/
theorem declares_builtin {key : String} :
    Declares builtin key ↔ ∃ k ∈ tcpConfigMap, key = dotted "TCP" k := by
  constructor
  · rintro ⟨name, mod, hmod, k, hk, rfl⟩
    obtain ⟨m, rfl, rfl⟩ := getElem?_builtin.mp hmod
    cases m <;> first | exact ⟨k, hk, rfl⟩ | exact absurd hk TreeMap.not_mem_emptyc
  · rintro ⟨k, hk, rfl⟩
    exact ⟨"TCP", moduleOf .tcp, getElem?_builtin.mpr ⟨.tcp, rfl, rfl⟩, k, hk, rfl⟩

/-- The value of a setting of `TCP`: the user's, or else the default. -/
def tcpValue (config : Config) (k : String) (dflt : ConfigData) : ConfigValue :=
  (config.kvMap[dotted "TCP" k]?).getD ⟨k, dflt⟩

theorem get_tcp {k : String} {dflt : ConfigData} (hk : tcpConfigMap[k]? = some ⟨some ⟨k, dflt⟩⟩) :
    (localConfig config "TCP" (moduleOf .tcp)).get k = .ok (tcpValue config k dflt) := by
  have hsees := getElem?_localConfig config "TCP" (moduleOf .tcp) k
  have hmap : (moduleOf .tcp).configMap[k]? = some ⟨some ⟨k, dflt⟩⟩ := hk
  rw [hmap, Option.bind_some, Config.valueFor] at hsees
  rw [Config.get, hsees, tcpValue]
  cases config.kvMap[dotted "TCP" k]? <;> rfl

/-- A default of the right type leaves the question to the user's value. -/
theorem tcpValue_iff {P : ConfigData → Prop} {k : String} {dflt : ConfigData} (hd : P dflt) :
    P (tcpValue config k dflt).data ↔
      ∀ v, config.kvMap[dotted "TCP" k]? = some v → P v.data := by
  unfold tcpValue
  cases config.kvMap[dotted "TCP" k]? <;> simp [hd]

theorem tcpSettings_eq : tcpSettings (localConfig config "TCP" (moduleOf .tcp)) = (do
    let ssnTableSize ← (tcpValue config "session_table_size" (.int 65521)).asInt
    let enableSsnMgmt ← (tcpValue config "enable_session_mgmt" (.bool true)).asBool
    let ssnTimeout ← (tcpValue config "session_timeout" (.int 300)).asInt
    return (ssnTableSize, enableSsnMgmt, ssnTimeout)) := by
  have hdefaults : tcpConfigMap["session_table_size"]? =
        some ⟨some ⟨"session_table_size", .int 65521⟩⟩ ∧
      tcpConfigMap["enable_session_mgmt"]? =
        some ⟨some ⟨"enable_session_mgmt", .bool true⟩⟩ ∧
      tcpConfigMap["session_timeout"]? = some ⟨some ⟨"session_timeout", .int 300⟩⟩ := by
    refine ⟨?_, ?_, ?_⟩ <;> rw [tcpConfigMap, getElem?_insertAll (by decide)] <;> simp
  rw [tcpSettings, get_tcp hdefaults.1, get_tcp hdefaults.2.1, get_tcp hdefaults.2.2]
  rfl

theorem asInt_eq_ok_iff {v : ConfigValue} {n : Int} : v.asInt = .ok n ↔ v.data = .int n := by
  unfold ConfigValue.asInt
  cases v.data <;> simp

theorem asBool_eq_ok_iff {v : ConfigValue} {b : Bool} : v.asBool = .ok b ↔ v.data = .bool b := by
  unfold ConfigValue.asBool
  cases v.data <;> simp

/-- What the user set for `TCP` has the types that it reads. -/
structure TcpTyped (config : Config) : Prop where
  ssnTableSize : ∀ v, config.kvMap[dotted "TCP" "session_table_size"]? = some v →
    ∃ n, v.data = .int n
  enableSsnMgmt : ∀ v, config.kvMap[dotted "TCP" "enable_session_mgmt"]? = some v →
    ∃ b, v.data = .bool b
  ssnTimeout : ∀ v, config.kvMap[dotted "TCP" "session_timeout"]? = some v → ∃ n, v.data = .int n

theorem tcpTyped_iff : TcpTyped config ↔
    (∃ n, (tcpValue config "session_table_size" (.int 65521)).data = .int n) ∧
    (∃ b, (tcpValue config "enable_session_mgmt" (.bool true)).data = .bool b) ∧
    ∃ n, (tcpValue config "session_timeout" (.int 300)).data = .int n := by
  rw [tcpValue_iff (P := fun d => ∃ n, d = .int n) ⟨_, rfl⟩,
    tcpValue_iff (P := fun d => ∃ b, d = .bool b) ⟨_, rfl⟩,
    tcpValue_iff (P := fun d => ∃ n, d = .int n) ⟨_, rfl⟩]
  exact ⟨fun h => ⟨h.ssnTableSize, h.enableSsnMgmt, h.ssnTimeout⟩, fun h => ⟨h.1, h.2.1, h.2.2⟩⟩

theorem tcpSettings_ok_iff :
    (∃ r, tcpSettings (localConfig config "TCP" (moduleOf .tcp)) = .ok r) ↔ TcpTyped config := by
  rw [tcpTyped_iff, tcpSettings_eq]
  constructor
  · rintro ⟨r, hr⟩
    obtain ⟨n, hn, hr⟩ := returns_of_bind hr
    obtain ⟨b, hb, hr⟩ := returns_of_bind hr
    obtain ⟨t, ht, -⟩ := returns_of_bind hr
    exact ⟨⟨n, asInt_eq_ok_iff.mp hn⟩, ⟨b, asBool_eq_ok_iff.mp hb⟩, ⟨t, asInt_eq_ok_iff.mp ht⟩⟩
  · rintro ⟨⟨n, hn⟩, ⟨b, hb⟩, ⟨t, ht⟩⟩
    rw [asInt_eq_ok_iff.mpr hn, asBool_eq_ok_iff.mpr hb, asInt_eq_ok_iff.mpr ht]
    exact ⟨_, rfl⟩

theorem setupReturns_iff (m : Mod) :
    SetupReturns config (m.name, moduleOf m) ↔ (m = .tcp → TcpTyped config) := by
  by_cases hm : m = .tcp
  · subst hm
    rw [← tcpSettings_ok_iff]
    change setupOf .tcp (localConfig config "TCP" (moduleOf .tcp)) = none ↔ _
    cases hr : tcpSettings (localConfig config "TCP" (moduleOf .tcp)) with
    | error e => simp [setupOf, hr]
    | ok r => simp [setupOf, hr]
  · refine iff_of_true ?_ fun h => absurd h hm
    cases m <;> first | rfl | exact absurd rfl hm

theorem build_modEthernet {δ ν : Type} (mods : ModMap δ ν) :
    (Decoder.build mods).modEthernet = mods.toList.findIdx? (·.1 = "Ethernet") := by
  have hfold : ∀ (l : List (Nat × String × Module δ ν)) (d : Decoder δ ν),
      (l.foldl Decoder.addDefs d).modEthernet = d.modEthernet := by
    intro l
    induction l with
    | nil => exact fun d => rfl
    | cons m l ih => exact fun d => ih _
  exact hfold _ _

/-- **`init` of the built-in modules** ends well exactly when every key that was set is one of `TCP`,
with a value of the type that `TCP` reads. -/
theorem init_builtin_iff (config : Config) :
    (Decoder.init config builtin).2 = .done (Decoder.build builtin) ↔
      (∀ key ∈ config.kvMap, ∃ k ∈ tcpConfigMap, key = dotted "TCP" k) ∧ TcpTyped config := by
  constructor
  · intro h
    have hkeys : ∀ key ∈ config.kvMap, Declares builtin key := by
      by_contra hbad
      obtain ⟨key, -, -, hinit⟩ := init_rejects hbad
      rw [hinit] at h
      cases h
    refine ⟨fun key hkey => declares_builtin.mp (hkeys key hkey), ?_⟩
    by_contra htyped
    have hthrows : ¬ SetupReturns config (Mod.tcp.name, moduleOf .tcp) :=
      fun hret => htyped ((setupReturns_iff .tcp).mp hret rfl)
    obtain ⟨e, he⟩ := Option.ne_none_iff_exists'.mp hthrows
    -- the modules before `TCP` have nothing to throw
    have hmods : builtin.toList =
        ([.arp, .dhcp, .dns, .dot1q, .ethernet, .icmp, .ipv4, .ipv6, .mdns, .pppoe].map
          fun m : Mod => (m.name, moduleOf m)) ++
        (Mod.tcp.name, moduleOf .tcp) :: [(Mod.udp.name, moduleOf .udp)] := builtin_toList
    rw [init_of_throws hkeys hmods ?_ he] at h
    · cases h
    · rw [List.forall_mem_map]
      refine fun m hm => (setupReturns_iff m).mpr ?_
      rintro rfl
      simp at hm
  · rintro ⟨hkeys, htyped⟩
    refine init_of (checkKeys_eq_none_iff.mpr fun key hkey => declares_builtin.mpr (hkeys key hkey))
      ?_ ?_
    · rw [build_modules, builtin_toList, setupAll_of_returns]
      rw [List.forall_mem_map]
      exact fun m _ => (setupReturns_iff m).mpr fun _ => htyped
    · rw [build_modEthernet, builtin_toList]
      rfl

end Init

end PacketMachine.Setup
