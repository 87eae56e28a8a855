import PacketMachine.Decode.Keys
import PacketMachine.Lib.Tables

/-!
# `Decoder::init` for any modules

Model of the definitions that a module makes (`module.hpp`, `module.cc:57-280`), of `Config`
(`config.cc:81-156`) and of `Decoder::init` with the look-ups (`decoder.cc:46-236`).

* A `std::map` is a `Std.TreeMap`, which a loop goes through in the order of the keys. `insert`
  keeps the entry of a key that is there.
* A definition is filed under its `local_name_`, so that this is its key. `finalize` gives it its
  name and its id: a `Def` is a `ParamDef` after that.
* What `setup` of a module does is not known here. It reads its `Config` and returns or throws.
* The values that a parameter is made of and the functions behind minor parameters do not matter
  here: `ν` stands for the first and `δ` for the second.
-/

namespace PacketMachine.Setup

open PacketMachine.Lib Std
open PacketMachine.Decode (Fault indexed)

variable {δ ν : Type}

/-! ## Names -/

/-- A name without a dot. -/
def DotFree (s : String) : Prop := '.' ∉ s.toList

instance (s : String) : Decidable (DotFree s) := inferInstanceAs (Decidable (¬ _))

/-- `a + "." + b`. -/
def dotted (a b : String) : String := a ++ "." ++ b

/-- The parts of a name between its dots. -/
def parts (s : String) : List (List Char) := s.toList.splitOn '.'

section Names

variable {a a' b b' : String}

theorem toList_dotted (a b : String) : (dotted a b).toList = a.toList ++ '.' :: b.toList := by
  simp [dotted, String.toList_append]

theorem parts_dotted (ha : DotFree a) (b : String) : parts (dotted a b) = a.toList :: parts b := by
  unfold parts List.splitOn
  rw [toList_dotted]
  have hp : ∀ c ∈ a.toList, (c == '.') = false := fun c hc =>
    beq_eq_false_iff_ne.mpr fun heq => ha (heq ▸ hc)
  exact List.splitOnP_append_cons_of_forall_mem hp '.' rfl _

theorem parts_dotFree (ha : DotFree a) : parts a = [a.toList] := by
  have hsplit := List.splitOn_intercalate '.' (List.forall_mem_singleton.mpr ha) (by simp)
  rwa [List.intercalate_singleton] at hsplit

theorem parts_ne_nil (s : String) : parts s ≠ [] := List.splitOnP_ne_nil _ _

/-- A dotted name tells its first part. -/
theorem dotted_inj (ha : DotFree a) (ha' : DotFree a') :
    dotted a b = dotted a' b' ↔ a = a' ∧ b = b' := by
  constructor
  · intro h
    have hparts := congrArg parts h
    rw [parts_dotted ha, parts_dotted ha'] at hparts
    have haa : a = a' := String.toList_inj.mp (List.cons.inj hparts).1
    subst haa
    have hlist := congrArg String.toList h
    rw [toList_dotted, toList_dotted] at hlist
    exact ⟨rfl, String.toList_inj.mp (List.cons.inj (List.append_cancel_left hlist)).2⟩
  · rintro ⟨rfl, rfl⟩
    rfl

/-- A dotted name is no part. -/
theorem dotted_ne (ha : DotFree a) (ha' : DotFree a') : dotted a b ≠ a' := by
  intro h
  have hparts := congrArg parts h
  rw [parts_dotted ha, parts_dotFree ha'] at hparts
  exact parts_ne_nil b (List.cons.inj hparts).2

theorem dotted_right_inj {c : String} : dotted c b = dotted c b' ↔ b = b' := by
  refine ⟨fun h => String.toList_inj.mp ?_, fun h => by rw [h]⟩
  have hlist := congrArg String.toList h
  rw [toList_dotted, toList_dotted] at hlist
  exact (List.cons.inj (List.append_cancel_left hlist)).2

theorem dotted_ne_self (a b : String) : dotted a b ≠ a := by
  intro h
  have hlen := congrArg (fun s : String => s.toList.length) h
  simp [toList_dotted] at hlen

theorem dotted_assoc (a b c : String) : dotted (dotted a b) c = dotted a (dotted b c) := by
  simp [dotted, String.append_assoc]

end Names

/-! ## `Config` -/

/-- `Exception::Error` and its classes. -/
inductive ExceptionKind where
  | error | configError | typeError | keyError | indexError | noDataError | runTimeError
  deriving DecidableEq, Repr

/-- An exception, with its message. -/
structure Exception where
  kind : ExceptionKind
  text : String
  deriving DecidableEq, Repr

/-- `config::Int`, `config::Str` and `config::Bool`. -/
inductive ConfigData where
  | int (val : Int)
  | str (val : String)
  | bool (val : Bool)
  deriving DecidableEq, Repr

/-- `ConfigValue`. -/
structure ConfigValue where
  key : String
  data : ConfigData
  deriving DecidableEq, Repr

/-- The exception of a `ConfigValue` that is read with another type. -/
def ConfigValue.typeError (v : ConfigValue) (type : String) : Exception :=
  ⟨.typeError, "config: " ++ v.key ++ " does not allow " ++ type ++ " type"⟩

/-- `ConfigValue::as_bool`. -/
def ConfigValue.asBool (v : ConfigValue) : Except Exception Bool :=
  match v.data with
  | .bool val => .ok val
  | _ => .error (v.typeError "bool")

/-- `ConfigValue::as_int`. -/
def ConfigValue.asInt (v : ConfigValue) : Except Exception Int :=
  match v.data with
  | .int val => .ok val
  | _ => .error (v.typeError "int")

/-- `ConfigValue::as_str`. -/
def ConfigValue.asStr (v : ConfigValue) : Except Exception String :=
  match v.data with
  | .str val => .ok val
  | _ => .error (v.typeError "str")

/-- `Config`. -/
structure Config where
  kvMap : TreeMap String ConfigValue := ∅

/-- `Config::set`: a value that is there is replaced. -/
def Config.set (c : Config) (key : String) (val : ConfigValue) : Config :=
  { c with kvMap := c.kvMap.insert key val }

/-- `Config::has`. -/
def Config.has (c : Config) (key : String) : Bool := c.kvMap.contains key

/-- `Config::get` and `Config::ptr`. -/
def Config.get (c : Config) (key : String) : Except Exception ConfigValue :=
  match c.kvMap[key]? with
  | some val => .ok val
  | none => .error ⟨.keyError, key ++ " does not exist"⟩

/-- A `Config` after calls of `set`. -/
def Config.ofSets (sets : List (String × ConfigValue)) : Config :=
  sets.foldl (fun c e => c.set e.1 e.2) {}

/-! ## What a module defines -/

/-- `ParamDef` and `MajorParamDef`, before `finalize`. A minor parameter is the function that it was
defined with. -/
inductive ParamDef (δ ν : Type) where
  | param (new : ν)
  | major (minorNew : ν) (defMap : TreeMap String δ)

/-- `ConfigDef`. -/
structure ConfigDef where
  default : Option ConfigValue := none

/-- `Module`. `define_event` asserts that an event is new, and `Decoder::init` defines the one with
the empty name. -/
structure Module (δ ν : Type) where
  paramMap : TreeMap String (ParamDef δ ν) := ∅
  eventMap : TreeMap String Unit := ∅
  configMap : TreeMap String ConfigDef := ∅
  /-- What `setup` throws. -/
  setup : Config → Option Exception := fun _ => none
  noEmpty : "" ∉ eventMap := by simp

/-- `ModMap`. -/
abbrev ModMap (δ ν : Type) := TreeMap String (Module δ ν)

/-! ## What `init` makes of it -/

/-- The class of a definition, with what it needs. -/
inductive DefClass (δ ν : Type) where
  /-- `ParamDef`. -/
  | param (new : ν)
  /-- `MajorParamDef`. -/
  | major
  /-- `MinorParamDef`: its `minor_id_`, its function and constructor, and the `minor_size` of its
  parent. -/
  | minor (minorId : Nat) (defer : δ) (new : ν) (minorSize : Nat)

/-- A `ParamDef*` behind `finalize`. -/
structure Def (δ ν : Type) where
  moduleId : Nat
  id : Nat
  name : String
  cls : DefClass δ ν

/-- `ParamDef::finalize` of a definition with this local name. -/
def ParamDef.finalize (d : ParamDef δ ν) (mid pid : Nat) (mod localName : String) : Def δ ν where
  moduleId := mid
  id := pid
  name := dotted mod localName
  cls := match d with
    | .param new => .param new
    | .major _ _ => .major

/-- The minor definitions behind `MajorParamDef::finalize`, in the order of their ids. -/
def ParamDef.subDefs (d : ParamDef δ ν) (mid pid : Nat) (name : String) : List (Def δ ν) :=
  match d with
  | .param _ => []
  | .major new defMap => defMap.toList.mapIdx fun i e =>
    ⟨mid, pid, dotted name e.1, .minor i e.2 new defMap.size⟩

/-- `copy_sub_def`. -/
def ParamDef.copySubDef (d : ParamDef δ ν) (mid pid : Nat) (name : String) :
    TreeMap String (Def δ ν) :=
  insertAll ∅ ((d.subDefs mid pid name).map fun s => (s.name, s))

/-- `params_` and `param_map_`. -/
structure ParamTable (δ ν : Type) where
  params : List (Def δ ν) := []
  paramMap : TreeMap String (Def δ ν) := ∅

/-- The body of the loop over the parameters of a module. -/
def ParamTable.add (t : ParamTable δ ν) (mid : Nat) (mod : String) (p : String × ParamDef δ ν) :
    ParamTable δ ν :=
  let globalId := t.params.length
  let d := p.2.finalize mid globalId mod p.1
  { params := t.params ++ [d]
    paramMap := insertAll (t.paramMap.insertIfNew d.name d)
      (p.2.copySubDef mid globalId d.name).toList }

/-- `EventDef` with its ids and its name. -/
structure EventDef where
  moduleId : Nat
  id : Nat
  name : String
  deriving DecidableEq, Repr

/-- `events_` and `event_map_`. -/
structure EventTable where
  events : List EventDef := []
  eventMap : TreeMap String EventDef := ∅

/-- The body of the loop over the events of a module. -/
def EventTable.add (t : EventTable) (mid : Nat) (mod : String) (ev : String) : EventTable :=
  let globalId := t.events.length
  let d : EventDef := ⟨mid, globalId, if ev.length > 0 then dotted mod ev else mod⟩
  { events := t.events ++ [d], eventMap := t.eventMap.insertIfNew d.name d }

/-- The members of `Decoder` that the look-ups and the check of the configuration read. -/
structure Decoder (δ ν : Type) where
  modules : List (String × Module δ ν) := []
  modEthernet : Option Nat := none
  params : ParamTable δ ν := {}
  events : EventTable := {}
  configMap : TreeMap String ConfigDef := ∅

/-- The body of the loop over `modules_`: the parameters, the events with the empty one, and the
keys of the configuration. -/
def Decoder.addDefs (d : Decoder δ ν) (m : Nat × String × Module δ ν) : Decoder δ ν :=
  let (mid, name, mod) := m
  { d with
    params := mod.paramMap.toList.foldl (fun t p => t.add mid name p) d.params
    events :=
      (mod.eventMap.insertIfNew "" ()).toList.foldl (fun t ev => t.add mid name ev.1) d.events
    configMap := insertAll d.configMap (mod.configMap.toList.map fun c => (dotted name c.1, c.2)) }

/-- The modules with their ids. -/
def numbered (mods : ModMap δ ν) : List (Nat × String × Module δ ν) :=
  mods.toList.mapIdx fun i m => (i, m)

/-- The two loops over the modules. -/
def Decoder.build (mods : ModMap δ ν) : Decoder δ ν :=
  (numbered mods).foldl Decoder.addDefs
    { modules := mods.toList, modEthernet := mods.toList.findIdx? (·.1 = "Ethernet") }

/-- The first key of the configuration that is in no module. -/
def Decoder.checkKeys (d : Decoder δ ν) (config : Config) : Option Exception :=
  (config.kvMap.toList.find? fun conf => ¬ d.configMap.contains conf.1).map fun conf =>
    ⟨.configError, "'" ++ conf.1 ++ "' is not valid config key"⟩

/-- The `local_config` of a module. -/
def localConfig (config : Config) (name : String) (mod : Module δ ν) : Config :=
  mod.configMap.toList.foldl (fun c e =>
    match config.kvMap[dotted name e.1]? with
    | some val => c.set e.1 val
    | none => match e.2.default with
      | some dflt => c.set e.1 dflt
      | none => c) {}

/-- The loop that sets up the modules: the calls of `setup`, and what the last of them threw. -/
def setupAll (config : Config) :
    List (String × Module δ ν) → List (String × Config) × Option Exception
  | [] => ([], none)
  | (name, mod) :: rest =>
    let conf := localConfig config name mod
    match mod.setup conf with
    | some e => ([(name, conf)], some e)
    | none => ((name, conf) :: (setupAll config rest).1, (setupAll config rest).2)

/-- How `Decoder::init` ends. -/
inductive InitEnd (δ ν : Type) where
  | done (d : Decoder δ ν)
  | threw (e : Exception)
  | assertion (text : String)

/-- `Decoder::init`: the calls of `setup`, and how it ends. -/
def Decoder.init (config : Config) (mods : ModMap δ ν) : List (String × Config) × InitEnd δ ν :=
  let d := Decoder.build mods
  match d.checkKeys config with
  | some e => ([], .threw e)
  | none =>
    let (calls, thrown) := setupAll config d.modules
    match thrown with
    | some e => (calls, .threw e)
    | none =>
      if d.modEthernet.isSome then (calls, .done d)
      else (calls, .assertion "this->mod_ethernet_ != Module::NONE")

/-! ## Look-ups -/

/-- `ParamKey`. -/
structure ParamKey (δ ν : Type) where
  id : Int
  definition : Option (Def δ ν)

/-- `ParamKey::operator==`. -/
def ParamKey.same (k k' : ParamKey δ ν) : Bool := k.id == k'.id

/-- `Property::NULL_KEY`, with `Param::NONE`. -/
def nullKey : ParamKey δ ν := ⟨-1, none⟩

/-- `Decoder::lookup_param_id`. -/
def Decoder.lookupParamId (d : Decoder δ ν) (name : String) : Int :=
  match d.params.paramMap[name]? with
  | none => -1
  | some def_ => def_.id

/-- `Decoder::lookup_param_name` of an id. -/
def Decoder.lookupParamName (d : Decoder δ ν) (pid : Int) : Except Exception String :=
  if pid < 0 then .error ⟨.indexError, "No such parameter"⟩
  else match d.params.params[pid.toNat]? with
    | none => .error ⟨.indexError, "No such parameter"⟩
    | some def_ => .ok def_.name

/-- `Decoder::lookup_param_key`. -/
def Decoder.lookupParamKey (d : Decoder δ ν) (name : String) : ParamKey δ ν :=
  match d.params.paramMap[name]? with
  | none => nullKey
  | some def_ => ⟨def_.id, some def_⟩

/-- `Decoder::lookup_param_name` of a key, which does not check the id. -/
def Decoder.lookupKeyName (d : Decoder δ ν) (key : ParamKey δ ν) : Except Fault String := do
  return (← indexed d.params.params key.id).name

/-- `Decoder::lookup_event_id`, with `Event::NONE`. -/
def Decoder.lookupEventId (d : Decoder δ ν) (name : String) : Int :=
  match d.events.eventMap[name]? with
  | none => -2
  | some def_ => def_.id

/-- `Decoder::lookup_event_name`. -/
def Decoder.lookupEventName (d : Decoder δ ν) (eid : Int) : Except Exception String :=
  if eid < 0 then .error ⟨.indexError, "No such parameter"⟩
  else match d.events.events[eid.toNat]? with
    | none => .error ⟨.indexError, "No such parameter"⟩
    | some def_ => .ok def_.name

end PacketMachine.Setup
