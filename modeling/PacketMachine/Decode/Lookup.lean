import PacketMachine.Decode.Property

/-!
# Reading a property: `value`, `get`, `find` and the accessors

Model of `Property::value` (`property.cc:222-250`), of the minor parameters (`module.cc:66-143` and the
`define_minor` calls of the modules), of `Array` and `Map` (`value.cc:309-381`) and of what a user can
see of a value.

* A minor parameter lies in a slot of the `ValueStorage` of its major one. `value` makes the slots at the
  first use and computes the slot anew at each use (`Defer`).
* A user reaches a value by `value` and then `get` and `find` (`Access`), and sees it through `active`,
  `repr`, `raw`, `uint64`, `ip4`, `ip6`, `mac` and `size` (`Look`).
* `ValueStorage` overrides `get` and `size` (`module.hpp:77-86`): a user gets any slot, as it is.
-/

namespace PacketMachine.Decode

/-! ## Minor parameters -/

/-- The function that a module gives to `define_minor`. -/
inductive Defer where
  /-- `v->set(&hdr->field, sizeof(hdr->field))`. -/
  | field (off len : Nat)
  /-- `v->cpy(..)` of a number computed from the header. -/
  | calc (f : Mem → Nat → Except Fault (List UInt8))

/-- `defer(v, ptr)`. -/
def Defer.run (m : Mem) (ptr : Nat) (c : Cell) : Defer → Except Fault Cell
  | .field off len => .ok (c.set (.pkt (ptr + off)) len)
  | .calc f => return c.cpy (← f m ptr)

/-- The bytes of a `uint32_t` of the (little-endian) host. -/
def hostU32 (n : Nat) : List UInt8 :=
  [UInt8.ofNat n, UInt8.ofNat (n / 256), UInt8.ofNat (n / 65536), UInt8.ofNat (n / 16777216)]

/-- `DEFINE_FLAG` of the TCP module. -/
def flagMinor (flag : UInt8) : Defer :=
  .calc fun m ptr => return [if 0 < (← m.u8 (ptr + 13)) &&& flag then 1 else 0]

/-- The minor parameters of a major one, in the order of their ids. -/
def Param.minors : Param → List (String × Defer)
  | ipv4Hdr =>
    [("chksum", .field 10 2),
      ("hdr_len", .calc fun m ptr => return [((← m.u8 ptr) &&& 0x0f) <<< 2]),
      ("id", .field 4 2), ("offset", .field 6 2), ("proto", .field 9 1), ("tos", .field 1 1),
      ("total_len", .field 2 2), ("ttl", .field 8 1),
      ("ver", .calc fun m ptr => return [(← m.u8 ptr) >>> 4])]
  | ipv6Hdr =>
    [("data_len", .field 4 2), ("flags", .field 0 4),
      ("flow_label", .calc fun m ptr => return hostU32 ((← m.u32 ptr) % 0x100000)),
      ("hop_limit", .field 7 1), ("next_hdr", .field 6 1),
      ("traffic_class", .calc fun m ptr => return hostU32 ((← m.u32 ptr) / 0x100000 % 0x100)),
      ("version", .calc fun m ptr => return hostU32 ((← m.u32 ptr) / 0x10000000))]
  | tcpHdr =>
    [("ack", .field 8 4), ("chksum", .field 16 2),
      ("flag_ack", flagMinor 0x10), ("flag_cwr", flagMinor 0x80), ("flag_ece", flagMinor 0x40),
      ("flag_fin", flagMinor 0x01), ("flag_push", flagMinor 0x08), ("flag_rst", flagMinor 0x04),
      ("flag_syn", flagMinor 0x02), ("flag_urg", flagMinor 0x20),
      ("flags", .field 13 1),
      ("offset", .calc fun m ptr => return [((← m.u8 (ptr + 12)) &&& 0xf0) >>> 2]),
      ("seq", .field 4 4), ("urgptr", .field 18 2), ("window", .field 14 2)]
  | udpHdr => [("chksum", .field 6 2), ("length", .field 4 2)]
  | _ => []

/-- The key of a parameter, or of minor parameter `i` of a major one. -/
inductive Key where
  | param (d : Param)
  | minor (d : Param) (i : Fin d.minors.length)
  deriving DecidableEq

/-- Where a `const Value&` comes from. -/
inductive Place where
  /-- `Property::null_`. -/
  | null
  | obj (h : Handle)
  /-- Slot `i` of the `ValueStorage` `h`. -/
  | slot (h : Handle) (i : Nat)
  deriving DecidableEq, Repr

/-- The slots of a `ValueStorage`, made at the first use. -/
def resizeSlots (d : Param) (slots : List Cell) : List Cell :=
  if slots.length = 0 then List.replicate d.minors.length {} else slots

/-- `Property::value` of a minor parameter that is present: the slot is computed. -/
def Property.valueMinor (q : Property) (m : Mem) (d : Param) (i : Fin d.minors.length) :
    Except Fault (Property × Place) :=
  match q.obj? ⟨d, 0⟩ with
  | some ⟨cell, .storage slots⟩ =>
    let slots := resizeSlots d slots
    match slots[i.val]? with
    | none => .error (.assertion "storage_.size() > idx")
    | some slot => do
      -- `val->raw()` is `nullptr` when the value is not active
      let ptr ← cell.start
      let slot ← (d.minors.get i).2.run m ptr slot
      return (q.modify ⟨d, 0⟩ fun o => { o with ext := .storage (slots.set i slot) }, .slot ⟨d, 0⟩ i)
  | _ => .error (.assertion "mdef && sval")

/-- `Property::value`. -/
def Property.value (q : Property) (m : Mem) : Key → Except Fault (Property × Place)
  | .param d => if 0 < q.count d then .ok (q, .obj ⟨d, 0⟩) else .ok (q, .null)
  | .minor d i => if 0 < q.count d then q.valueMinor m d i else .ok (q, .null)

/-! ## `get` and `find` -/

/-- A call of `get` or `find`. -/
inductive Access where
  | get (idx : Nat)
  | find (key : String)
  deriving DecidableEq, Repr

/-- `get` of `Array` and `ValueStorage` and `find` of `Map`, of the object `h`; `none` stands for the
`TypeError` of the other classes. -/
def Obj.access (o : Obj) (h : Handle) : Access → Except Fault (Option Ref)
  | .get idx =>
    match o.ext with
    | .array items => .ok (some (match items[idx]? with
      | some h => .obj h
      | none => .none))
    | .storage slots =>
      if idx < slots.length then .ok (some (.slot h idx))
      else .error (.assertion "storage_.size() > idx")
    | _ => .ok none
  | .find key =>
    match o.ext with
    | .nsRecord name type data =>
      .ok (some (if key = "name" then name else if key = "type" then type
        else if key = "data" then data else .none))
    | .option type length data =>
      .ok (some (if key = "type" then type else if key = "length" then length
        else if key = "data" then data else .none))
    | _ => .ok none

/-- Follows a list of calls. A slot is a `Value`, which has neither. -/
def Property.walk (q : Property) : Ref → List Access → Except Fault (Option Ref)
  | .null, _ => .error (.read 0)
  | r, [] => .ok (some r)
  | .obj h, a :: path =>
    match q.obj? h with
    | none => .error (.assertion "pointer is valid")
    | some o => do
      match ← o.access h a with
      | none => return none
      | some r => q.walk r path
  | _, _ :: _ => .ok none

/-! ## Accessors -/

/-- Slot `i` of the `ValueStorage` `h`. -/
def Property.slot? (q : Property) (h : Handle) (i : Nat) : Option Cell :=
  match q.obj? h with
  | some ⟨_, .storage slots⟩ => slots[i]?
  | _ => none

/-- `repr` of the classes that hold no other values. -/
def Obj.leafRepr (ntop6 : List UInt8 → Text) (m : Mem) (o : Obj) : Except Fault Text :=
  match o.ext with
  | .ipv4Addr => o.cell.ip4 m
  | .portNumber => portRepr m o.cell
  | .nsType => nsTypeRepr m o.cell
  | .icmpType => icmpTypeRepr m o.cell
  | .icmpCode type => if o.cell.active then icmpCodeRepr m o.cell type
    else .error (.assertion "type_ is initialised")
  | .nsName base totalLen => nsNameRepr m o.cell base totalLen
  | .nsData type base totalLen =>
    if o.cell.active then nsDataRepr ntop6 m o.cell type base totalLen
    else .error (.assertion "type_ is initialised")
  | _ => o.cell.repr m

/-- `repr`. Arrays and maps print what they hold. -/
def Property.repr (ntop6 : List UInt8 → Text) (m : Mem) (q : Property) : Nat → Ref → Except Fault Text
  | 0, _ => .error .fuel
  | _, .null => .error (.read 0)
  | _, .none => .ok []
  | _, .slot h i =>
    match q.slot? h i with
    | none => .error (.assertion "pointer is valid")
    | some c => c.repr m
  | n + 1, .obj h =>
    match q.obj? h with
    | none => .error (.assertion "pointer is valid")
    | some o =>
      let field (key : String) (r : Ref) : Except Fault Text := do
        return ['"'] ++ key.toList ++ ['"', ':', ' '] ++ (← q.repr ntop6 m n r) ++ [',', ' ']
      match o.ext with
      | .array items => do
        let body ← items.foldlM (fun os h => do
          return os ++ (← q.repr ntop6 m n (.obj h)) ++ [',', ' ']) []
        return ['['] ++ body ++ [']']
      | .nsRecord name type data => do
        return ['{'] ++ (← field "data" data) ++ (← field "name" name) ++ (← field "type" type) ++ ['}']
      | .option type length data => do
        return ['{'] ++ (← field "data" data) ++ (← field "length" length) ++ (← field "type" type)
          ++ ['}']
      | _ => o.leafRepr ntop6 m

/-- `size()` of `Array`, `Map` and `ValueStorage`. -/
def Obj.size (o : Obj) : Nat :=
  match o.ext with
  | .array items => items.length
  | .nsRecord _ _ _ => 3
  | .option _ _ _ => 3
  | .storage slots => slots.length
  | _ => 0

/-- What a user sees of a value. -/
structure Look where
  active : Bool
  repr : Except Fault Text
  raw : Except Fault (Option (List UInt8))
  uint64 : Except Fault Nat
  ip4 : Except Fault Text
  ip6 : Except Fault Text
  mac : Except Fault Text
  size : Nat

/-- What a user sees of a cell, given its `repr` and size. -/
def Cell.look (ntop6 : List UInt8 → Text) (m : Mem) (c : Cell) (repr : Except Fault Text)
    (size : Nat) : Look :=
  ⟨c.active, repr, c.raw m, c.uint64 m, c.ip4 m, c.ip6 ntop6 m, c.mac m, size⟩

/-- What a user sees of a pooled value. Arrays hold maps and maps hold leaves, so that `repr` goes three
levels deep. -/
def Property.look (ntop6 : List UInt8 → Text) (m : Mem) (q : Property) : Ref → Option Look
  | .null => none
  | .none => some (Cell.look ntop6 m {} (.ok []) 0)
  | .obj h => (q.obj? h).map fun o => o.cell.look ntop6 m (q.repr ntop6 m 3 (.obj h)) o.size
  | .slot h i => (q.slot? h i).map fun c => c.look ntop6 m (c.repr m) 0

/-- **What a user sees** at the end of `value(key)` and a path of `get` and `find` calls; `none` when
one of them throws. -/
def Property.observe (ntop6 : List UInt8 → Text) (m : Mem) (q : Property) (key : Key)
    (path : List Access) : Except Fault (Option Look) := do
  match ← q.value m key, path with
  | (_, .null), [] => return some (Cell.look ntop6 m {} (.ok []) 0)
  | (_, .null), _ :: _ => return none
  | (q, .obj h), path => return (← q.walk (.obj h) path).bind (q.look ntop6 m)
  | (q, .slot h i), path => return (← q.walk (.slot h i) path).bind (q.look ntop6 m)

end PacketMachine.Decode
