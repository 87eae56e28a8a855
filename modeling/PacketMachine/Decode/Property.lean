import PacketMachine.Decode.Value
import PacketMachine.Lib.Tables

/-!
# `Property`: pooled values and events

Model of `Property` (`property.hpp:97-165`, `property.cc:93-263`), of the parameters that the built-in
modules define and of the value classes behind them.

* `param_id`s are given in the order of the module names and, in a module, of the local names
  (`decoder.cc:70-87`): the constructors of `Param` are in this order, so that the id of a parameter
  is its number among them.
* A `Value*` is a `Handle`: the parameter it was retained for, and the index in its pool. A pool never
  shrinks, and an object in it is reused for later packets after its `clear()`.
* An object is a `Cell` and what its class adds (`Ext`). The constructors of `NSName`, `NSData` and
  `IcmpCode` leave their members unset.
* The decoders call the property in a few fixed ways; each of them is an `Op`, and `Op.apply` makes the
  calls in the order of the source. They keep pointers to the values they retained last for a parameter
  (`Property.last`).

Results: `obj?_retainValue`, `count_retainValue` and their like say what each call does to the pool as
a map from handles to objects.
-/

namespace PacketMachine.Decode

open PacketMachine.Lib

/-! ## Modules, events and parameters -/

/-- The modules, in the order of their names. -/
inductive Mod where
  | arp | dhcp | dns | dot1q | ethernet | icmp | ipv4 | ipv6 | mdns | pppoe | tcp | udp
  deriving DecidableEq, Repr

/-- The events. `mod` is the event with the name of the module. -/
inductive Event where
  | mod (m : Mod)
  | arpRequest | arpReply | dnsQuery | dnsReply | mdnsQuery | mdnsReply
  | tcpNewSession | tcpEstablished | tcpClosed
  deriving DecidableEq, Repr

/-- The parameters, in the order of their ids. -/
inductive Param where
  | arpHwDst | arpHwSize | arpHwSrc | arpHwType | arpOp | arpPrDst | arpPrSize | arpPrSrc | arpPrType
  | dhcpOptData | dhcpOptLength | dhcpOptType | dhcpOption | dhcpBootFileName | dhcpClientAddr
  | dhcpClientHwAddr | dhcpFlags | dhcpHops | dhcpHwAddrLen | dhcpHwType | dhcpMagicCookie
  | dhcpMsgType | dhcpNextServerAddr | dhcpOptions | dhcpRelayAgentAddr | dhcpSeconds
  | dhcpServerHostName | dhcpTransId | dhcpYourClientAddr
  | dnsAdditional | dnsAnswer | dnsAuthority | dnsData | dnsIsQuery | dnsName | dnsQuestion
  | dnsRecords | dnsTxId | dnsType
  | dot1qType | dot1qVlanId
  | ethernetDst | ethernetSrc | ethernetType
  | icmpChksum | icmpCode | icmpType
  | ipv4Data | ipv4Dst | ipv4Hdr | ipv4Opt | ipv4Src
  | ipv6Data | ipv6Hdr | ipv6Opt
  | mdnsAdditional | mdnsAnswer | mdnsAuthority | mdnsData | mdnsIsQuery | mdnsName | mdnsQuestion
  | mdnsRecords | mdnsTxId | mdnsType
  | pppoeCode | pppoePayloadLength | pppoeSessionId | pppoeType | pppoeVersion
  | tcpData | tcpDstPort | tcpHdr | tcpId | tcpOptdata | tcpRtt3wh | tcpSegment | tcpSrcPort
  | tcpTxClient | tcpTxServer
  | udpChksum | udpDstPort | udpHdr | udpLength | udpSrcPort
  deriving DecidableEq, Repr

/-- The classes of the values. -/
inductive Kind where
  | value | ipv4Addr | portNumber | nsType | icmpType | icmpCode | nsName | nsData
  | array | nsRecord | option | storage
  deriving DecidableEq, Repr

/-- The classes that hold other values. -/
def Kind.holds : Kind → Bool
  | array | nsRecord | option => true
  | _ => false

/-- The classes without members of their own that a decoder fills. -/
def Kind.plain : Kind → Bool
  | value | ipv4Addr | portNumber | nsType | icmpType | storage => true
  | _ => false

/-- The constructor that the module gives to `define_param` or `define_major_param`. -/
def Param.kind : Param → Kind
  | dhcpOption => .option
  | dhcpOptions => .array
  | dnsAdditional | dnsAnswer | dnsAuthority | dnsQuestion => .array
  | mdnsAdditional | mdnsAnswer | mdnsAuthority | mdnsQuestion => .array
  | dnsData | mdnsData => .nsData
  | dnsName | mdnsName => .nsName
  | dnsRecords | mdnsRecords => .nsRecord
  | dnsType | mdnsType => .nsType
  | icmpCode => .icmpCode
  | icmpType => .icmpType
  | ipv4Dst | ipv4Src => .ipv4Addr
  | ipv4Hdr | ipv6Hdr | tcpHdr | udpHdr => .storage
  | tcpDstPort | tcpSrcPort | udpDstPort | udpSrcPort => .portNumber
  | _ => .value

/-- `param_id`. -/
def Param.id (d : Param) : Nat := d.ctorIdx

/-! ## Objects -/

/-- A pooled `Value*`. -/
structure Handle where
  param : Param
  idx : Nat
  deriving DecidableEq, Repr

/-- A `Value*`, in a map or as `get` and `find` give it. -/
inductive Ref where
  /-- `nullptr`. -/
  | null
  /-- `value::NONE`. -/
  | none
  | obj (h : Handle)
  /-- Slot `i` of the `ValueStorage` `h`. -/
  | slot (h : Handle) (i : Nat)
  deriving DecidableEq, Repr

/-- What the class of a value adds to `Value`. -/
inductive Ext where
  | value
  | ipv4Addr
  | portNumber
  | nsType
  | icmpType
  | icmpCode (type : Nat)
  | nsName (base totalLen : Nat)
  | nsData (type base totalLen : Nat)
  | array (items : List Handle)
  | nsRecord (name type data : Ref)
  | option (type length data : Ref)
  | storage (slots : List Cell)
  deriving DecidableEq, Repr

/-- A pooled object. -/
structure Obj where
  cell : Cell := {}
  ext : Ext
  deriving DecidableEq, Repr

/-- The class of an object. -/
def Ext.kind : Ext → Kind
  | value => .value
  | ipv4Addr => .ipv4Addr
  | portNumber => .portNumber
  | nsType => .nsType
  | icmpType => .icmpType
  | icmpCode _ => .icmpCode
  | nsName _ _ => .nsName
  | nsData _ _ _ => .nsData
  | array _ => .array
  | nsRecord _ _ _ => .nsRecord
  | option _ _ _ => .option
  | storage _ => .storage

/-- `def->new_object()`. -/
def Obj.new : Kind → Obj
  | .value => { ext := .value }
  | .ipv4Addr => { ext := .ipv4Addr }
  | .portNumber => { ext := .portNumber }
  | .nsType => { ext := .nsType }
  | .icmpType => { ext := .icmpType }
  | .icmpCode => { ext := .icmpCode 0 }
  | .nsName => { ext := .nsName 0 0 }
  | .nsData => { ext := .nsData 0 0 0 }
  | .array => { ext := .array [] }
  | .nsRecord => { ext := .nsRecord .null .null .none }
  | .option => { ext := .option .null .null .null }
  | .storage => { ext := .storage [] }

/-- `clear()`: `Array`, `NSRecord` and `Option` have their own, which leaves `active_` alone. -/
def Obj.clear (o : Obj) : Obj :=
  match o.ext with
  | .array _ => { o with ext := .array [] }
  | .nsRecord name type _ => { o with ext := .nsRecord name type .none }
  | .option _ _ _ => { o with ext := .option .null .null .null }
  | _ => { o with cell := o.cell.clear }

/-- `Value::set`. -/
def Obj.set (o : Obj) (ptr : Ptr) (len : Nat) (e : Endian := .big) : Obj :=
  { o with cell := o.cell.set ptr len e }

/-- `Value::cpy`. -/
def Obj.cpy (o : Obj) (bytes : List UInt8) (e : Endian := .big) : Obj :=
  { o with cell := o.cell.cpy bytes e }

/-- `Array::push`. -/
def Obj.push (h : Handle) (o : Obj) : Obj :=
  match o.ext with
  | .array items => { o with ext := .array (items ++ [h]) }
  | _ => o

/-- `NSName::set_param`. -/
def Obj.setName (ptr len base totalLen : Nat) (o : Obj) : Obj :=
  { cell := o.cell.set (.pkt ptr) len, ext := .nsName base totalLen }

/-- `NSData::set_param`. -/
def Obj.setNsData (ptr len type base totalLen : Nat) (o : Obj) : Obj :=
  { cell := o.cell.set (.pkt ptr) len, ext := .nsData type base totalLen }

/-- `IcmpCode::set` and `set_type`. -/
def Obj.setCode (ptr len type : Nat) (o : Obj) : Obj :=
  { cell := o.cell.set (.pkt ptr) len, ext := .icmpCode type }

/-- `NSRecord::set_name`. -/
def Obj.recName (h : Handle) (o : Obj) : Obj :=
  match o.ext with
  | .nsRecord _ type data => { o with ext := .nsRecord (.obj h) type data }
  | _ => o

/-- `NSRecord::set_type`. -/
def Obj.recType (h : Handle) (o : Obj) : Obj :=
  match o.ext with
  | .nsRecord name _ data => { o with ext := .nsRecord name (.obj h) data }
  | _ => o

/-- `NSRecord::set_data`. -/
def Obj.recData (h : Handle) (o : Obj) : Obj :=
  match o.ext with
  | .nsRecord name type _ => { o with ext := .nsRecord name type (.obj h) }
  | _ => o

/-- `Option::set_type`, `set_length` and `set_data`. -/
def Obj.setOption (type length data : Handle) (o : Obj) : Obj :=
  { o with ext := .option (.obj type) (.obj length) (.obj data) }

/-! ## The property -/

/-- `src_addr_`, `dst_addr_`, `src_port_` and `dst_port_`. -/
structure Endpoints where
  srcAddr : List UInt8 := []
  dstAddr : List UInt8 := []
  srcPort : UInt16 := 0
  dstPort : UInt16 := 0
  deriving DecidableEq, Repr

/-- `Property`. -/
structure Property where
  param : List (List Obj) := []
  paramIdx : List Nat := []
  event : List Event := []
  eventIdx : Nat := 0
  ends : Endpoints := {}

/-- A pointer into the packet at hand or an earlier one, once another packet is at hand. -/
def Ptr.leave : Ptr → Ptr
  | .pkt off => .old 0 off
  | .old age off => .old (age + 1) off
  | ptr => ptr

def Cell.leave (c : Cell) : Cell := { c with ptr := c.ptr.leave }

def Obj.leave (o : Obj) : Obj where
  cell := o.cell.leave
  ext :=
    match o.ext with
    | .storage slots => .storage (slots.map Cell.leave)
    | ext => ext

/-- `Property::init`: the counters are reset. `pkt_` is another packet from now on, so that what was
left in the pools points into an earlier one. -/
def Property.init (q : Property) : Property :=
  { q with
    param := q.param.map (·.map Obj.leave)
    paramIdx := q.paramIdx.map fun _ => 0
    eventIdx := 0 }

/-- The objects that were ever made for a parameter. -/
def Property.objs (q : Property) (d : Param) : List Obj := (q.param[d.id]?).getD []

/-- `param_idx_`: the number of values retained, 0 beyond the end of the vector. -/
def Property.count (q : Property) (d : Param) : Nat := (q.paramIdx[d.id]?).getD 0

/-- The vectors reach to the parameter. -/
def Property.grow (q : Property) (psize : Nat) : Property :=
  { q with
    param := q.param ++ List.replicate (psize - q.param.length) []
    paramIdx := q.paramIdx ++ List.replicate (psize - q.param.length) 0 }

/-- `Property::retain_value`. -/
def Property.retainValue (q : Property) (d : Param) : Property × Handle :=
  let q := q.grow (d.id + 1)
  let idx := q.count d
  let objs := q.objs d
  let objs :=
    if idx < objs.length then objs.modify idx Obj.clear else objs ++ [Obj.new d.kind]
  ({ q with param := q.param.set d.id objs, paramIdx := q.paramIdx.set d.id (idx + 1) }, ⟨d, idx⟩)

/-- A call on a value. -/
def Property.modify (q : Property) (h : Handle) (f : Obj → Obj) : Property :=
  { q with param := q.param.modify h.param.id (·.modify h.idx f) }

/-- The value that was retained last for a parameter. -/
def Property.last (q : Property) (d : Param) : Handle := ⟨d, q.count d - 1⟩

/-- `Property::push_event`. -/
def Property.pushEvent (q : Property) (ev : Event) : Property :=
  { q with
    event := if q.eventIdx + 1 > q.event.length then q.event ++ [ev] else q.event.set q.eventIdx ev
    eventIdx := q.eventIdx + 1 }

/-- `Property::event`, for the indices below `event_idx()`. -/
def Property.events (q : Property) : List Event := q.event.take q.eventIdx

/-- The parameters of a `NameService`, with the classes they were defined with. -/
structure NameService where
  txId : Param
  isQuery : Param
  records : Param
  name : Param
  data : Param
  type : Param
  record : Nat → Param
  evQuery : Event
  evReply : Event
  txId_kind : txId.kind.plain = true
  isQuery_kind : isQuery.kind.plain = true
  records_kind : records.kind = .nsRecord
  name_kind : name.kind = .nsName
  data_kind : data.kind = .nsData
  type_kind : type.kind = .nsType
  record_kind : ∀ i, (record i).kind = .array

/-- What a decoder asks of the property. `set` and `cpy` alone are called on values of plain classes. -/
inductive Op where
  /-- `prop->retain_value(d)->set(ptr, len, e)`. -/
  | set (d : Param) (ptr : Ptr) (len : Nat) (e : Endian := .big) (hd : d.kind.plain = true := by decide)
  /-- `prop->retain_value(d)->cpy(..)`. -/
  | cpy (d : Param) (bytes : List UInt8) (e : Endian := .big) (hd : d.kind.plain = true := by decide)
  /-- The code of an ICMP packet, with its type. -/
  | code (ptr len type : Nat)
  /-- An array is retained. -/
  | array (d : Param) (hd : d.kind = .array := by decide)
  /-- A record is retained, with its name and its type, and pushed to the array of its section; the
  name is set. -/
  | record (ns : NameService) (target ptr len base totalLen : Nat)
  /-- The type of the record is set. -/
  | type (ns : NameService) (ptr len : Nat)
  /-- The data of the record is retained and set. -/
  | data (ns : NameService) (ptr len type base totalLen : Nat)
  /-- A DHCP option with its three values is retained, set and pushed. -/
  | option (ptr dataPtr len : Nat)
  | event (ev : Event)
  | srcAddr (bytes : List UInt8)
  | dstAddr (bytes : List UInt8)
  | srcPort (port : UInt16)
  | dstPort (port : UInt16)

/-- The calls of an `Op`. -/
def Op.apply (q : Property) : Op → Property
  | set d ptr len e _ =>
    let (q, h) := q.retainValue d
    q.modify h (·.set ptr len e)
  | cpy d bytes e _ =>
    let (q, h) := q.retainValue d
    q.modify h (·.cpy bytes e)
  | code ptr len ty =>
    let (q, h) := q.retainValue .icmpCode
    q.modify h (Obj.setCode ptr len ty)
  | array d _ => (q.retainValue d).1
  | record ns target ptr len base totalLen =>
    let arr := q.last (ns.record target)
    let (q, vRec) := q.retainValue ns.records
    let (q, vName) := q.retainValue ns.name
    let (q, vType) := q.retainValue ns.type
    let q := q.modify vRec (Obj.recName vName)
    let q := q.modify vRec (Obj.recType vType)
    let q := q.modify arr (Obj.push vRec)
    q.modify vName (Obj.setName ptr len base totalLen)
  | type ns ptr len => q.modify (q.last ns.type) (·.set (.pkt ptr) len)
  | data ns ptr len ty base totalLen =>
    let vRec := q.last ns.records
    let (q, vData) := q.retainValue ns.data
    let q := q.modify vRec (Obj.recData vData)
    q.modify vData (Obj.setNsData ptr len ty base totalLen)
  | option ptr dataPtr len =>
    let optArr := q.last .dhcpOptions
    let (q, vOption) := q.retainValue .dhcpOption
    let (q, vType) := q.retainValue .dhcpOptType
    let (q, vLength) := q.retainValue .dhcpOptLength
    let (q, vData) := q.retainValue .dhcpOptData
    let q := q.modify vType (·.set (.pkt ptr) 1)
    let q := q.modify vLength (·.set (.pkt (ptr + 1)) 1)
    let q := q.modify vData (·.set (.pkt dataPtr) len)
    let q := q.modify vOption (Obj.setOption vType vLength vData)
    q.modify optArr (Obj.push vOption)
  | event ev => q.pushEvent ev
  | srcAddr bytes => { q with ends := { q.ends with srcAddr := bytes } }
  | dstAddr bytes => { q with ends := { q.ends with dstAddr := bytes } }
  | srcPort port => { q with ends := { q.ends with srcPort := port } }
  | dstPort port => { q with ends := { q.ends with dstPort := port } }

/-- The calls of a list of operations. -/
def Property.exec (q : Property) (ops : List Op) : Property := ops.foldl Op.apply q

/-! ## The pool as a map from handles to objects -/

theorem Param.id_inj {d d' : Param} (h : d.id = d'.id) : d = d' := by
  unfold Param.id at h
  rw [← Param.ofNat_ctorIdx d, ← Param.ofNat_ctorIdx d', h]

theorem Param.id_eq_iff {d d' : Param} : d.id = d'.id ↔ d = d' :=
  ⟨Param.id_inj, congrArg _⟩

/-- The object of a handle. -/
def Property.obj? (q : Property) (h : Handle) : Option Obj := (q.objs h.param)[h.idx]?

/-- The vectors have the same length, and no more values are retained than were made. -/
structure Property.Sized (q : Property) : Prop where
  length : q.paramIdx.length = q.param.length
  count_le : ∀ d, q.count d ≤ (q.objs d).length

section Pool

variable {q : Property}

theorem objs_grow (n : Nat) (d : Param) : (q.grow n).objs d = q.objs d :=
  getD_append_replicate _ _ d.id _

theorem count_grow (n : Nat) (d : Param) : (q.grow n).count d = q.count d :=
  getD_append_replicate _ _ d.id _

theorem length_grow (hs : q.Sized) (d : Param) :
    d.id < (q.grow (d.id + 1)).param.length ∧ d.id < (q.grow (d.id + 1)).paramIdx.length := by
  have := hs.length
  simp only [Property.grow, List.length_append, List.length_replicate]
  omega

/-- The object that `retain_value` hands out. -/
def Property.fresh (q : Property) (d : Param) : Obj :=
  match q.obj? ⟨d, q.count d⟩ with
  | some o => o.clear
  | none => Obj.new d.kind

theorem retainValue_handle (d : Param) : (q.retainValue d).2 = ⟨d, q.count d⟩ := by
  rw [Property.retainValue, count_grow]

theorem count_retainValue (hs : q.Sized) (d d' : Param) :
    (q.retainValue d).1.count d' = if d' = d then q.count d + 1 else q.count d' := by
  have hl := (length_grow hs d).2
  unfold Property.retainValue
  rw [Property.count, getD_set hl, count_grow]
  exact if_congr Param.id_eq_iff rfl (count_grow _ d')

theorem objs_retainValue (hs : q.Sized) (d d' : Param) :
    (q.retainValue d).1.objs d' =
      if d' = d then
        if q.count d < (q.objs d).length then (q.objs d).modify (q.count d) Obj.clear
        else q.objs d ++ [Obj.new d.kind]
      else q.objs d' := by
  have hl := (length_grow hs d).1
  unfold Property.retainValue
  rw [Property.objs, getD_set hl, count_grow, objs_grow]
  exact if_congr Param.id_eq_iff rfl (objs_grow _ d')

/-- **`retain_value` touches one handle.** -/
theorem obj?_retainValue (hs : q.Sized) (d : Param) (h : Handle) :
    (q.retainValue d).1.obj? h = if h = ⟨d, q.count d⟩ then some (q.fresh d) else q.obj? h := by
  have hle := hs.count_le d
  obtain ⟨d', i⟩ := h
  unfold Property.fresh
  simp only [Property.obj?, objs_retainValue hs, Handle.mk.injEq]
  by_cases hd : d' = d
  · subst hd
    by_cases hc : q.count d' < (q.objs d').length
    · simp only [if_true, if_pos hc, true_and, List.getElem?_modify]
      by_cases hi : q.count d' = i
      · subst hi
        simp [List.getElem?_eq_getElem hc]
      · rw [if_neg (fun e => hi e.symm)]
        simp [hi]
    · have heq : q.count d' = (q.objs d').length := by omega
      rw [if_pos rfl, if_neg hc, heq, List.getElem?_append, List.getElem?_eq_none (Nat.le_refl _)]
      by_cases hi : i < (q.objs d').length
      · rw [if_pos hi, if_neg (fun e => Nat.ne_of_lt hi e.2)]
      · rw [if_neg hi]
        by_cases he : i = (q.objs d').length
        · subst he
          simp
        · rw [if_neg (fun e => he e.2), List.getElem?_eq_none (Nat.le_of_not_lt hi),
            List.getElem?_eq_none (by simp only [List.length_singleton]; omega)]
  · simp [hd]

theorem count_modify (h : Handle) (f : Obj → Obj) (d : Param) :
    (q.modify h f).count d = q.count d := rfl

theorem objs_modify (h : Handle) (f : Obj → Obj) (d : Param) :
    (q.modify h f).objs d = if d = h.param then (q.objs d).modify h.idx f else q.objs d := by
  rw [Property.objs, Property.modify, getD_modify _ (by simp)]
  exact if_congr Param.id_eq_iff rfl rfl

theorem obj?_modify (h : Handle) (f : Obj → Obj) (h' : Handle) :
    (q.modify h f).obj? h' = if h' = h then (q.obj? h).map f else q.obj? h' := by
  obtain ⟨d, i⟩ := h
  obtain ⟨d', i'⟩ := h'
  simp only [Property.obj?, objs_modify, Handle.mk.injEq]
  by_cases hd : d' = d
  · subst hd
    rw [if_pos rfl, List.getElem?_modify]
    by_cases hi : i' = i
    · subst hi
      simp
    · rw [if_neg (fun e => hi e.2)]
      cases (q.objs d')[i']? <;> simp [Ne.symm hi]
  · rw [if_neg hd, if_neg (fun e => hd e.1)]

theorem Property.Sized.retainValue (hs : q.Sized) (d : Param) : (q.retainValue d).1.Sized := by
  constructor
  · simp [Property.retainValue, Property.grow, hs.length]
  · intro d'
    have hle := hs.count_le d'
    rw [count_retainValue hs, objs_retainValue hs]
    by_cases h : d' = d
    · subst h
      simp only [if_true]
      split <;> simp <;> omega
    · simpa [h] using hle

theorem Property.Sized.modify (hs : q.Sized) (h : Handle) (f : Obj → Obj) : (q.modify h f).Sized := by
  constructor
  · simpa [Property.modify] using hs.length
  · intro d
    have hle := hs.count_le d
    rw [count_modify, objs_modify]
    split
    · rwa [List.length_modify]
    · exact hle

end Pool

end PacketMachine.Decode
