import PacketMachine.Decode.Visit
import PacketMachine.Decode.Reuse

/-!
# Looking up a parameter by its name or its key

Model of the parameter map of `Decoder::init` (`decoder.cc:70-87`, `module.cc:57-125`), of
`lookup_param_key`, and of `has_value` and `value` with their accesses to the vectors
(`property.cc:204-263`).

* The key of a minor parameter has the id of its major one. `Property::NULL_KEY` has the id -1.
* `param_idx_` and `param_` start empty, and `retain_value` lets them grow to the id that it is given;
  `has_value` and `value` use an id as it comes. An access outside a vector is a fault here.
* `Reached` are the states after any calls of `init` and `decode`, with what was retained since the last
  `init` and what was ever retained.

Results:
* `params_sorted`: the ids are in the order of the names of the modules and of the local names.
* `lt_length_exec`: the vectors reach exactly to the largest id that was retained.
* `valueKey_eq`: within the vectors, `value(key)` is the `Property.value` of this development.
* **`lookup_defined_iff`**: the look-ups of a name are all defined exactly when the name is known and a
  parameter with at least its id was retained before.
-/

namespace PacketMachine.Decode

open PacketMachine.Lib

variable {τ : Type}

/-! ## Names and keys -/

/-- The name that a parameter has in its module. -/
def Param.localName : Param → String
  | arpHwDst => "hw_dst"
  | arpHwSize => "hw_size"
  | arpHwSrc => "hw_src"
  | arpHwType | dhcpHwType => "hw_type"
  | arpOp => "op"
  | arpPrDst => "pr_dst"
  | arpPrSize => "pr_size"
  | arpPrSrc => "pr_src"
  | arpPrType => "pr_type"
  | dhcpOptData => "_opt_data"
  | dhcpOptLength => "_opt_length"
  | dhcpOptType => "_opt_type"
  | dhcpOption => "_option"
  | dhcpBootFileName => "boot_file_name"
  | dhcpClientAddr => "client_addr"
  | dhcpClientHwAddr => "client_hw_addr"
  | dhcpFlags => "flags"
  | dhcpHops => "hops"
  | dhcpHwAddrLen => "hw_addr_len"
  | dhcpMagicCookie => "magic_cookie"
  | dhcpMsgType => "msg_type"
  | dhcpNextServerAddr => "next_server_addr"
  | dhcpOptions => "options"
  | dhcpRelayAgentAddr => "relay_agent_addr"
  | dhcpSeconds => "seconds"
  | dhcpServerHostName => "server_host_name"
  | dhcpTransId => "trans_id"
  | dhcpYourClientAddr => "your_client_addr"
  | dnsAdditional | mdnsAdditional => "additional"
  | dnsAnswer | mdnsAnswer => "answer"
  | dnsAuthority | mdnsAuthority => "authority"
  | dnsData | mdnsData | ipv4Data | ipv6Data | tcpData => "data"
  | dnsIsQuery | mdnsIsQuery => "is_query"
  | dnsName | mdnsName => "name"
  | dnsQuestion | mdnsQuestion => "question"
  | dnsRecords | mdnsRecords => "records"
  | dnsTxId | mdnsTxId => "tx_id"
  | dnsType | mdnsType | dot1qType | ethernetType | icmpType | pppoeType => "type"
  | dot1qVlanId => "vlan_id"
  | ethernetDst | ipv4Dst => "dst"
  | ethernetSrc | ipv4Src => "src"
  | icmpChksum | udpChksum => "chksum"
  | icmpCode | pppoeCode => "code"
  | ipv4Hdr | ipv6Hdr | tcpHdr | udpHdr => "hdr"
  | ipv4Opt | ipv6Opt => "opt"
  | pppoePayloadLength => "payload_length"
  | pppoeSessionId => "session_id"
  | pppoeVersion => "version"
  | tcpDstPort | udpDstPort => "dst_port"
  | tcpId => "id"
  | tcpOptdata => "optdata"
  | tcpRtt3wh => "rtt_3wh"
  | tcpSegment => "segment"
  | tcpSrcPort | udpSrcPort => "src_port"
  | tcpTxClient => "tx_client"
  | tcpTxServer => "tx_server"
  | udpLength => "length"

/-- `ParamDef::name`. -/
def Param.name (d : Param) : String := d.mod.name ++ "." ++ d.localName

/-- `params_`. -/
def params : List Param := (List.range (Param.udpSrcPort.id + 1)).map Param.ofNat

/-- `param_map_`: each parameter, and its minor parameters behind it. -/
def paramMap : List (String × Key) :=
  params.flatMap fun d => (d.name, .param d) ::
    (List.finRange d.minors.length).map fun i => (d.name ++ "." ++ (d.minors.get i).1, .minor d i)

/-- `Decoder::lookup_param_key`; `none` is `Property::NULL_KEY`. -/
def lookupParamKey (name : String) : Option Key := (paramMap.find? (·.1 = name)).map Prod.snd

/-- The parameter whose pool a key leads to. -/
def Key.pool : Key → Param
  | param d => d
  | minor d _ => d

/-- `ParamKey::id`. -/
def keyId : Option Key → Int
  | none => -1
  | some key => key.pool.id

/-- A parameter has its id as its position. -/
theorem params_id (d : Param) : params[d.id]? = some d := by
  have hlt : d.id < Param.udpSrcPort.id + 1 := by
    cases d <;> decide
  rw [params, List.getElem?_map, List.getElem?_range hlt]
  exact congrArg some (Param.ofNat_ctorIdx d)

/-- **The order of the ids**: modules by their names, parameters of a module by their local names. -/
theorem params_sorted : params.Pairwise fun d d' =>
    d.mod.name < d'.mod.name ∨ d.mod = d'.mod ∧ d.localName < d'.localName := by
  have htrans : IsTrans Param fun d d' =>
      d.mod.name < d'.mod.name ∨ d.mod = d'.mod ∧ d.localName < d'.localName := by
    refine ⟨fun d₁ d₂ d₃ h h' => ?_⟩
    rcases h with h | ⟨hmod, h⟩ <;> rcases h' with h' | ⟨hmod', h'⟩
    · exact .inl (String.lt_trans h h')
    · exact .inl (hmod' ▸ h)
    · exact .inl (hmod ▸ h')
    · exact .inr ⟨hmod.trans hmod', String.lt_trans h h'⟩
  -- it is enough to compare neighbours
  refine List.isChain_iff_pairwise.mp ?_
  decide +kernel

/-! ## `has_value` and `value` -/

/-- `v[i]`. -/
def indexed {α : Type} (v : List α) : Int → Except Fault α
  | .ofNat n =>
    match v[n]? with
    | some a => .ok a
    | none => .error (.index n v.length)
  | .negSucc n => .error (.index (.negSucc n) v.length)

/-- `Property::has_value(key)`. -/
def Property.hasValueKey (q : Property) (key : Option Key) : Except Fault Bool := do
  return 0 < (← indexed q.paramIdx (keyId key))

/-- `Property::has_value(name)`. -/
def Property.hasValue (q : Property) (name : String) : Except Fault Bool :=
  match lookupParamKey name with
  | none => return false
  | some key => q.hasValueKey (some key)

/-- `Property::value(key)`. -/
def Property.valueKey (q : Property) (m : Mem) (key : Option Key) :
    Except Fault (Property × Place) := do
  if 0 < (← indexed q.paramIdx (keyId key)) then
    let objs ← indexed q.param (keyId key)
    let _ ← indexed objs 0
    match key with
    | none => .error (.assertion "def")
    | some (.param d) => return (q, .obj ⟨d, 0⟩)
    | some (.minor d i) => q.valueMinor m d i
  else return (q, .null)

/-- `Property::value(name)`. -/
def Property.valueName (q : Property) (m : Mem) (name : String) : Except Fault (Property × Place) :=
  match lookupParamKey name with
  | none => return (q, .null)
  | some key => q.valueKey m (some key)

/-- The parameter with this name has a value, given the parameters that were retained. -/
def Named (cur : List Param) (name : String) : Prop :=
  ∃ key, lookupParamKey name = some key ∧ key.pool ∈ cur

/-- **The look-ups of a name are defined**, by the name and by the key that it has, and say that there
is no value when none was retained. -/
structure Property.Answers (q : Property) (m : Mem) (cur : List Param) (name : String) : Prop where
  hasValue : Returns (q.hasValue name) fun b => ¬ Named cur name → b = false
  value : Returns (q.valueName m name) fun r => ¬ Named cur name → r.2 = .null
  hasValueKey : Returns (q.hasValueKey (lookupParamKey name)) fun b => ¬ Named cur name → b = false
  valueKey : Returns (q.valueKey m (lookupParamKey name)) fun r => ¬ Named cur name → r.2 = .null

section Vectors

variable {α : Type} {v : List α} {q : Property} {m : Mem}

theorem indexed_of_lt {n : Nat} (h : n < v.length) : indexed v n = .ok v[n] := by
  show indexed v (.ofNat n) = _
  rw [indexed, List.getElem?_eq_getElem h]

theorem lt_of_indexed {i : Int} {Q : α → Prop} (h : Returns (indexed v i) Q) :
    ∃ n : Nat, i = n ∧ n < v.length := by
  obtain ⟨a, ha, -⟩ := h
  cases i with
  | ofNat n =>
    refine ⟨n, rfl, ?_⟩
    by_contra hn
    have hnone : v[n]? = none := List.getElem?_eq_none (Nat.le_of_not_lt hn)
    rw [indexed, hnone] at ha
    cases ha
  | negSucc n => cases ha

/-- Within the vector the count is read. -/
theorem indexed_count {d : Param} (h : d.id < q.paramIdx.length) :
    indexed q.paramIdx d.id = .ok (q.count d) := by
  rw [indexed_of_lt h, Property.count, List.getElem?_eq_getElem h]
  rfl

theorem hasValueKey_eq {key : Key} (h : key.pool.id < q.paramIdx.length) :
    q.hasValueKey (some key) = .ok (decide (0 < q.count key.pool)) := by
  rw [Property.hasValueKey, keyId, indexed_count h]
  rfl

/-- **Within the vectors `value(key)` reads the pool.** -/
theorem valueKey_eq (hs : q.Sized) {key : Key} (h : key.pool.id < q.paramIdx.length) :
    q.valueKey m (some key) = q.value m key := by
  have hp : key.pool.id < q.param.length := hs.length ▸ h
  have hobjs : indexed q.param key.pool.id = .ok (q.objs key.pool) := by
    rw [indexed_of_lt hp, Property.objs, List.getElem?_eq_getElem hp]
    rfl
  unfold Property.valueKey
  simp only [keyId, indexed_count h, hobjs, bind, Except.bind]
  by_cases hc : 0 < q.count key.pool
  · have hne : 0 < (q.objs key.pool).length := lt_of_lt_of_le hc (hs.count_le _)
    have hzero : indexed (q.objs key.pool) 0 = .ok ((q.objs key.pool)[0]) := indexed_of_lt hne
    rw [if_pos hc, hzero]
    cases key with
    | param d => exact (if_pos hc).symm
    | minor d i => exact (if_pos hc).symm
  · rw [if_neg hc]
    cases key with
    | param d => exact (if_neg hc).symm
    | minor d i => exact (if_neg hc).symm

/-- A parameter that was not retained has no value. -/
theorem value_absent {key : Key} (hc : q.count key.pool = 0) : q.value m key = .ok (q, .null) := by
  have hc' : ¬ 0 < q.count key.pool := by omega
  cases key with
  | param d => exact if_neg hc'
  | minor d i => exact if_neg hc'

end Vectors

/-! ## The vectors grow with what is retained -/

section Length

variable {q : Property}

theorem length_retainValue (hs : q.Sized) (d : Param) :
    (q.retainValue d).1.paramIdx.length = max q.paramIdx.length (d.id + 1) := by
  simp only [Property.retainValue, Property.grow, List.length_set, List.length_append,
    List.length_replicate, hs.length]
  omega

theorem length_modify (q : Property) (h : Handle) (f : Obj → Obj) :
    (q.modify h f).paramIdx.length = q.paramIdx.length := rfl

/-- A call lets the vectors reach to what it retains. -/
theorem Op.lt_length_apply (hs : q.Sized) (op : Op) (n : Nat) :
    n < (op.apply q).paramIdx.length ↔ n < q.paramIdx.length ∨ ∃ d ∈ op.retains, n ≤ d.id := by
  have h1 := fun a => length_retainValue hs a
  have h2 := fun a b => length_retainValue (hs.retainValue a) b
  have h3 := fun a b c => length_retainValue ((hs.retainValue a).retainValue b) c
  have h4 := fun a b c d =>
    length_retainValue (((hs.retainValue a).retainValue b).retainValue c) d
  cases op with
  | record ns target ptr len base totalLen =>
    simp only [Op.apply, Op.retains, length_modify, h1, h2, h3, List.mem_cons, List.not_mem_nil,
      or_false, exists_eq_or_imp, exists_eq_left]
    omega
  | option ptr dataPtr len =>
    simp only [Op.apply, Op.retains, length_modify, h1, h2, h3, h4, List.mem_cons, List.not_mem_nil,
      or_false, exists_eq_or_imp, exists_eq_left]
    omega
  | set d ptr len e _ =>
    simp only [Op.apply, Op.retains, length_modify, h1, List.mem_singleton, exists_eq_left]
    omega
  | cpy d bytes e _ =>
    simp only [Op.apply, Op.retains, length_modify, h1, List.mem_singleton, exists_eq_left]
    omega
  | code ptr len ty =>
    simp only [Op.apply, Op.retains, length_modify, h1, List.mem_singleton, exists_eq_left]
    omega
  | array d _ =>
    simp only [Op.apply, Op.retains, h1, List.mem_singleton, exists_eq_left]
    omega
  | data ns ptr len ty base totalLen =>
    simp only [Op.apply, Op.retains, length_modify, h1, List.mem_singleton, exists_eq_left]
    omega
  | _ => simp [Op.apply, Op.retains, Property.modify, Property.pushEvent]

/-- **The vectors reach to the largest id that was retained.** -/
theorem lt_length_exec (hs : q.Sized) (ops : List Op) (n : Nat) :
    n < (q.exec ops).paramIdx.length ↔ n < q.paramIdx.length ∨ ∃ d ∈ retained ops, n ≤ d.id := by
  induction ops generalizing q with
  | nil => simp [Property.exec, retained]
  | cons op ops ih =>
    rw [Property.exec_cons, ih (hs.apply op), Op.lt_length_apply hs, retained_cons]
    simp only [List.mem_append, or_and_right, exists_or, or_assoc]

end Length

/-! ## Every state -/

/-- **The states after calls of `init` and `decode`**, from the first `init` on: the worker, the packet,
the parameters retained since the last `init`, and those ever retained. -/
inductive Reached (cfg : TcpConfig τ) : Worker τ → Packet → List Param → List Param → Prop
  | first (tcp : TcpState τ) (p : Packet) : Reached cfg { tcp, prop := ({} : Property).init } p [] []
  | init {w : Worker τ} {p : Packet} {cur all : List Param} (h : Reached cfg w p cur all)
    (p' : Packet) : Reached cfg { w with prop := w.prop.init } p' [] all
  | decode {w w' : Worker τ} {p : Packet} {cur all : List Param} {vs : List Visit}
    (h : Reached cfg w p cur all)
    (hloop : Loop cfg p.tv p.mem (some .ethernet) (Payload.reset p) w vs w') :
    Reached cfg w' p (cur ++ retained (vs.flatMap Visit.ops)) (all ++ retained (vs.flatMap Visit.ops))

/-- What holds of them. -/
structure Property.Grown (hi : Nat) (cur all : List Param) (q : Property) : Prop where
  wf : q.WF
  headed : q.Headed hi
  count : ∀ d, q.count d = cur.count d
  length : ∀ n, n < q.paramIdx.length ↔ ∃ d ∈ all, n ≤ d.id

section States

variable {cfg : TcpConfig τ} {w : Worker τ} {p : Packet} {cur all : List Param}

/-- The calls of a run of the loop fit the packet. -/
theorem Visit.Sound.fits {m : Mem} {hi : Nat} {v : Visit} (h : v.Sound m hi) :
    ∀ op ∈ v.ops, op.Fits hi := by
  have hevent : Op.Calm hi (.event (.mod v.mod)) := Op.calm_event _
  exact List.forall_mem_cons.mpr ⟨hevent.1, h.stop ▸ h.leads.fits.ops⟩

theorem Reached.grown (h : Reached cfg w p cur all) : w.prop.Grown p.data.length cur all := by
  induction h with
  | first tcp p =>
    refine ⟨Property.wf_empty.init, Property.all_init _, fun d => ?_, ?_⟩
    · rw [Property.count_init]
      rfl
    · simp [Property.init]
  | @init w p cur all h p' ih =>
    refine ⟨ih.wf.init, Property.all_init _, fun d => ?_, fun n => ?_⟩
    · rw [Property.count_init]
      rfl
    · rw [← ih.length n]
      simp [Property.init]
  | @decode w w' p cur all vs h hloop ih =>
    have hrank : Mod.ethernet.rank < 6 := by simp [Mod.rank]
    obtain ⟨w'', -, vs', hloop', hsound, -⟩ : Returns (decodeLoop cfg p.tv p.mem 6 .ethernet _ w) _ :=
      decodeLoop_loop 6 hrank (Payload.wf_reset p) p.has_all (by simp) (by simp)
    obtain ⟨rfl, rfl⟩ := hloop.unique hloop'
    rw [hloop.exec_eq]
    refine ⟨ih.wf.exec _, exec_headed ih.wf ih.headed ?_, fun d => ?_, fun n => ?_⟩
    · intro op hop
      obtain ⟨v, hv, hop⟩ := List.mem_flatMap.mp hop
      exact (hsound v hv).fits op hop
    · rw [count_exec ih.wf.sized, ih.count, List.count_append]
    · rw [lt_length_exec ih.wf.sized, ih.length]
      simp only [List.mem_append, or_and_right, exists_or]

/-- Absence is reported where the vectors reach. -/
theorem Property.Grown.answers {q : Property} {m : Mem} {hi : Nat} (h : q.Grown hi cur all)
    (hm : m.Has 0 hi) {name : String} {key : Key} (hkey : lookupParamKey name = some key)
    (hlt : key.pool.id < q.paramIdx.length) : q.Answers m cur name := by
  have habsent : ¬ Named cur name → q.count key.pool = 0 := by
    intro hn
    rw [h.count, List.count_eq_zero]
    exact fun hmem => hn ⟨key, hkey, hmem⟩
  have hhas : Returns (q.hasValueKey (some key)) fun b => ¬ Named cur name → b = false := by
    rw [hasValueKey_eq hlt]
    refine returns_ok.mpr fun hn => ?_
    rw [habsent hn]
    rfl
  have hvalue : Returns (q.valueKey m (some key)) fun r => ¬ Named cur name → r.2 = .null := by
    obtain ⟨r, hr, -⟩ := value_returns (Sim.refl h.wf) h.headed hm key
    rw [valueKey_eq h.wf.sized hlt]
    refine ⟨r, hr, fun hn => ?_⟩
    rw [value_absent (habsent hn)] at hr
    obtain rfl := Except.ok.inj hr
    rfl
  constructor
  · rw [Property.hasValue, hkey]
    exact hhas
  · rw [Property.valueName, hkey]
    exact hvalue
  · rw [hkey]
    exact hhas
  · rw [hkey]
    exact hvalue

/-- **The look-ups of a name are defined exactly when the name is known and a parameter with at least
its id was retained before**, for this packet or an earlier one. -/
theorem lookup_defined_iff (h : Reached cfg w p cur all) (name : String) :
    w.prop.Answers p.mem cur name ↔
      ∃ key, lookupParamKey name = some key ∧ ∃ d ∈ all, key.pool.id ≤ d.id := by
  have hgrown := h.grown
  constructor
  · intro hans
    obtain ⟨b, hb, -⟩ := hans.hasValueKey
    -- the id of the key was an index of `param_idx_`
    obtain ⟨n, hn, hlt⟩ := lt_of_indexed (returns_of_bind hb)
    cases hkey : lookupParamKey name with
    | none =>
      rw [hkey] at hn
      cases hn
    | some key =>
      rw [hkey] at hn
      obtain rfl : key.pool.id = n := Int.ofNat.inj hn
      exact ⟨key, rfl, (hgrown.length _).mp hlt⟩
  · rintro ⟨key, hkey, hall⟩
    exact hgrown.answers p.has_all hkey ((hgrown.length _).mpr hall)

end States

/-- **After an ARP packet, looking for a TCP port reads behind the end of `param_idx_`**, and so does an
unknown name by its key, before its start. -/
theorem absent_outside_vector :
    (do let w ← Worker.process statelessConfig { tcp := { table := [] } } arpWhole
        w.prop.hasValue "TCP.src_port") = .error (.index 77 44) ∧
    (do let w ← Worker.process statelessConfig { tcp := { table := [] } } arpWhole
        w.prop.hasValueKey (lookupParamKey "TCP.none")) = .error (.index (-1) 44) := by
  decide +kernel

end PacketMachine.Decode
