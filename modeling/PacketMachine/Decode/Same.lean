import PacketMachine.Decode.Within

/-!
# Properties that look the same

Two properties may hold different objects in their pools and still show the same values: what is not
live is out of reach, an inactive value shows nothing of its bytes, `buf_` is seen up to `len_` only, and
a slot of a storage is computed anew at each use. `Sim` is this relation.

Results:
* **`Sim.apply`** and **`Sim.exec`**: the same operations keep two properties the same. The objects that
  `retain_value` hands out differ in what the operation then overwrites.
* **`Sim.observe`**: properties that are the same show the same values, through every path of `get` and
  `find`. The slots of a header are not cleared with it: `get` and `size` of a header are left out
  (`Sim.observe_header`).
-/

namespace PacketMachine.Decode

open PacketMachine.Lib

/-- Two cells that show the same bytes. -/
structure Cell.Same (c c' : Cell) : Prop where
  active : c.active = c'.active
  ptr : c.active = true → c.ptr = c'.ptr
  len : c.active = true → c.len = c'.len
  endian : c.active = true → c.endian = c'.endian
  buf : c.active = true → c.ptr = .own → c.buf.take c.len = c'.buf.take c'.len

/-- Two objects of a class that differ in the cell, and a storage in its slots, only. -/
structure Obj.Same (o o' : Obj) : Prop where
  cell : o.cell.Same o'.cell
  ext : o.ext = o'.ext ∨ o.ext.kind = .storage ∧ o'.ext.kind = .storage

/-- **Two properties that look the same.** -/
structure Sim (q q' : Property) : Prop where
  wf : q.WF
  wf_right : q'.WF
  count : ∀ d, q.count d = q'.count d
  eventIdx : q.eventIdx = q'.eventIdx
  events : q.events = q'.events
  objs : ∀ h o o', q.Live h → q.obj? h = some o → q'.obj? h = some o' → o.Same o'

section Objects

variable {c c' : Cell} {o o' : Obj} {d : Param}

theorem Cell.Same.symm (h : c.Same c') : c'.Same c := by
  obtain ⟨ha, hp, hl, he, hb⟩ := h
  rw [ha] at hp hl he hb
  exact ⟨ha.symm, fun hc => (hp hc).symm, fun hc => (hl hc).symm, fun hc => (he hc).symm,
    fun hc ho => (hb hc ((hp hc).trans ho)).symm⟩

theorem Obj.Same.symm (h : o.Same o') : o'.Same o :=
  ⟨h.cell.symm, h.ext.imp Eq.symm And.symm⟩

theorem Cell.same_of_inactive (h : c.active = false) (h' : c'.active = false) : c.Same c' := by
  constructor <;> simp [h, h']

theorem Cell.same_set (ptr : Ptr) (len : Nat) (e : Endian) (hp : ptr ≠ .own) :
    (c.set ptr len e).Same (c'.set ptr len e) :=
  ⟨rfl, fun _ => rfl, fun _ => rfl, fun _ => rfl, fun _ h => absurd h hp⟩

theorem Cell.same_cpy (bytes : List UInt8) (e : Endian) : (c.cpy bytes e).Same (c'.cpy bytes e) := by
  refine ⟨rfl, fun _ => rfl, fun _ => rfl, fun _ => rfl, fun _ _ => ?_⟩
  simp [Cell.cpy]

theorem Ext.same_of_plain {e e' : Ext} (h : e.kind = d.kind) (h' : e'.kind = d.kind)
    (hd : d.kind.plain = true) : e = e' ∨ e.kind = .storage ∧ e'.kind = .storage := by
  rw [← h'] at h hd
  clear h'
  cases e <;> cases e' <;> simp_all [Ext.kind, Kind.plain]

/-- Objects that are not storages have equal members. -/
theorem Obj.Same.ext_eq (h : o.Same o') (hk : o.ext.kind ≠ .storage) : o.ext = o'.ext :=
  h.ext.resolve_right fun hs => hk hs.1

theorem Obj.Same.push (h : o.Same o') (hk : o.ext.kind ≠ .storage) (i : Handle) :
    (o.push i).Same (o'.push i) := by
  have he := h.ext_eq hk
  unfold Obj.push
  rw [← he]
  split
  · exact ⟨h.cell, .inl rfl⟩
  · exact h

theorem Obj.Same.recData (h : o.Same o') (hk : o.ext.kind ≠ .storage) (i : Handle) :
    (o.recData i).Same (o'.recData i) := by
  have he := h.ext_eq hk
  unfold Obj.recData
  rw [← he]
  split
  · exact ⟨h.cell, .inl rfl⟩
  · exact h

/-- Fresh objects of a plain class are the same. -/
theorem Obj.Fresh.same (h : o.Fresh d) (h' : o'.Fresh d) (hd : d.kind.plain = true) : o.Same o' :=
  ⟨Cell.same_of_inactive h.inactive h'.inactive, Ext.same_of_plain h.kind h'.kind hd⟩

end Objects

/-! ## Operations -/

section Operations

variable {q q' : Property}

theorem Sim.next_eq (h : Sim q q') (d : Param) : q.next d = q'.next d := by
  rw [Property.next, h.count]
  rfl

theorem Sim.last_eq (h : Sim q q') (d : Param) : q.last d = q'.last d := by
  rw [Property.last, h.count]
  rfl

theorem Sim.live (h : Sim q q') {i : Handle} : q.Live i ↔ q'.Live i := by
  rw [Property.Live, Property.Live, h.count]

theorem Sim.symm (h : Sim q q') : Sim q' q :=
  ⟨h.wf_right, h.wf, fun d => (h.count d).symm, h.eventIdx.symm, h.events.symm,
    fun i o o' hl ho ho' => (h.objs i o' o (h.live.mpr hl) ho' ho).symm⟩

/-- The object on the other side. -/
theorem Sim.other (h : Sim q q') {i : Handle} {o : Obj} (hl : q.Live i) (ho : q.obj? i = some o) :
    ∃ o', q'.obj? i = some o' ∧ o.Same o' := by
  obtain ⟨o', ho'⟩ := h.wf_right.sized.obj?_live (h.live.mp hl)
  exact ⟨o', ho', h.objs i o o' hl ho ho'⟩

/-- The same operation leaves the same objects. -/
theorem Touch.same (h : Sim q q') {op : Op} {i : Handle} {o : Obj} (ht : Touch q op i o)
    (hop : ∀ d ptr len e hd, op = .set d ptr len e hd → ptr ≠ .own) (hl : (op.apply q).Live i) :
    ∃ o', Touch q' op i o' ∧ o.Same o' := by
  have hs := h.wf.sized
  have hf := h.wf.fresh
  have hf' := h.wf_right.fresh
  -- a container that the operation adds to was live before
  have hupd : ∀ {i : Handle} {o : Obj}, (op.apply q).Live i → i.param ∉ op.retains →
      q.obj? i = some o → ∃ o', q'.obj? i = some o' ∧ o.Same o' := fun hl hn ho =>
    h.other (hl.of_not_retained hs hn) ho
  cases ht with
  | set hd =>
    rw [h.next_eq]
    refine ⟨_, .set hd, ⟨Cell.same_set _ _ _ (hop _ _ _ _ _ rfl), ?_⟩⟩
    exact Ext.same_of_plain (hf _).kind (hf' _).kind hd
  | cpy hd =>
    rw [h.next_eq]
    exact ⟨_, .cpy hd, ⟨Cell.same_cpy _ _, Ext.same_of_plain (hf _).kind (hf' _).kind hd⟩⟩
  | code =>
    rw [h.next_eq]
    exact ⟨_, .code, ⟨Cell.same_set _ _ _ (by simp), .inl rfl⟩⟩
  | array hd =>
    rw [h.next_eq]
    refine ⟨_, .array hd, ⟨Cell.same_of_inactive (hf _).inactive (hf' _).inactive, .inl ?_⟩⟩
    exact ((hf _).array hd).trans ((hf' _).array hd).symm
  | recordName ns =>
    rw [h.next_eq]
    exact ⟨_, .recordName ns, ⟨Cell.same_set _ _ _ (by simp), .inl rfl⟩⟩
  | recordArray ns ho =>
    have hk := (h.wf.objs _ _ ho).kind
    obtain ⟨o', ho', hsame⟩ := hupd hl (by simp [Op.retains, Property.last, ns.ne.2.2.2.2]) ho
    rw [h.last_eq] at ho'
    rw [h.last_eq, h.next_eq]
    exact ⟨_, .recordArray ns ho', hsame.push (by rw [hk]; simp [Property.last, ns.record_kind]) _⟩
  | recordMap ns =>
    obtain ⟨name, type, he⟩ := (hf ns.records).nsRecord ns.records_kind
    obtain ⟨name', type', he'⟩ := (hf' ns.records).nsRecord ns.records_kind
    simp only [h.next_eq]
    refine ⟨_, .recordMap ns, ⟨?_, .inl ?_⟩⟩
    · simp only [Obj.recType, Obj.recName, he, he']
      exact Cell.same_of_inactive (hf _).inactive (hf' _).inactive
    · simp only [Obj.recType, Obj.recName, he, he']
  | recordType ns =>
    rw [h.next_eq]
    exact ⟨_, .recordType ns, (hf _).same (hf' _) (by rw [ns.type_kind]; rfl)⟩
  | type ns ho =>
    obtain ⟨o', ho', hsame⟩ := hupd hl (by simp [Op.retains]) ho
    rw [h.last_eq] at ho' ⊢
    exact ⟨_, .type ns ho', ⟨Cell.same_set _ _ _ (by simp), hsame.ext⟩⟩
  | data ns =>
    rw [h.next_eq]
    exact ⟨_, .data ns, ⟨Cell.same_set _ _ _ (by simp), .inl rfl⟩⟩
  | dataMap ns ho =>
    have hk := (h.wf.objs _ _ ho).kind
    obtain ⟨o', ho', hsame⟩ :=
      hupd hl (by simp [Op.retains, Property.last, ns.ne.2.2.2.1.symm]) ho
    rw [h.last_eq] at ho'
    rw [h.last_eq, h.next_eq]
    exact ⟨_, .dataMap ns ho', hsame.recData (by rw [hk]; simp [Property.last, ns.records_kind]) _⟩
  | optionArray ho =>
    have hk := (h.wf.objs _ _ ho).kind
    obtain ⟨o', ho', hsame⟩ := hupd hl (by simp [Op.retains, Property.last]) ho
    rw [h.last_eq] at ho'
    rw [h.last_eq, h.next_eq]
    exact ⟨_, .optionArray ho', hsame.push (by rw [hk]; simp [Property.last, Param.kind]) _⟩
  | optionMap =>
    simp only [h.next_eq]
    refine ⟨_, .optionMap, ⟨?_, .inl rfl⟩⟩
    exact Cell.same_of_inactive (hf .dhcpOption).inactive (hf' .dhcpOption).inactive
  | optionData =>
    rw [h.next_eq]
    exact ⟨_, .optionData, ⟨Cell.same_set _ _ _ (by simp),
      Ext.same_of_plain (hf .dhcpOptData).kind (hf' .dhcpOptData).kind rfl⟩⟩
  | optionLength =>
    rw [h.next_eq]
    exact ⟨_, .optionLength, ⟨Cell.same_set _ _ _ (by simp),
      Ext.same_of_plain (hf .dhcpOptLength).kind (hf' .dhcpOptLength).kind rfl⟩⟩
  | optionType =>
    rw [h.next_eq]
    exact ⟨_, .optionType, ⟨Cell.same_set _ _ _ (by simp),
      Ext.same_of_plain (hf .dhcpOptType).kind (hf' .dhcpOptType).kind rfl⟩⟩

theorem Property.events_pushEvent (h : q.eventIdx ≤ q.event.length) (ev : Event) :
    (q.pushEvent ev).events = q.events ++ [ev] := by
  unfold Property.events Property.pushEvent
  dsimp only
  split
  · rename_i hgt
    have heq : q.eventIdx = q.event.length := by omega
    rw [heq, List.take_length, List.take_of_length_le (by simp)]
  · rename_i hlt
    rw [List.take_add_one, List.take_set_of_le (Nat.le_refl _), List.getElem?_set_self (by omega)]
    rfl

/-- **The same operation keeps two properties the same.** -/
theorem Sim.apply (h : Sim q q') {op : Op}
    (hop : ∀ d ptr len e hd, op = .set d ptr len e hd → ptr ≠ .own) :
    Sim (op.apply q) (op.apply q') := by
  have hs := h.wf.sized
  have hs' := h.wf_right.sized
  obtain ⟨hidx, hevents⟩ : (op.apply q).eventIdx = (op.apply q').eventIdx ∧
      (op.apply q).events = (op.apply q').events := by
    have hev := h.events
    obtain ⟨ev, rfl⟩ | ⟨he, hi⟩ := Op.event_cases (q := q) op
    · rw [Op.apply, Op.apply, Property.events_pushEvent h.wf.events,
        Property.events_pushEvent h.wf_right.events, hev]
      exact ⟨congrArg (· + 1) h.eventIdx, rfl⟩
    · obtain ⟨ev, rfl⟩ | ⟨he', hi'⟩ := Op.event_cases (q := q') op
      · exact absurd hi (Nat.succ_ne_self _)
      · unfold Property.events at hev ⊢
        rw [hi, hi', he, he']
        exact ⟨h.eventIdx, hev⟩
  refine ⟨h.wf.apply op, h.wf_right.apply op, fun d => ?_, hidx, hevents, fun i o o' hl ho ho' => ?_⟩
  · rw [Op.count_apply hs, Op.count_apply hs', h.count]
  · obtain ht | ⟨hn, ho1⟩ := Op.obj?_cases hs ho
    · obtain ⟨o'', ht', hsame⟩ := ht.same h hop hl
      rw [Op.obj?_apply hs', ht'.touch, Option.getD_some] at ho'
      obtain rfl := Option.some.inj ho'
      exact hsame
    · obtain ht' | ⟨-, ho2⟩ := Op.obj?_cases hs' ho'
      · -- both sides touch the same handles
        have hl' : (op.apply q').Live i := by
          rw [Property.Live, Op.count_apply hs', ← h.count, ← Op.count_apply hs]
          exact hl
        obtain ⟨o'', ht'', -⟩ := ht'.same h.symm hop hl'
        rw [ht''.touch] at hn
        cases hn
      · exact h.objs i o o' (Op.live_of_untouched hs hn hl) ho1 ho2

theorem Sim.exec (h : Sim q q') {ops : List Op}
    (hops : ∀ op ∈ ops, ∀ d ptr len e hd, op = .set d ptr len e hd → ptr ≠ .own) :
    Sim (q.exec ops) (q'.exec ops) := by
  induction ops generalizing q q' with
  | nil => exact h
  | cons op ops ih =>
    exact ih (h.apply (hops op List.mem_cons_self)) fun op' hop' =>
      hops op' (List.mem_cons_of_mem op hop')

end Operations

/-! ## Observations -/

section Cells

variable {c c' : Cell}

theorem Cell.Same.bytes_eq (h : c.Same c') (ha : c.active = true) (m : Mem) :
    c.bytes m = c'.bytes m := by
  have hp := h.ptr ha
  have hl := h.len ha
  have hb := h.buf ha
  unfold Cell.bytes
  rw [← hp, ← hl]
  cases hc : c.ptr with
  | own =>
    rw [hb hc, hl]
  | _ => rfl

theorem Cell.Same.repr_eq (h : c.Same c') (m : Mem) : c.repr m = c'.repr m := by
  unfold Cell.repr
  rw [← h.active]
  split
  · rename_i ha
    rw [h.bytes_eq ha]
  · rfl

theorem Cell.Same.content_eq (h : c.Same c') (m : Mem) : c.content m = c'.content m := by
  unfold Cell.content
  rw [← h.active]
  split
  · rename_i ha
    rw [h.bytes_eq ha]
  · rfl

theorem Cell.Same.raw_eq (h : c.Same c') (m : Mem) : c.raw m = c'.raw m := by
  unfold Cell.raw
  rw [← h.active]
  by_cases ha : c.active = true
  · rw [h.ptr ha, h.bytes_eq ha]
  · rw [if_neg (fun hc => ha hc.1), if_neg (fun hc => ha hc.1)]

/-- A value that is read when it is active and has a length. -/
theorem Cell.Same.sized_eq {α : Type} (h : c.Same c') (m : Mem) (n : Nat)
    (f : List UInt8 → Except Fault α) (x : Except Fault α) :
    (if c.active ∧ c.len = n then c.bytes m >>= f else x)
      = if c'.active ∧ c'.len = n then c'.bytes m >>= f else x := by
  rw [← h.active]
  by_cases ha : c.active = true
  · rw [h.len ha, h.bytes_eq ha]
  · rw [if_neg (fun hc => ha hc.1), if_neg (fun hc => ha hc.1)]

theorem Cell.Same.ip4_eq (h : c.Same c') (m : Mem) : c.ip4 m = c'.ip4 m := h.sized_eq m 4 _ _

theorem Cell.Same.ip6_eq (h : c.Same c') (ntop6 : List UInt8 → Text) (m : Mem) :
    c.ip6 ntop6 m = c'.ip6 ntop6 m :=
  h.sized_eq m 16 _ _

theorem Cell.Same.mac_eq (h : c.Same c') (m : Mem) : c.mac m = c'.mac m := h.sized_eq m 6 _ _

theorem Cell.Same.uint64?_eq (h : c.Same c') (m : Mem) : c.uint64? m = c'.uint64? m := by
  unfold Cell.uint64? Cell.isUint
  rw [← h.active]
  by_cases ha : c.active = true
  · rw [h.len ha, h.bytes_eq ha, h.endian ha]
  · simp [ha]

theorem Cell.Same.uint_eq (h : c.Same c') (m : Mem) : c.uint m = c'.uint m := by
  unfold Cell.uint Cell.uint64
  rw [h.uint64?_eq]

theorem Cell.Same.start_eq (h : c.Same c') : c.start = c'.start := by
  unfold Cell.start
  rw [← h.active]
  by_cases ha : c.active = true
  · rw [h.ptr ha]
  · simp [ha]

theorem Cell.start_of_inactive (h : ¬ c.active = true) :
    c.start = .error (.assertion "raw() points into the packet") := by
  simp [Cell.start, h]

theorem Cell.Same.nsName_eq (h : c.Same c') (m : Mem) (base totalLen : Nat) :
    nsNameRepr m c base totalLen = nsNameRepr m c' base totalLen := by
  unfold nsNameRepr
  by_cases ha : c.active = true
  · rw [h.start_eq, h.len ha]
  · rw [← h.start_eq, Cell.start_of_inactive ha]
    rfl

theorem Cell.Same.nsData_eq (h : c.Same c') (ntop6 : List UInt8 → Text) (m : Mem)
    (type base totalLen : Nat) :
    nsDataRepr ntop6 m c type base totalLen = nsDataRepr ntop6 m c' type base totalLen := by
  unfold nsDataRepr
  by_cases ha : c.active = true
  · rw [h.ip4_eq, h.ip6_eq, h.start_eq, h.len ha]
  · rw [h.ip4_eq, h.ip6_eq, ← h.start_eq, Cell.start_of_inactive ha]
    rfl

theorem Cell.Same.look_eq (h : c.Same c') (ntop6 : List UInt8 → Text) (m : Mem)
    {repr repr' : Except Fault Text} (hr : repr = repr') (size : Nat) :
    c.look ntop6 m repr size = c'.look ntop6 m repr' size := by
  unfold Cell.look Cell.uint64
  rw [h.active, hr, h.raw_eq, h.uint64?_eq, h.ip4_eq, h.ip6_eq, h.mac_eq]

/-- Objects that are the same print the same, when they hold no others. -/
theorem Obj.Same.leafRepr_eq {o o' : Obj} (h : o.Same o') (ntop6 : List UInt8 → Text) (m : Mem) :
    o.leafRepr ntop6 m = o'.leafRepr ntop6 m := by
  obtain ⟨cell, ext⟩ := o
  obtain ⟨cell', ext'⟩ := o'
  obtain ⟨hc, he⟩ := h
  dsimp only at hc he
  obtain rfl | ⟨hk, hk'⟩ := he
  · unfold Obj.leafRepr
    cases ext with
    | ipv4Addr => exact hc.ip4_eq m
    | portNumber =>
      dsimp only
      unfold portRepr
      rw [hc.uint64?_eq]
    | nsType =>
      dsimp only
      unfold nsTypeRepr
      rw [hc.uint_eq]
    | icmpType =>
      dsimp only
      unfold icmpTypeRepr
      rw [hc.uint_eq]
    | icmpCode type =>
      dsimp only
      unfold icmpCodeRepr
      rw [hc.active, hc.uint_eq]
    | nsName base totalLen => exact hc.nsName_eq m base totalLen
    | nsData type base totalLen =>
      dsimp only
      rw [hc.active, hc.nsData_eq]
    | _ => exact hc.repr_eq m
  · cases ext <;> cases hk
    cases ext' <;> cases hk'
    exact hc.repr_eq m

end Cells

section Paths

variable {q q' : Property} {m : Mem} {ntop6 : List UInt8 → Text}

/-- `get` and `find` give `value::NONE`, a member or a slot. -/
theorem Obj.access_refs {o : Obj} {i : Handle} {a : Access} {r : Ref}
    (h : o.access i a = .ok (some r)) :
    r = .none ∨ r ∈ o.refs ∨ o.ext.kind = .storage ∧ ∃ idx, r = .slot i idx := by
  obtain ⟨cell, ext⟩ := o
  cases a with
  | get idx =>
    cases ext with
    | array items =>
      obtain rfl := Option.some.inj (Except.ok.inj h)
      dsimp only
      split
      · rename_i i hi
        exact .inr (.inl (List.mem_map_of_mem (List.mem_of_getElem? hi)))
      · exact .inl rfl
    | storage slots =>
      simp only [Obj.access] at h
      split at h
      · cases h
        exact .inr (.inr ⟨rfl, idx, rfl⟩)
      · cases h
    | _ => cases h
  | find key =>
    cases ext <;> simp only [Obj.access, reduceCtorEq, Except.ok.injEq, Option.some.injEq] at h
    all_goals
      subst h
      split_ifs <;> simp [Obj.refs]

/-- An object that is no storage has no assertion in its `get`. -/
theorem Obj.access_returns {o : Obj} (hk : o.ext.kind ≠ .storage) (i : Handle) (a : Access) :
    Returns (o.access i a) fun _ => True := by
  obtain ⟨cell, ext⟩ := o
  cases a <;> cases ext <;> first | exact returns_ok.mpr trivial | exact absurd rfl hk

theorem Obj.Same.access_eq {o o' : Obj} (h : o.Same o') (hk : o.ext.kind ≠ .storage) (i : Handle)
    (a : Access) : o.access i a = o'.access i a := by
  unfold Obj.access
  rw [h.ext_eq hk]

theorem Obj.Same.size_eq {o o' : Obj} (h : o.Same o') (hk : o.ext.kind ≠ .storage) :
    o.size = o'.size := by
  unfold Obj.size
  rw [h.ext_eq hk]

theorem Obj.Same.refs_eq {o o' : Obj} (h : o.Same o') : o.refs = o'.refs := by
  obtain he | ⟨hk, hk'⟩ := h.ext
  · unfold Obj.refs
    rw [he]
  · rw [Obj.refs_eq_nil (by rw [hk]; rfl), Obj.refs_eq_nil (by rw [hk']; rfl)]

/-- What is out of reach on one side is so on the other. -/
theorem Sim.linked (h : Sim q q') (hl : q.Linked) : q'.Linked := by
  intro i o' hlive ho' r hr
  obtain ⟨o, ho, hsame⟩ := h.symm.other hlive ho'
  have hv := hl i o (h.live.mpr hlive) ho r (hsame.refs_eq ▸ hr)
  cases r with
  | null => exact hv
  | none => trivial
  | obj j => exact ⟨h.live.mp hv.1, hv.2⟩
  | slot j n => exact hv

theorem foldlM_eq_of_mem {α β : Type} {f g : β → α → Except Fault β} {l : List α}
    (h : ∀ a ∈ l, ∀ b, f b a = g b a) (b : β) : l.foldlM f b = l.foldlM g b := by
  induction l generalizing b with
  | nil => rfl
  | cons a l ih =>
    rw [List.foldlM_cons, List.foldlM_cons, h a List.mem_cons_self]
    exact congrArg _ (funext fun b => ih (fun a' ha' => h a' (List.mem_cons_of_mem a ha')) b)

/-- **`repr` prints the same**, for values that refer to live ones. The induction is on the depth. -/
theorem Sim.repr_eq (h : Sim q q') (hl : q.Linked) (n : Nat) {r : Ref} (hr : q.Valid r) :
    q.repr ntop6 m n r = q'.repr ntop6 m n r := by
  induction n generalizing r with
  | zero => cases r <;> rfl
  | succ n ih =>
    cases r with
    | null => rfl
    | none => rfl
    | slot i j => exact hr.elim
    | obj i =>
      obtain ⟨o, ho⟩ := h.wf.sized.obj?_live hr.1
      obtain ⟨o', ho', hsame⟩ := h.other hr.1 ho
      have hrefs := hl i o hr.1 ho
      have hleaf := hsame.leafRepr_eq ntop6 m
      obtain ⟨cell, ext⟩ := o
      obtain ⟨cell', ext'⟩ := o'
      simp only [Property.repr, ho, ho']
      obtain rfl | ⟨hk, hk'⟩ : ext = ext' ∨ _ := hsame.ext
      · cases ext with
        | array items =>
          dsimp only
          rw [foldlM_eq_of_mem (fun i hi os => ?_)]
          rw [ih (hrefs (.obj i) (List.mem_map_of_mem hi))]
        | nsRecord name type data =>
          dsimp only
          rw [ih (hrefs name (by simp [Obj.refs])), ih (hrefs type (by simp [Obj.refs])),
            ih (hrefs data (by simp [Obj.refs]))]
        | option type length data =>
          dsimp only
          rw [ih (hrefs type (by simp [Obj.refs])), ih (hrefs length (by simp [Obj.refs])),
            ih (hrefs data (by simp [Obj.refs]))]
        | _ => exact hleaf
      · cases ext <;> cases hk
        cases ext' <;> cases hk'
        exact hleaf

/-- A path leads to the same place when it does so from object to object, and to one of `P`. -/
theorem walk_eq_of_access {P : Ref → Prop} (hnull : ¬ P .null) (hnone : P .none)
    (hslot : ∀ i j, ¬ P (.slot i j))
    (hobj : ∀ i, P (.obj i) → ∃ o o', q.obj? i = some o ∧ q'.obj? i = some o' ∧
      o.ext.kind ≠ .storage ∧ (∀ a, o.access i a = o'.access i a) ∧ ∀ r ∈ o.refs, P r)
    (path : List Access) {r : Ref} (hr : P r) :
    Returns (q.walk r path) fun x => q'.walk r path = .ok x ∧ ∀ r', x = some r' → P r' := by
  induction path generalizing r with
  | nil =>
    cases r with
    | null => exact absurd hr hnull
    | _ => exact ⟨_, rfl, rfl, fun r' hr' => Option.some.inj hr' ▸ hr⟩
  | cons a path ih =>
    cases r with
    | null => exact absurd hr hnull
    | none => exact ⟨_, rfl, rfl, fun r' hr' => by cases hr'⟩
    | slot i j => exact absurd hr (hslot i j)
    | obj i =>
      obtain ⟨o, o', ho, ho', hk, hsame, hrefs⟩ := hobj i hr
      obtain ⟨x, hx, -⟩ := Obj.access_returns hk i a
      simp only [Property.walk, ho, ho', ← hsame a, hx, bind, Except.bind]
      cases x with
      | none => exact ⟨_, rfl, rfl, fun r' hr' => by cases hr'⟩
      | some r1 =>
        refine ih ?_
        obtain rfl | hmem | ⟨hs, -⟩ := Obj.access_refs hx
        · exact hnone
        · exact hrefs r1 hmem
        · exact absurd hs hk

/-- **Paths lead to the same place**, and this is `value::NONE` or live. -/
theorem Sim.walk_eq (h : Sim q q') (hl : q.Linked) (path : List Access) {r : Ref} (hr : q.Valid r) :
    Returns (q.walk r path) fun x => q'.walk r path = .ok x ∧ ∀ r', x = some r' → q.Valid r' := by
  refine walk_eq_of_access (P := q.Valid) id trivial (fun _ _ => id) (fun i hi => ?_) path hr
  obtain ⟨o, ho⟩ := h.wf.sized.obj?_live hi.1
  obtain ⟨o', ho', hsame⟩ := h.other hi.1 ho
  have hk : o.ext.kind ≠ .storage := (h.wf.objs i o ho).kind ▸ hi.2
  exact ⟨o, o', ho, ho', hk, hsame.access_eq hk i, hl i o hi.1 ho⟩

theorem Sim.look_eq (h : Sim q q') (hl : q.Linked) {r : Ref} (hr : q.Valid r) :
    q.look ntop6 m r = q'.look ntop6 m r := by
  cases r with
  | null => rfl
  | none => rfl
  | slot i j => exact hr.elim
  | obj i =>
    obtain ⟨o, ho⟩ := h.wf.sized.obj?_live hr.1
    obtain ⟨o', ho', hsame⟩ := h.other hr.1 ho
    have hk : o.ext.kind ≠ .storage := (h.wf.objs i o ho).kind ▸ hr.2
    simp only [Property.look, ho, ho', Option.map_some]
    rw [hsame.cell.look_eq ntop6 m (h.repr_eq hl 3 hr), hsame.size_eq hk]

end Paths

/-! ## Minor parameters -/

section Minors

variable {q q' : Property} {m : Mem} {ntop6 : List UInt8 → Text} {d : Param}

theorem Param.kind_of_minor (i : Fin d.minors.length) : d.kind = .storage := by
  cases d <;> first | rfl | exact i.elim0

/-- The slots of the header at hand. -/
def Property.slots (q : Property) (d : Param) : List Cell :=
  match q.obj? ⟨d, 0⟩ with
  | some ⟨_, .storage slots⟩ => resizeSlots d slots
  | _ => []

/-- What `valueMinor` leaves when the slot is computed. -/
def Property.setSlot (q : Property) (d : Param) (i : Nat) (c : Cell) : Property :=
  q.modify ⟨d, 0⟩ fun o => { o with ext := .storage ((q.slots d).set i c) }

theorem Property.WF.storage (h : q.WF) (hd : d.kind = .storage) {o : Obj}
    (ho : q.obj? ⟨d, 0⟩ = some o) :
    ∃ cell slots, o = ⟨cell, .storage slots⟩ ∧
      (slots.length = 0 ∨ slots.length = d.minors.length) := by
  have hk := (h.objs _ o ho).kind
  have hs := (h.objs _ o ho).slots
  obtain ⟨cell, ext⟩ := o
  rw [show (⟨d, 0⟩ : Handle).param = d from rfl, hd] at hk
  cases ext <;> cases hk
  exact ⟨cell, _, rfl, hs _ rfl⟩

theorem Property.WF.length_slots (h : q.WF) (hd : d.kind = .storage) {o : Obj}
    (ho : q.obj? ⟨d, 0⟩ = some o) : (q.slots d).length = d.minors.length := by
  obtain ⟨cell, slots, rfl, hlen⟩ := h.storage hd ho
  rw [Property.slots, ho]
  dsimp only
  unfold resizeSlots
  split
  · rw [List.length_replicate]
  · exact hlen.resolve_left ‹_›

/-- **`value` of a minor parameter**: no assertion fails, and the slot is computed from the header. -/
theorem Property.WF.valueMinor_eq (h : q.WF) (i : Fin d.minors.length) {o : Obj}
    (ho : q.obj? ⟨d, 0⟩ = some o) :
    ∃ c, q.valueMinor m d i = do
      let ptr ← o.cell.start
      let slot ← (d.minors.get i).2.run m ptr c
      return (q.setSlot d i slot, .slot ⟨d, 0⟩ i) := by
  have hd := Param.kind_of_minor i
  have hlen := h.length_slots hd ho
  obtain ⟨cell, slots, rfl, -⟩ := h.storage hd ho
  have hslots : q.slots d = resizeSlots d slots := by
    rw [Property.slots, ho]
  rw [hslots] at hlen
  have hi : i.val < (resizeSlots d slots).length := by omega
  refine ⟨(resizeSlots d slots)[i.val], ?_⟩
  unfold Property.valueMinor Property.setSlot
  rw [ho, hslots]
  dsimp only
  rw [List.getElem?_eq_getElem hi]

/-- The slot is there. -/
theorem Property.WF.slot?_setSlot (h : q.WF) (i : Fin d.minors.length) {o : Obj}
    (ho : q.obj? ⟨d, 0⟩ = some o) (c : Cell) : (q.setSlot d i c).slot? ⟨d, 0⟩ i = some c := by
  have hlen := h.length_slots (Param.kind_of_minor i) ho
  rw [Property.slot?, Property.setSlot, obj?_modify, if_pos rfl, ho]
  dsimp only [Option.map_some]
  exact List.getElem?_set_self (by omega)

/-- A slot shows the same whatever was in it. -/
theorem Defer.run_same (f : Defer) (ptr : Nat) (c c' : Cell) {α : Type} {g : Cell → Except Fault α}
    (hg : ∀ c c' : Cell, c.Same c' → g c = g c') : (f.run m ptr c >>= g) = f.run m ptr c' >>= g := by
  rcases f with ⟨off, len⟩ | f
  · exact hg _ _ (Cell.same_set _ _ _ (by simp))
  · rw [Defer.run, Defer.run]
    cases f m ptr with
    | error e => rfl
    | ok bytes => exact hg _ _ (Cell.same_cpy bytes _)

/-- What a user sees of a minor parameter. -/
theorem Property.WF.observe_minor (h : q.WF) (ntop6 : List UInt8 → Text) (m : Mem)
    (i : Fin d.minors.length) (hc : 0 < q.count d) {o : Obj} (ho : q.obj? ⟨d, 0⟩ = some o)
    (path : List Access) :
    ∃ c, q.observe ntop6 m (.minor d i) path = do
      let ptr ← o.cell.start
      let slot ← (d.minors.get i).2.run m ptr c
      return if path = [] then some (slot.look ntop6 m (slot.repr m) 0) else none := by
  obtain ⟨c, hv⟩ := h.valueMinor_eq (m := m) i ho
  refine ⟨c, ?_⟩
  rw [Property.observe, Property.value, if_pos hc, hv]
  cases o.cell.start with
  | error e => rfl
  | ok ptr =>
    cases hrun : (d.minors.get i).2.run m ptr c with
    | error e =>
      simp only [bind, Except.bind, hrun]
    | ok slot =>
      have hslot := h.slot?_setSlot i ho slot
      simp only [bind, Except.bind, hrun, pure, Except.pure]
      cases path with
      | nil =>
        simp only [Property.walk, Option.bind_some, Property.look, hslot]
        rfl
      | cons a path => rfl

/-- The key of a header. Its slots outlive the packet. -/
def Key.header : Key → Bool
  | param d => d.kind == .storage
  | minor _ _ => false

theorem Key.kind_of_not_header (h : (Key.param d).header = false) : d.kind ≠ .storage := by
  simpa [Key.header] using h

/-- **Properties that are the same show the same values**, through every path. -/
theorem Sim.observe (h : Sim q q') (hl : q.Linked) (key : Key) (hkey : key.header = false)
    (path : List Access) : q.observe ntop6 m key path = q'.observe ntop6 m key path := by
  cases key with
  | param d =>
    rw [Property.observe, Property.observe, Property.value, Property.value, ← h.count]
    by_cases hc : 0 < q.count d
    · have hv : q.Valid (.obj ⟨d, 0⟩) := ⟨hc, Key.kind_of_not_header hkey⟩
      obtain ⟨x, hwalk, hwalk', hvalid⟩ := h.walk_eq hl path hv
      rw [if_pos hc, if_pos hc]
      simp only [bind, Except.bind, hwalk, hwalk']
      cases x with
      | none => rfl
      | some r => simp only [Option.bind_some, h.look_eq hl (hvalid r rfl)]
    · rw [if_neg hc, if_neg hc]
      cases path <;> rfl
  | minor d i =>
    by_cases hc : 0 < q.count d
    · obtain ⟨o, ho⟩ := h.wf.sized.obj?_live (h := ⟨d, 0⟩) hc
      obtain ⟨o', ho', hsame⟩ := h.other (i := ⟨d, 0⟩) hc ho
      obtain ⟨c, hobs⟩ := h.wf.observe_minor ntop6 m i hc ho path
      obtain ⟨c', hobs'⟩ := h.wf_right.observe_minor ntop6 m i (h.count d ▸ hc) ho' path
      rw [hobs, hobs', hsame.cell.start_eq]
      refine congrArg _ (funext fun ptr => Defer.run_same _ ptr c c' fun s s' hs => ?_)
      rw [hs.look_eq ntop6 m (hs.repr_eq m)]
    · rw [Property.observe, Property.observe, Property.value, Property.value, ← h.count, if_neg hc,
        if_neg hc]
      cases path <;> rfl

/-- A look without the size. -/
def Look.unsized (l : Look) : Look := { l with size := 0 }

/-- What a user sees of a header that is present, and of what is not one of its slots. -/
theorem Property.WF.observe_header (h : q.WF) (ntop6 : List UInt8 → Text) (m : Mem)
    (hd : d.kind = .storage) (hc : 0 < q.count d) {o : Obj} (ho : q.obj? ⟨d, 0⟩ = some o)
    {path : List Access} (hp : ∀ i, .get i ∉ path) :
    q.observe ntop6 m (.param d) path =
      .ok (if path = [] then some (o.cell.look ntop6 m (o.cell.repr m) o.size) else none) := by
  obtain ⟨cell, slots, rfl, -⟩ := h.storage hd ho
  rw [Property.observe, Property.value, if_pos hc]
  simp only [bind, Except.bind]
  cases path with
  | nil => simp [Property.walk, Property.look, Property.repr, Obj.leafRepr, ho, pure, Except.pure]
  | cons a path =>
    cases a with
    | get i => exact absurd List.mem_cons_self (hp i)
    | find key => simp [Property.walk, Obj.access, ho, bind, Except.bind, pure, Except.pure]

/-- A header shows the same, up to its slots and their number. -/
theorem Sim.observe_header (h : Sim q q') (hd : d.kind = .storage) {path : List Access}
    (hp : ∀ i, .get i ∉ path) :
    (q.observe ntop6 m (.param d) path).map (Option.map Look.unsized) =
      (q'.observe ntop6 m (.param d) path).map (Option.map Look.unsized) := by
  by_cases hc : 0 < q.count d
  · obtain ⟨o, ho⟩ := h.wf.sized.obj?_live (h := ⟨d, 0⟩) hc
    obtain ⟨o', ho', hsame⟩ := h.other (i := ⟨d, 0⟩) hc ho
    rw [h.wf.observe_header ntop6 m hd hc ho hp,
      h.wf_right.observe_header ntop6 m hd (h.count d ▸ hc) ho' hp]
    have hlook : (o.cell.look ntop6 m (o.cell.repr m) o.size).unsized =
        (o'.cell.look ntop6 m (o'.cell.repr m) o'.size).unsized :=
      hsame.cell.look_eq ntop6 m (hsame.cell.repr_eq m) 0
    simp only [Except.map]
    split
    · rw [Option.map_some, Option.map_some, hlook]
    · rfl
  · rw [Property.observe, Property.observe, Property.value, Property.value, ← h.count, if_neg hc,
      if_neg hc]
    cases path <;> rfl

end Minors

end PacketMachine.Decode
