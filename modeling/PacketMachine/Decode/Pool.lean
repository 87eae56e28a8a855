import PacketMachine.Decode.Lookup

/-!
# What the operations do to the pool

Each `Op` is a short list of calls on the property. Here its effect is given as a change of the map from
handles to objects (`Op.count_apply`, `Op.obj?_apply`), with the objects that `retain_value` hands out as
they come (`Property.fresh`): cleared, or new.

Results:
* `Property.WF`: every object has the class of its parameter, arrays and maps are never active, and a
  storage has no slots or all of them. Every operation keeps it, and so does reading.
* `Property.exec_all`: what every operation establishes for the values it retains, and keeps for the
  others, holds of all values that are retained at the end.
-/

namespace PacketMachine.Decode

/-! ## Effects -/

/-- The parameters an operation retains a value for. -/
def Op.retains : Op → List Param
  | set d _ _ _ _ | cpy d _ _ _ | array d _ => [d]
  | code _ _ _ => [.icmpCode]
  | record ns _ _ _ _ _ => [ns.records, ns.name, ns.type]
  | data ns _ _ _ _ _ => [ns.data]
  | option _ _ _ => [.dhcpOption, .dhcpOptType, .dhcpOptLength, .dhcpOptData]
  | _ => []

/-- The handle of the next value of a parameter. -/
def Property.next (q : Property) (d : Param) : Handle := ⟨d, q.count d⟩

/-- What becomes of the object of a handle that an operation touches. -/
def Op.touch (q : Property) (h : Handle) : Op → Option (Option Obj)
  | set d ptr len e _ => if h = q.next d then some (some ((q.fresh d).set ptr len e)) else none
  | cpy d bytes e _ => if h = q.next d then some (some ((q.fresh d).cpy bytes e)) else none
  | code ptr len ty =>
    if h = q.next .icmpCode then some (some (Obj.setCode ptr len ty (q.fresh .icmpCode))) else none
  | array d _ => if h = q.next d then some (some (q.fresh d)) else none
  | record ns target ptr len base totalLen =>
    if h = q.next ns.name then some (some (Obj.setName ptr len base totalLen (q.fresh ns.name)))
    else if h = q.last (ns.record target) then some ((q.obj? h).map (Obj.push (q.next ns.records)))
    else if h = q.next ns.records then
      some (some (Obj.recType (q.next ns.type)
        (Obj.recName (q.next ns.name) (q.fresh ns.records))))
    else if h = q.next ns.type then some (some (q.fresh ns.type))
    else none
  | type ns ptr len =>
    if h = q.last ns.type then some ((q.obj? h).map (·.set (.pkt ptr) len)) else none
  | data ns ptr len ty base totalLen =>
    if h = q.next ns.data then
      some (some (Obj.setNsData ptr len ty base totalLen (q.fresh ns.data)))
    else if h = q.last ns.records then some ((q.obj? h).map (Obj.recData (q.next ns.data)))
    else none
  | option ptr dataPtr len =>
    if h = q.last .dhcpOptions then some ((q.obj? h).map (Obj.push (q.next .dhcpOption)))
    else if h = q.next .dhcpOption then
      some (some (Obj.setOption (q.next .dhcpOptType) (q.next .dhcpOptLength) (q.next .dhcpOptData)
        (q.fresh .dhcpOption)))
    else if h = q.next .dhcpOptData then some (some ((q.fresh .dhcpOptData).set (.pkt dataPtr) len))
    else if h = q.next .dhcpOptLength then
      some (some ((q.fresh .dhcpOptLength).set (.pkt (ptr + 1)) 1))
    else if h = q.next .dhcpOptType then some (some ((q.fresh .dhcpOptType).set (.pkt ptr) 1))
    else none
  | _ => none

section Effects

variable {q : Property}

theorem fresh_retainValue (hs : q.Sized) (d d' : Param) (h : d' ≠ d) :
    (q.retainValue d).1.fresh d' = q.fresh d' := by
  unfold Property.fresh
  rw [count_retainValue hs, if_neg h, obj?_retainValue hs, if_neg]
  rintro ⟨⟩
  exact h rfl

theorem NameService.ne (ns : NameService) :
    ns.records ≠ ns.name ∧ ns.records ≠ ns.type ∧ ns.name ≠ ns.type ∧ ns.data ≠ ns.records ∧
      ∀ i, ns.record i ≠ ns.records ∧ ns.record i ≠ ns.name ∧ ns.record i ≠ ns.type := by
  have hk : ∀ {d d' : Param}, d.kind ≠ d'.kind → d ≠ d' := fun h e => h (congrArg Param.kind e)
  have h1 := ns.records_kind
  have h2 := ns.name_kind
  have h3 := ns.type_kind
  have h4 := ns.data_kind
  refine ⟨hk ?_, hk ?_, hk ?_, hk ?_, fun i => ⟨hk ?_, hk ?_, hk ?_⟩⟩ <;>
    simp [h1, h2, h3, h4, ns.record_kind]

theorem Property.Sized.apply (hs : q.Sized) (op : Op) : (op.apply q).Sized := by
  cases op with
  | set d ptr len e _ => exact (hs.retainValue d).modify _ _
  | cpy d bytes e _ => exact (hs.retainValue d).modify _ _
  | code ptr len ty => exact (hs.retainValue _).modify _ _
  | array d _ => exact hs.retainValue d
  | record ns target ptr len base totalLen =>
    exact (((((((hs.retainValue _).retainValue _).retainValue _).modify _ _).modify _ _).modify
      _ _).modify _ _)
  | type ns ptr len => exact hs.modify _ _
  | data ns ptr len ty base totalLen => exact (((hs.retainValue _).modify _ _).modify _ _)
  | option ptr dataPtr len =>
    exact (((((((((hs.retainValue _).retainValue _).retainValue _).retainValue _).modify _ _).modify
      _ _).modify _ _).modify _ _).modify _ _)
  | event ev => exact ⟨hs.length, hs.count_le⟩
  | srcAddr bytes => exact ⟨hs.length, hs.count_le⟩
  | dstAddr bytes => exact ⟨hs.length, hs.count_le⟩
  | srcPort port => exact ⟨hs.length, hs.count_le⟩
  | dstPort port => exact ⟨hs.length, hs.count_le⟩

/-- An operation counts the values it retains. -/
theorem Op.count_apply (hs : q.Sized) (op : Op) (d : Param) :
    (op.apply q).count d = if d ∈ op.retains then q.count d + 1 else q.count d := by
  cases op with
  | set d' ptr len e _ =>
    simp only [Op.apply, Op.retains, count_modify, count_retainValue hs, List.mem_singleton]
    split
    · rename_i h; rw [h]
    · rfl
  | cpy d' bytes e _ =>
    simp only [Op.apply, Op.retains, count_modify, count_retainValue hs, List.mem_singleton]
    split
    · rename_i h; rw [h]
    · rfl
  | code ptr len ty =>
    simp only [Op.apply, Op.retains, count_modify, count_retainValue hs, List.mem_singleton]
    split
    · rename_i h; rw [h]
    · rfl
  | array d' _ =>
    simp only [Op.apply, Op.retains, count_retainValue hs, List.mem_singleton]
    split
    · rename_i h; rw [h]
    · rfl
  | record ns target ptr len base totalLen =>
    obtain ⟨h1, h2, h3, -, -⟩ := ns.ne
    have hs1 := hs.retainValue ns.records
    have hs2 := hs1.retainValue ns.name
    simp only [Op.apply, Op.retains, count_modify, count_retainValue hs2, count_retainValue hs1,
      count_retainValue hs, List.mem_cons, List.not_mem_nil, or_false]
    by_cases e1 : d = ns.records
    · subst e1; simp [h1, h2]
    · by_cases e2 : d = ns.name
      · subst e2; simp [e1, h3]
      · by_cases e3 : d = ns.type
        · subst e3; simp [e1, e2]
        · simp [e1, e2, e3]
  | type ns ptr len => rfl
  | data ns ptr len ty base totalLen =>
    simp only [Op.apply, Op.retains, count_modify, count_retainValue hs, List.mem_singleton]
    split
    · rename_i h; rw [h]
    · rfl
  | option ptr dataPtr len =>
    have hs1 := hs.retainValue .dhcpOption
    have hs2 := hs1.retainValue .dhcpOptType
    have hs3 := hs2.retainValue .dhcpOptLength
    simp only [Op.apply, Op.retains, count_modify, count_retainValue hs3, count_retainValue hs2,
      count_retainValue hs1, count_retainValue hs, List.mem_cons, List.not_mem_nil, or_false]
    by_cases e1 : d = .dhcpOption
    · subst e1; simp
    · by_cases e2 : d = .dhcpOptType
      · subst e2; simp
      · by_cases e3 : d = .dhcpOptLength
        · subst e3; simp
        · by_cases e4 : d = .dhcpOptData
          · subst e4; simp
          · simp [e1, e2, e3, e4]
  | event ev => rfl
  | srcAddr bytes => rfl
  | dstAddr bytes => rfl
  | srcPort port => rfl
  | dstPort port => rfl

theorem Handle.ne_of_param {d d' : Param} (h : d ≠ d') (i j : Nat) :
    (⟨d, i⟩ : Handle) ≠ ⟨d', j⟩ := by
  rintro ⟨⟩
  exact h rfl

theorem obj?_new (hs : q.Sized) (d : Param) (f : Obj → Obj) (h : Handle) :
    ((q.retainValue d).1.modify (q.retainValue d).2 f).obj? h
      = if h = q.next d then some (f (q.fresh d)) else q.obj? h := by
  rw [obj?_modify, retainValue_handle, obj?_retainValue hs, obj?_retainValue hs, if_pos rfl]
  unfold Property.next
  split <;> rfl

/-- A record touches four values. -/
theorem obj?_record (hs : q.Sized) (ns : NameService) (target ptr len base totalLen : Nat)
    (h : Handle) : ((Op.record ns target ptr len base totalLen).apply q).obj? h =
      ((Op.record ns target ptr len base totalLen).touch q h).getD (q.obj? h) := by
  obtain ⟨h1, h2, h3, -, harr⟩ := ns.ne
  obtain ⟨h4, h5, h6⟩ := harr target
  have hs1 := hs.retainValue ns.records
  have hs2 := hs1.retainValue ns.name
  simp only [Op.apply, Op.touch, Property.next, Property.last, obj?_modify, retainValue_handle,
    obj?_retainValue hs2, obj?_retainValue hs1, obj?_retainValue hs, count_retainValue hs1,
    count_retainValue hs, fresh_retainValue hs1 _ _ h3.symm, fresh_retainValue hs _ _ h2.symm,
    fresh_retainValue hs _ _ h1.symm, if_neg h1.symm, if_neg h2.symm, if_neg h3.symm]
  by_cases e1 : h = ⟨ns.name, q.count ns.name⟩
  · subst e1
    simp [Handle.ne_of_param h1.symm, Handle.ne_of_param h3, h5.symm]
  · by_cases e2 : h = ⟨ns.record target, q.count (ns.record target) - 1⟩
    · subst e2
      simp [h4, h5, h6]
    · by_cases e3 : h = ⟨ns.records, q.count ns.records⟩
      · subst e3
        simp [h1, h2, h4.symm]
      · by_cases e4 : h = ⟨ns.type, q.count ns.type⟩
        · subst e4
          simp [h2.symm, h3.symm, h6.symm]
        · simp [e1, e2, e3, e4]

/-- The data of a record touches two. -/
theorem obj?_data (hs : q.Sized) (ns : NameService) (ptr len ty base totalLen : Nat)
    (h : Handle) : ((Op.data ns ptr len ty base totalLen).apply q).obj? h =
      ((Op.data ns ptr len ty base totalLen).touch q h).getD (q.obj? h) := by
  have h1 := ns.ne.2.2.2.1
  simp only [Op.apply, Op.touch, Property.next, Property.last, obj?_modify, retainValue_handle,
    obj?_retainValue hs]
  by_cases e1 : h = ⟨ns.data, q.count ns.data⟩
  · subst e1
    simp [h1]
  · by_cases e2 : h = ⟨ns.records, q.count ns.records - 1⟩
    · subst e2
      simp [h1.symm]
    · simp [e1, e2]

/-- An option touches five. -/
theorem obj?_option (hs : q.Sized) (ptr dataPtr len : Nat) (h : Handle) :
    ((Op.option ptr dataPtr len).apply q).obj? h =
      ((Op.option ptr dataPtr len).touch q h).getD (q.obj? h) := by
  have hs1 := hs.retainValue .dhcpOption
  have hs2 := hs1.retainValue .dhcpOptType
  have hs3 := hs2.retainValue .dhcpOptLength
  have hf1 := fresh_retainValue hs .dhcpOption .dhcpOptType (by decide)
  have hf2 := fresh_retainValue hs .dhcpOption .dhcpOptLength (by decide)
  have hf3 := fresh_retainValue hs .dhcpOption .dhcpOptData (by decide)
  have hf4 := fresh_retainValue hs1 .dhcpOptType .dhcpOptLength (by decide)
  have hf5 := fresh_retainValue hs1 .dhcpOptType .dhcpOptData (by decide)
  have hf6 := fresh_retainValue hs2 .dhcpOptLength .dhcpOptData (by decide)
  simp only [Op.apply, Op.touch, Property.next, Property.last, obj?_modify, retainValue_handle,
    obj?_retainValue hs3, obj?_retainValue hs2, obj?_retainValue hs1, obj?_retainValue hs,
    count_retainValue hs2, count_retainValue hs1, count_retainValue hs, hf1, hf2, hf3, hf4, hf5,
    hf6, reduceCtorEq, if_false]
  by_cases e1 : h = ⟨.dhcpOptions, q.count .dhcpOptions - 1⟩
  · subst e1; simp
  · by_cases e2 : h = ⟨.dhcpOption, q.count .dhcpOption⟩
    · subst e2; simp
    · by_cases e3 : h = ⟨.dhcpOptData, q.count .dhcpOptData⟩
      · subst e3; simp
      · by_cases e4 : h = ⟨.dhcpOptLength, q.count .dhcpOptLength⟩
        · subst e4; simp
        · by_cases e5 : h = ⟨.dhcpOptType, q.count .dhcpOptType⟩
          · subst e5; simp
          · simp [e1, e2, e3, e4, e5]

/-- **The effect of an operation on the pool.** -/
theorem Op.obj?_apply (hs : q.Sized) (op : Op) (h : Handle) :
    (op.apply q).obj? h = (op.touch q h).getD (q.obj? h) := by
  cases op with
  | set d ptr len e _ =>
    rw [Op.apply, Op.touch, obj?_new hs]
    split <;> rfl
  | cpy d bytes e _ =>
    rw [Op.apply, Op.touch, obj?_new hs]
    split <;> rfl
  | code ptr len ty =>
    rw [Op.apply, Op.touch, obj?_new hs]
    split <;> rfl
  | array d _ =>
    rw [Op.apply, Op.touch, obj?_retainValue hs]
    unfold Property.next
    split <;> rfl
  | record ns target ptr len base totalLen => exact obj?_record hs ns target ptr len base totalLen h
  | type ns ptr len =>
    simp only [Op.apply, Op.touch, obj?_modify]
    split
    · rename_i e; rw [e]; rfl
    · rfl
  | data ns ptr len ty base totalLen => exact obj?_data hs ns ptr len ty base totalLen h
  | option ptr dataPtr len => exact obj?_option hs ptr dataPtr len h
  | event ev => rfl
  | srcAddr bytes => rfl
  | dstAddr bytes => rfl
  | srcPort port => rfl
  | dstPort port => rfl

/-- The objects an operation leaves in the handles it touches, one constructor for each call. -/
inductive Touch (q : Property) : Op → Handle → Obj → Prop
  | set {d ptr len e} (hd) : Touch q (.set d ptr len e hd) (q.next d) ((q.fresh d).set ptr len e)
  | cpy {d bytes e} (hd) : Touch q (.cpy d bytes e hd) (q.next d) ((q.fresh d).cpy bytes e)
  | code {ptr len ty} :
    Touch q (.code ptr len ty) (q.next .icmpCode) (Obj.setCode ptr len ty (q.fresh .icmpCode))
  | array {d} (hd) : Touch q (.array d hd) (q.next d) (q.fresh d)
  | recordName (ns) {target ptr len base totalLen} :
    Touch q (.record ns target ptr len base totalLen) (q.next ns.name)
      (Obj.setName ptr len base totalLen (q.fresh ns.name))
  | recordArray (ns) {target ptr len base totalLen o}
    (ho : q.obj? (q.last (ns.record target)) = some o) :
    Touch q (.record ns target ptr len base totalLen) (q.last (ns.record target))
      (o.push (q.next ns.records))
  | recordMap (ns) {target ptr len base totalLen} :
    Touch q (.record ns target ptr len base totalLen) (q.next ns.records)
      (Obj.recType (q.next ns.type) (Obj.recName (q.next ns.name) (q.fresh ns.records)))
  | recordType (ns) {target ptr len base totalLen} :
    Touch q (.record ns target ptr len base totalLen) (q.next ns.type) (q.fresh ns.type)
  | type (ns) {ptr len o} (ho : q.obj? (q.last ns.type) = some o) :
    Touch q (.type ns ptr len) (q.last ns.type) (o.set (.pkt ptr) len)
  | data (ns) {ptr len ty base totalLen} :
    Touch q (.data ns ptr len ty base totalLen) (q.next ns.data)
      (Obj.setNsData ptr len ty base totalLen (q.fresh ns.data))
  | dataMap (ns) {ptr len ty base totalLen o} (ho : q.obj? (q.last ns.records) = some o) :
    Touch q (.data ns ptr len ty base totalLen) (q.last ns.records) (o.recData (q.next ns.data))
  | optionArray {ptr dataPtr len o} (ho : q.obj? (q.last .dhcpOptions) = some o) :
    Touch q (.option ptr dataPtr len) (q.last .dhcpOptions) (o.push (q.next .dhcpOption))
  | optionMap {ptr dataPtr len} :
    Touch q (.option ptr dataPtr len) (q.next .dhcpOption)
      (Obj.setOption (q.next .dhcpOptType) (q.next .dhcpOptLength) (q.next .dhcpOptData)
        (q.fresh .dhcpOption))
  | optionData {ptr dataPtr len} :
    Touch q (.option ptr dataPtr len) (q.next .dhcpOptData)
      ((q.fresh .dhcpOptData).set (.pkt dataPtr) len)
  | optionLength {ptr dataPtr len} :
    Touch q (.option ptr dataPtr len) (q.next .dhcpOptLength)
      ((q.fresh .dhcpOptLength).set (.pkt (ptr + 1)) 1)
  | optionType {ptr dataPtr len} :
    Touch q (.option ptr dataPtr len) (q.next .dhcpOptType)
      ((q.fresh .dhcpOptType).set (.pkt ptr) 1)

theorem Op.touched {op : Op} {h : Handle} {o : Obj} (ht : op.touch q h = some (some o)) :
    Touch q op h o := by
  cases op <;> simp only [Op.touch, reduceCtorEq] at ht
  case set d ptr len e hd =>
    split at ht
    · rename_i e; subst e; cases ht; exact .set hd
    · cases ht
  case cpy d bytes e hd =>
    split at ht
    · rename_i e; subst e; cases ht; exact .cpy hd
    · cases ht
  case code ptr len ty =>
    split at ht
    · rename_i e; subst e; cases ht; exact .code
    · cases ht
  case array d hd =>
    split at ht
    · rename_i e; subst e; cases ht; exact .array hd
    · cases ht
  case record ns target ptr len base totalLen =>
    split at ht
    · rename_i e; subst e; cases ht; exact .recordName ns
    · split at ht
      · rename_i e
        subst e
        obtain ⟨o', ho', rfl⟩ := Option.map_eq_some_iff.mp (Option.some.inj ht)
        exact .recordArray ns ho'
      · split at ht
        · rename_i e; subst e; cases ht; exact .recordMap ns
        · split at ht
          · rename_i e; subst e; cases ht; exact .recordType ns
          · cases ht
  case type ns ptr len =>
    split at ht
    · rename_i e
      subst e
      obtain ⟨o', ho', rfl⟩ := Option.map_eq_some_iff.mp (Option.some.inj ht)
      exact .type ns ho'
    · cases ht
  case data ns ptr len ty base totalLen =>
    split at ht
    · rename_i e; subst e; cases ht; exact .data ns
    · split at ht
      · rename_i e
        subst e
        obtain ⟨o', ho', rfl⟩ := Option.map_eq_some_iff.mp (Option.some.inj ht)
        exact .dataMap ns ho'
      · cases ht
  case option ptr dataPtr len =>
    split at ht
    · rename_i e
      subst e
      obtain ⟨o', ho', rfl⟩ := Option.map_eq_some_iff.mp (Option.some.inj ht)
      exact .optionArray ho'
    · split at ht
      · rename_i e; subst e; cases ht; exact .optionMap
      · split at ht
        · rename_i e; subst e; cases ht; exact .optionData
        · split at ht
          · rename_i e; subst e; cases ht; exact .optionLength
          · split at ht
            · rename_i e; subst e; cases ht; exact .optionType
            · cases ht

theorem Touch.touch {op : Op} {h : Handle} {o : Obj} (ht : Touch q op h o) :
    op.touch q h = some (some o) := by
  cases ht with
  | recordArray ns ho =>
    rename_i target _ _ _ _ _
    obtain ⟨-, -, -, -, harr⟩ := ns.ne
    have hne : q.last (ns.record target) ≠ q.next ns.name :=
      Handle.ne_of_param (harr target).2.1 _ _
    simp [Op.touch, hne, ho]
  | recordMap ns =>
    rename_i target _ _ _ _
    obtain ⟨h1, -, -, -, harr⟩ := ns.ne
    have hne : q.next ns.records ≠ q.next ns.name := Handle.ne_of_param h1 _ _
    have hne' : q.next ns.records ≠ q.last (ns.record target) :=
      Handle.ne_of_param (harr target).1.symm _ _
    simp [Op.touch, hne, hne']
  | recordType ns =>
    rename_i target _ _ _ _
    obtain ⟨-, h2, h3, -, harr⟩ := ns.ne
    have hne : q.next ns.type ≠ q.next ns.name := Handle.ne_of_param h3.symm _ _
    have hne' : q.next ns.type ≠ q.last (ns.record target) :=
      Handle.ne_of_param (harr target).2.2.symm _ _
    have hne'' : q.next ns.type ≠ q.next ns.records := Handle.ne_of_param h2.symm _ _
    simp [Op.touch, hne, hne', hne'']
  | dataMap ns ho =>
    have hne : q.last ns.records ≠ q.next ns.data := Handle.ne_of_param ns.ne.2.2.2.1.symm _ _
    simp [Op.touch, hne, ho]
  | type ns ho => simp [Op.touch, ho]
  | optionArray ho => simp [Op.touch, ho]
  | _ => simp [Op.touch, Property.next, Property.last]

/-- **Inversion**: an object after an operation is one that the operation left, or was there before and
was not touched. -/
theorem Op.obj?_cases (hs : q.Sized) {op : Op} {h : Handle} {o : Obj}
    (ho : (op.apply q).obj? h = some o) :
    Touch q op h o ∨ op.touch q h = none ∧ q.obj? h = some o := by
  rw [Op.obj?_apply hs] at ho
  cases ht : op.touch q h with
  | none =>
    rw [ht] at ho
    exact .inr ⟨rfl, ho⟩
  | some r =>
    rw [ht] at ho
    simp only [Option.getD_some] at ho
    subst ho
    exact .inl (Op.touched ht)

/-- What was there is not taken away. -/
theorem Op.touch_ne_none {op : Op} {h : Handle} {o : Obj} (ho : q.obj? h = some o) :
    op.touch q h ≠ some none := by
  cases op <;> simp only [Op.touch, ne_eq, reduceCtorEq, not_false_eq_true]
  all_goals split_ifs <;> simp [ho]

/-- What is retained is touched. -/
theorem Op.touch_next {op : Op} {d : Param} (hd : d ∈ op.retains) :
    op.touch q (q.next d) ≠ none := by
  cases op <;> simp only [Op.retains, List.mem_cons, List.not_mem_nil, or_false] at hd
  case record ns target ptr len base totalLen =>
    obtain ⟨-, -, -, -, harr⟩ := ns.ne
    obtain ⟨-, -, h6⟩ := harr target
    obtain rfl | rfl | rfl := hd
    · simp only [Op.touch]
      split <;> [skip; split] <;> simp
    · simp [Op.touch]
    · simp only [Op.touch]
      rw [if_neg (show q.next ns.type ≠ q.last (ns.record target) from Handle.ne_of_param h6.symm _ _)]
      split <;> [skip; split] <;> simp
  case option ptr dataPtr len =>
    obtain rfl | rfl | rfl | rfl := hd <;> simp [Op.touch, Property.next, Property.last]
  all_goals
    subst hd
    simp [Op.touch]

/-! ## Live values -/

/-- The value is retained for the packet at hand. -/
def Property.Live (q : Property) (h : Handle) : Prop := h.idx < q.count h.param

theorem Property.Sized.obj?_live (hs : q.Sized) {h : Handle} (hl : q.Live h) :
    ∃ o, q.obj? h = some o := by
  have hlt : h.idx < (q.objs h.param).length := Nat.lt_of_lt_of_le hl (hs.count_le _)
  exact ⟨_, List.getElem?_eq_getElem hlt⟩

theorem Op.count_le (hs : q.Sized) (op : Op) (d : Param) : q.count d ≤ (op.apply q).count d := by
  rw [Op.count_apply hs]
  split <;> omega

theorem Property.Live.apply (hs : q.Sized) {h : Handle} (hl : q.Live h) (op : Op) :
    (op.apply q).Live h :=
  Nat.lt_of_lt_of_le hl (Op.count_le hs op _)

theorem Property.Live.next (hs : q.Sized) {op : Op} {d : Param} (hd : d ∈ op.retains) :
    (op.apply q).Live (q.next d) := by
  rw [Property.Live, Op.count_apply hs, if_pos (show (q.next d).param ∈ op.retains from hd)]
  exact Nat.lt_succ_self _

/-- A handle that an operation makes live is touched by it. -/
theorem Op.live_of_untouched (hs : q.Sized) {op : Op} {h : Handle} (ht : op.touch q h = none)
    (hl : (op.apply q).Live h) : q.Live h := by
  unfold Property.Live at hl ⊢
  rw [Op.count_apply hs] at hl
  by_cases hd : h.param ∈ op.retains
  · rw [if_pos hd] at hl
    refine Nat.lt_of_le_of_ne (Nat.le_of_lt_succ hl) fun he => Op.touch_next (q := q) hd ?_
    rw [Property.next, ← he]
    exact ht
  · rwa [if_neg hd] at hl

/-- The live values satisfy `P`. -/
def Property.All (P : Handle → Obj → Prop) (q : Property) : Prop :=
  ∀ h o, q.Live h → q.obj? h = some o → P h o

/-- **The rule for live values**: what holds of them, and of the objects that an operation leaves in
live handles, holds after the operation. -/
theorem Property.All.apply (hs : q.Sized) {P P' : Handle → Obj → Prop} {op : Op} (hP : q.All P)
    (hmono : ∀ h o, P h o → P' h o)
    (ht : ∀ h o, Touch q op h o → (op.apply q).Live h → P' h o) : (op.apply q).All P' := by
  intro h o hl ho
  obtain hto | ⟨hn, ho'⟩ := Op.obj?_cases hs ho
  · exact ht h o hto hl
  · exact hmono h o (hP h o (Op.live_of_untouched hs hn hl) ho')

end Effects

/-! ## Well-formed pools -/

/-- An object that may be in the pool of a parameter. -/
structure Obj.WF (d : Param) (o : Obj) : Prop where
  kind : o.ext.kind = d.kind
  inert : d.kind.holds = true → o.cell.active = false
  slots : ∀ slots, o.ext = .storage slots → slots.length = 0 ∨ slots.length = d.minors.length

/-- An object as `retain_value` hands it out. Of a reused record only the data is reset. -/
structure Obj.Fresh (d : Param) (o : Obj) : Prop extends Obj.WF d o where
  inactive : o.cell.active = false
  array : d.kind = .array → o.ext = .array []
  nsRecord : d.kind = .nsRecord → ∃ name type, o.ext = .nsRecord name type .none
  option : d.kind = .option → o.ext = .option .null .null .null

/-- A well-formed property. -/
structure Property.WF (q : Property) : Prop where
  sized : q.Sized
  events : q.eventIdx ≤ q.event.length
  objs : ∀ h o, q.obj? h = some o → o.WF h.param

section WF

variable {q : Property} {d : Param} {o : Obj}

theorem Obj.fresh_new (d : Param) : (Obj.new d.kind).Fresh d := by
  have hk : ∀ k : Kind, (Obj.new k).ext.kind = k ∧ (Obj.new k).cell.active = false := by
    intro k; cases k <;> exact ⟨rfl, rfl⟩
  refine ⟨⟨(hk _).1, fun _ => (hk _).2, fun slots hs => ?_⟩, (hk _).2, ?_, ?_, ?_⟩
  · cases hd : d.kind <;> rw [hd] at hs <;> cases hs
    exact .inl rfl
  · intro hd; rw [hd]; rfl
  · intro hd; rw [hd]; exact ⟨_, _, rfl⟩
  · intro hd; rw [hd]; rfl

theorem Obj.WF.clear (h : o.WF d) : o.clear.Fresh d := by
  obtain ⟨cell, ext⟩ := o
  obtain ⟨hk, hi, hs⟩ := h
  simp only at hk hi hs
  cases ext with
  | array items =>
    have hc := hi (by rw [← hk]; rfl)
    refine ⟨⟨hk, fun _ => hc, ?_⟩, hc, fun _ => rfl, ?_, ?_⟩ <;> simp [← hk, Obj.clear, Ext.kind]
  | nsRecord name type data =>
    have hc := hi (by rw [← hk]; rfl)
    refine ⟨⟨hk, fun _ => hc, ?_⟩, hc, ?_, fun _ => ⟨name, type, rfl⟩, ?_⟩ <;>
      simp [← hk, Obj.clear, Ext.kind]
  | option type length data =>
    have hc := hi (by rw [← hk]; rfl)
    refine ⟨⟨hk, fun _ => hc, ?_⟩, hc, ?_, ?_, fun _ => rfl⟩ <;> simp [← hk, Obj.clear, Ext.kind]
  | storage slots =>
    refine ⟨⟨hk, fun _ => rfl, hs⟩, rfl, ?_, ?_, ?_⟩ <;> simp [← hk, Ext.kind]
  | _ =>
    refine ⟨⟨hk, fun _ => rfl, ?_⟩, rfl, ?_, ?_, ?_⟩ <;> simp [← hk, Obj.clear, Ext.kind]

/-- **What `retain_value` hands out.** -/
theorem Property.WF.fresh (h : q.WF) (d : Param) : (q.fresh d).Fresh d := by
  unfold Property.fresh
  split
  · rename_i o ho
    exact (h.objs _ o ho).clear
  · exact Obj.fresh_new d

theorem holds_of_plain {k : Kind} (h : k.plain = true) : k.holds = false := by
  cases k <;> first | rfl | cases h

theorem Obj.WF.setCell (h : o.WF d) (hd : d.kind.holds = false) (c : Cell) :
    Obj.WF d { o with cell := c } :=
  ⟨h.kind, fun hh => absurd hh (by simp [hd]), h.slots⟩

/-- A leaf with other members. -/
theorem Obj.WF.leaf (hk : Ext.kind o.ext = d.kind) (hd : d.kind.holds = false)
    (hs : d.kind ≠ .storage) : o.WF d := by
  refine ⟨hk, fun hh => absurd hh (by simp [hd]), fun slots e => ?_⟩
  rw [e] at hk
  exact absurd hk.symm hs

/-- A container with other members. -/
theorem Obj.WF.setExt (h : o.WF d) {e : Ext} (hk : e.kind = o.ext.kind) (hs : e.kind ≠ .storage) :
    Obj.WF d { o with ext := e } := by
  refine ⟨hk.trans h.kind, h.inert, fun slots he => ?_⟩
  simp only at he
  rw [he] at hs
  exact absurd rfl hs

theorem Obj.WF.push (h : o.WF d) (i : Handle) : (o.push i).WF d := by
  unfold Obj.push
  split
  · rename_i items he
    exact h.setExt (by rw [he]; rfl) (by simp [Ext.kind])
  · exact h

theorem Obj.WF.recName (h : o.WF d) (i : Handle) : (o.recName i).WF d := by
  unfold Obj.recName
  split
  · rename_i he
    exact h.setExt (by rw [he]; rfl) (by simp [Ext.kind])
  · exact h

theorem Obj.WF.recType (h : o.WF d) (i : Handle) : (o.recType i).WF d := by
  unfold Obj.recType
  split
  · rename_i he
    exact h.setExt (by rw [he]; rfl) (by simp [Ext.kind])
  · exact h

theorem Obj.WF.recData (h : o.WF d) (i : Handle) : (o.recData i).WF d := by
  unfold Obj.recData
  split
  · rename_i he
    exact h.setExt (by rw [he]; rfl) (by simp [Ext.kind])
  · exact h

theorem events_retainValue (d : Param) : (q.retainValue d).1.event = q.event ∧
    (q.retainValue d).1.eventIdx = q.eventIdx := ⟨rfl, rfl⟩

theorem events_modify (h : Handle) (f : Obj → Obj) : (q.modify h f).event = q.event ∧
    (q.modify h f).eventIdx = q.eventIdx := ⟨rfl, rfl⟩

/-- Events are pushed by `event` alone. -/
theorem Op.event_cases (op : Op) : (∃ ev, op = .event ev) ∨
    (op.apply q).event = q.event ∧ (op.apply q).eventIdx = q.eventIdx := by
  cases op with
  | event ev => exact .inl ⟨ev, rfl⟩
  | _ => exact .inr (by simp only [Op.apply, events_modify, events_retainValue, and_self])

theorem Op.eventIdx_apply (h : q.eventIdx ≤ q.event.length) (op : Op) :
    (op.apply q).eventIdx ≤ (op.apply q).event.length := by
  obtain ⟨ev, rfl⟩ | ⟨he, hi⟩ := Op.event_cases (q := q) op
  · simp only [Op.apply, Property.pushEvent]
    split <;> simp <;> omega
  · rwa [he, hi]

/-- **Every operation keeps the pool well formed.** -/
theorem Property.WF.apply (h : q.WF) (op : Op) : (op.apply q).WF := by
  refine ⟨h.sized.apply op, Op.eventIdx_apply h.events op, fun i o ho => ?_⟩
  obtain ht | ⟨-, ho'⟩ := Op.obj?_cases h.sized ho
  · clear ho
    cases ht with
    | set hd => exact (h.fresh _).toWF.setCell (holds_of_plain hd) _
    | cpy hd => exact (h.fresh _).toWF.setCell (holds_of_plain hd) _
    | code => exact Obj.WF.leaf rfl rfl (by simp [Property.next, Param.kind])
    | array hd => exact (h.fresh _).toWF
    | recordName ns =>
      exact Obj.WF.leaf ns.name_kind.symm (by simp [Property.next, ns.name_kind, Kind.holds])
        (by simp [Property.next, ns.name_kind])
    | recordArray ns ho => exact (h.objs _ _ ho).push _
    | recordMap ns => exact ((h.fresh _).toWF.recName _).recType _
    | recordType ns => exact (h.fresh _).toWF
    | type ns ho =>
      exact (h.objs _ _ ho).setCell (by simp [Property.last, ns.type_kind, Kind.holds]) _
    | data ns =>
      exact Obj.WF.leaf ns.data_kind.symm (by simp [Property.next, ns.data_kind, Kind.holds])
        (by simp [Property.next, ns.data_kind])
    | dataMap ns ho => exact (h.objs _ _ ho).recData _
    | optionArray ho => exact (h.objs _ _ ho).push _
    | optionMap =>
      have hw := (h.fresh .dhcpOption).toWF
      exact hw.setExt hw.kind.symm (by simp [Ext.kind])
    | optionData => exact (h.fresh .dhcpOptData).toWF.setCell rfl _
    | optionLength => exact (h.fresh .dhcpOptLength).toWF.setCell rfl _
    | optionType => exact (h.fresh .dhcpOptType).toWF.setCell rfl _
  · exact h.objs i o ho'

theorem Property.wf_empty : ({} : Property).WF := by
  refine ⟨⟨rfl, fun d => Nat.le_refl 0⟩, Nat.le_refl 0, fun h o ho => ?_⟩
  cases ho

theorem Property.count_init (d : Param) : q.init.count d = 0 := by
  unfold Property.count Property.init
  simp only [List.getElem?_map]
  cases q.paramIdx[d.id]? <;> rfl

/-- `init` leaves the objects, with their pointers into an earlier packet. -/
theorem obj?_init (q : Property) (h : Handle) : q.init.obj? h = (q.obj? h).map Obj.leave := by
  unfold Property.obj? Property.objs Property.init
  rw [List.getElem?_map]
  cases q.param[h.param.id]? with
  | none => rfl
  | some objs => exact List.getElem?_map

theorem Obj.WF.leave (h : o.WF d) : o.leave.WF d := by
  obtain ⟨cell, ext⟩ := o
  obtain ⟨hkind, hinert, hslots⟩ := h
  cases ext with
  | storage slots =>
    refine ⟨hkind, hinert, ?_⟩
    rintro _ ⟨⟩
    simpa using hslots slots rfl
  | _ => exact ⟨hkind, hinert, hslots⟩

theorem Property.WF.init (h : q.WF) : q.init.WF := by
  refine ⟨⟨?_, fun d => ?_⟩, Nat.zero_le _, fun i o ho => ?_⟩
  · simpa [Property.init] using h.sized.length
  · rw [Property.count_init]
    exact Nat.zero_le _
  · rw [obj?_init] at ho
    obtain ⟨o', ho', rfl⟩ := Option.map_eq_some_iff.mp ho
    exact (h.objs i o' ho').leave

/-- Nothing is live after `init`. -/
theorem Property.all_init (P : Handle → Obj → Prop) : q.init.All P := by
  intro h o hl
  rw [Property.Live, Property.count_init] at hl
  exact absurd hl (Nat.not_lt_zero _)

theorem Property.exec_cons (op : Op) (ops : List Op) : q.exec (op :: ops) = (op.apply q).exec ops :=
  rfl

theorem Property.exec_append (ops ops' : List Op) :
    q.exec (ops ++ ops') = (q.exec ops).exec ops' :=
  List.foldl_append

theorem Property.WF.exec (h : q.WF) (ops : List Op) : (q.exec ops).WF := by
  induction ops generalizing q with
  | nil => exact h
  | cons op ops ih => exact ih (h.apply op)

/-- **The rule for a list of operations** and a predicate on the live values. -/
theorem Property.exec_all {P : Handle → Obj → Prop} {ops : List Op} (h : q.WF) (hP : q.All P)
    (ht : ∀ op ∈ ops, ∀ q : Property, q.WF → q.All P → ∀ h o, Touch q op h o →
      (op.apply q).Live h → P h o) : (q.exec ops).All P := by
  induction ops generalizing q with
  | nil => exact hP
  | cons op ops ih =>
    refine ih (h.apply op) ?_ fun op' hop' => ht op' (List.mem_cons_of_mem op hop')
    exact hP.apply h.sized (fun _ _ h => h) (ht op List.mem_cons_self q h hP)

/-- Live values that an operation does not retain were live before. -/
theorem Property.Live.of_not_retained (hs : q.Sized) {op : Op} {h : Handle}
    (hl : (op.apply q).Live h) (hn : h.param ∉ op.retains) : q.Live h := by
  rwa [Property.Live, Op.count_apply hs, if_neg hn] at hl

end WF

/-! ## Links between values -/

/-- The values an object refers to. -/
def Obj.refs (o : Obj) : List Ref :=
  match o.ext with
  | .array items => items.map .obj
  | .nsRecord name type data => [name, type, data]
  | .option type length data => [type, length, data]
  | _ => []

/-- `value::NONE`, or a live value of a class whose members are all set anew for a packet. The slots of
a header are not. -/
def Property.Valid (q : Property) : Ref → Prop
  | .null => False
  | .none => True
  | .obj h => q.Live h ∧ h.param.kind ≠ .storage
  | .slot _ _ => False

/-- Values of the parameter are retained by `set` and `cpy` only. -/
def Param.direct (d : Param) : Bool :=
  d.kind.plain && d.kind != .nsType && d != .dhcpOptType && d != .dhcpOptLength && d != .dhcpOptData

theorem Param.kind_of_not_direct {d : Param} (h : d.direct = false) : d.kind ≠ .storage := by
  cases d <;> first | decide | cases h

/-- What a live value refers to is `value::NONE` or live itself. -/
def Property.Linked (q : Property) : Prop := q.All fun _ o => ∀ r ∈ o.refs, q.Valid r

section Links

variable {q : Property}

theorem Obj.refs_eq_nil {o : Obj} (h : o.ext.kind.holds = false) : o.refs = [] := by
  obtain ⟨cell, ext⟩ := o
  cases ext <;> first | rfl | cases h

theorem Property.Valid.apply (hs : q.Sized) {r : Ref} (h : q.Valid r) (op : Op) :
    (op.apply q).Valid r := by
  cases r with
  | null => exact h
  | none => trivial
  | obj i => exact ⟨Property.Live.apply hs h.1 op, h.2⟩
  | slot i j => exact h

theorem Obj.mem_refs_push {o : Obj} {i : Handle} {r : Ref} (h : r ∈ (o.push i).refs) :
    r ∈ o.refs ∨ r = .obj i := by
  unfold Obj.push at h
  split at h
  · rename_i items he
    rw [Obj.refs] at h ⊢
    rw [he]
    simpa [or_comm] using h
  · exact .inl h

theorem Obj.mem_refs_recData {o : Obj} {i : Handle} {r : Ref} (h : r ∈ (o.recData i).refs) :
    r ∈ o.refs ∨ r = .obj i := by
  unfold Obj.recData at h
  split at h
  · rename_i name type data he
    simp only [Obj.refs, List.mem_cons, List.not_mem_nil, or_false] at h
    rw [Obj.refs, he]
    obtain rfl | rfl | rfl := h
    · exact .inl (by simp)
    · exact .inl (by simp)
    · exact .inr rfl
  · exact .inl h

/-- **What an object refers to after an operation**: what it did before, or a value that the operation
has retained for a record or an option. -/
theorem Touch.refs (hw : q.WF) {op : Op} {h : Handle} {o : Obj} (ht : Touch q op h o) {r : Ref}
    (hr : r ∈ o.refs) :
    r = .none ∨ (∃ o', q.obj? h = some o' ∧ h.param ∉ op.retains ∧ r ∈ o'.refs) ∨
      ∃ d ∈ op.retains, d.direct = false ∧ r = .obj (q.next d) := by
  have hleaf : ∀ {o : Obj} {d : Param} {C : Prop}, o.ext.kind = d.kind → d.kind.holds = false →
      r ∈ o.refs → C := by
    intro o d C hk hd hr
    rw [Obj.refs_eq_nil (by rw [hk, hd])] at hr
    cases hr
  cases ht with
  | set hd => exact hleaf (hw.fresh _).kind (holds_of_plain hd) hr
  | cpy hd => exact hleaf (hw.fresh _).kind (holds_of_plain hd) hr
  | code => exact absurd (show r ∈ [] from hr) List.not_mem_nil
  | array hd =>
    rw [Obj.refs, (hw.fresh _).array hd] at hr
    cases hr
  | recordName ns => exact absurd (show r ∈ [] from hr) List.not_mem_nil
  | recordArray ns ho =>
    obtain ⟨-, -, -, -, harr⟩ := ns.ne
    obtain hr | rfl := Obj.mem_refs_push hr
    · exact .inr (.inl ⟨_, ho, by simp [Op.retains, Property.last, harr], hr⟩)
    · exact .inr (.inr ⟨ns.records, by simp [Op.retains], by
        simp [Param.direct, ns.records_kind, Kind.plain], rfl⟩)
  | recordMap ns =>
    obtain ⟨name, type, he⟩ := (hw.fresh _).nsRecord ns.records_kind
    simp only [Obj.recType, Obj.recName, he, Obj.refs, List.mem_cons, List.not_mem_nil, or_false] at hr
    obtain rfl | rfl | rfl := hr
    · exact .inr (.inr ⟨ns.name, by simp [Op.retains], by
        simp [Param.direct, ns.name_kind, Kind.plain], rfl⟩)
    · exact .inr (.inr ⟨ns.type, by simp [Op.retains], by simp [Param.direct, ns.type_kind], rfl⟩)
    · exact .inl rfl
  | recordType ns => exact hleaf (hw.fresh _).kind (by simp [ns.type_kind, Kind.holds]) hr
  | type ns ho => exact .inr (.inl ⟨_, ho, by simp [Op.retains], hr⟩)
  | data ns => exact absurd (show r ∈ [] from hr) List.not_mem_nil
  | dataMap ns ho =>
    obtain hr | rfl := Obj.mem_refs_recData hr
    · exact .inr (.inl ⟨_, ho, by simp [Op.retains, Property.last, ns.ne.2.2.2.1.symm], hr⟩)
    · exact .inr (.inr ⟨ns.data, by simp [Op.retains], by
        simp [Param.direct, ns.data_kind, Kind.plain], rfl⟩)
  | optionArray ho =>
    obtain hr | rfl := Obj.mem_refs_push hr
    · exact .inr (.inl ⟨_, ho, by simp [Op.retains, Property.last], hr⟩)
    · exact .inr (.inr ⟨.dhcpOption, by simp [Op.retains], rfl, rfl⟩)
  | optionMap =>
    simp only [Obj.setOption, Obj.refs, List.mem_cons, List.not_mem_nil, or_false] at hr
    obtain rfl | rfl | rfl := hr
    · exact .inr (.inr ⟨.dhcpOptType, by simp [Op.retains], rfl, rfl⟩)
    · exact .inr (.inr ⟨.dhcpOptLength, by simp [Op.retains], rfl, rfl⟩)
    · exact .inr (.inr ⟨.dhcpOptData, by simp [Op.retains], rfl, rfl⟩)
  | optionData => exact hleaf (hw.fresh .dhcpOptData).kind rfl hr
  | optionLength => exact hleaf (hw.fresh .dhcpOptLength).kind rfl hr
  | optionType => exact hleaf (hw.fresh .dhcpOptType).kind rfl hr

/-- **Every operation keeps the links**, and never leaves a live map with a null pointer. -/
theorem Property.Linked.apply (hw : q.WF) (h : q.Linked) (op : Op) : (op.apply q).Linked := by
  have hs := hw.sized
  refine Property.All.apply hs h (fun i o hr r hm => (hr r hm).apply hs op) fun i o ht hl r hr => ?_
  obtain rfl | ⟨o', ho', hn, hr'⟩ | ⟨d, hd, hdirect, rfl⟩ := ht.refs hw hr
  · trivial
  · exact (h i o' (hl.of_not_retained hs hn) ho' r hr').apply hs op
  · exact ⟨Property.Live.next hs hd, Param.kind_of_not_direct hdirect⟩

theorem Property.Linked.exec (hw : q.WF) (h : q.Linked) (ops : List Op) : (q.exec ops).Linked := by
  induction ops generalizing q with
  | nil => exact h
  | cons op ops ih => exact ih (hw.apply op) (h.apply hw op)

end Links

end PacketMachine.Decode
