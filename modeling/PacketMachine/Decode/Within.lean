import PacketMachine.Decode.Pool

/-!
# Byte ranges of the values

A decoder says in its operations which bytes a value denotes. Here the ranges of a list of operations
are carried over to the values that are live after it.

Results:
* **`exec_within`**: when the ranges of all operations lie between two positions, so do the ranges of
  the values they leave, and these of the classes that keep a pointer to the message.
* **`exec_first`**: `value(key)` of a plain parameter is what the first operation for it has set.
-/

namespace PacketMachine.Decode

open PacketMachine.Lib

/-- The range from a pointer on lies between two positions. `nullptr` has the empty range only. -/
def Ptr.Within (lo hi len : Nat) : Ptr → Prop
  | null => len = 0
  | pkt off => lo ≤ off ∧ off + len ≤ hi
  | own => False
  | ext _ => False
  | old _ _ => False

/-- The ranges of an operation lie between two positions, except those of the parameters in `X`. -/
def Op.Within (X : List Param) (lo hi : Nat) : Op → Prop
  | set d ptr len _ _ => d ∈ X ∨ ptr.Within lo hi len
  | code ptr len _ => (Ptr.pkt ptr).Within lo hi len
  | record _ _ ptr len base totalLen =>
    (Ptr.pkt ptr).Within lo hi len ∧ (Ptr.pkt base).Within lo hi totalLen
  | type _ ptr len => (Ptr.pkt ptr).Within lo hi len
  | data _ ptr len _ base totalLen =>
    (Ptr.pkt ptr).Within lo hi len ∧ (Ptr.pkt base).Within lo hi totalLen
  | option ptr dataPtr len => (Ptr.pkt ptr).Within lo hi 2 ∧ (Ptr.pkt dataPtr).Within lo hi len
  | _ => True

/-- The range of a value, and the message its class points to, lie between two positions. -/
structure Obj.Within (lo hi : Nat) (o : Obj) : Prop where
  cell : o.cell.active = true → o.cell.ptr = .own ∨ o.cell.ptr.Within lo hi o.cell.len
  nsName : ∀ base totalLen, o.ext = .nsName base totalLen →
    (∃ off, o.cell.At off) ∧ (Ptr.pkt base).Within lo hi totalLen
  nsData : ∀ type base totalLen, o.ext = .nsData type base totalLen →
    (∃ off, o.cell.At off) ∧ (Ptr.pkt base).Within lo hi totalLen

section Within

variable {q : Property} {X : List Param} {lo hi : Nat}

theorem Obj.Within.of_kind {o : Obj} {d : Param} (hk : o.ext.kind = d.kind)
    (h1 : d.kind ≠ .nsName) (h2 : d.kind ≠ .nsData)
    (hc : o.cell.active = true → o.cell.ptr = .own ∨ o.cell.ptr.Within lo hi o.cell.len) :
    o.Within lo hi := by
  refine ⟨hc, fun base totalLen he => ?_, fun type base totalLen he => ?_⟩
  · rw [he] at hk
    exact absurd hk.symm h1
  · rw [he] at hk
    exact absurd hk.symm h2

theorem Obj.Within.of_inactive {o : Obj} {d : Param} (hk : o.ext.kind = d.kind)
    (h1 : d.kind ≠ .nsName) (h2 : d.kind ≠ .nsData) (hc : o.cell.active = false) :
    o.Within lo hi :=
  .of_kind hk h1 h2 fun ha => by simp [hc] at ha

/-- Arrays and maps have no range. -/
theorem Obj.WF.within {o : Obj} {d : Param} (h : o.WF d) (hd : d.kind.holds = true) :
    o.Within lo hi := by
  refine .of_inactive h.kind ?_ ?_ (h.inert hd) <;> intro he <;> simp [he, Kind.holds] at hd

theorem plain_ne {k : Kind} (h : k.plain = true) : k ≠ .nsName ∧ k ≠ .nsData := by
  constructor <;> rintro rfl <;> cases h

/-- **What an operation leaves has the ranges of the operation.** -/
theorem Touch.within (hw : q.WF) {op : Op} {h : Handle} {o : Obj} (hop : op.Within X lo hi)
    (ht : Touch q op h o) : h.param ∈ X ∨ o.Within lo hi := by
  cases ht with
  | set hd =>
    obtain ⟨h1, h2⟩ := plain_ne hd
    exact hop.imp_right fun hr => .of_kind (hw.fresh _).kind h1 h2 fun _ => .inr hr
  | cpy hd =>
    obtain ⟨h1, h2⟩ := plain_ne hd
    exact .inr (.of_kind (hw.fresh _).kind h1 h2 fun _ => .inl rfl)
  | code =>
    exact .inr (.of_kind (d := .icmpCode) rfl (by simp [Param.kind]) (by simp [Param.kind])
      fun _ => .inr hop)
  | array hd => exact .inr ((hw.fresh _).toWF.within (by rw [hd]; rfl))
  | recordName ns =>
    refine .inr ⟨fun _ => .inr hop.1, ?_, ?_⟩
    · rintro base totalLen ⟨⟩
      exact ⟨⟨_, rfl, rfl⟩, hop.2⟩
    · rintro type base totalLen ⟨⟩
  | recordArray ns ho =>
    exact .inr (((hw.objs _ _ ho).push _).within (by simp [Property.last, ns.record_kind, Kind.holds]))
  | recordMap ns =>
    exact .inr ((((hw.fresh _).toWF.recName _).recType _).within
      (by simp [ns.records_kind, Kind.holds]))
  | recordType ns =>
    exact .inr (.of_inactive (hw.fresh _).kind (by simp [ns.type_kind]) (by simp [ns.type_kind])
      (hw.fresh _).inactive)
  | type ns ho =>
    exact .inr (.of_kind (hw.objs _ _ ho).kind (by simp [Property.last, ns.type_kind])
      (by simp [Property.last, ns.type_kind]) fun _ => .inr hop)
  | data ns =>
    refine .inr ⟨fun _ => .inr hop.1, ?_, ?_⟩
    · rintro base totalLen ⟨⟩
    · rintro type base totalLen ⟨⟩
      exact ⟨⟨_, rfl, rfl⟩, hop.2⟩
  | dataMap ns ho =>
    exact .inr (((hw.objs _ _ ho).recData _).within
      (by simp [Property.last, ns.records_kind, Kind.holds]))
  | optionArray ho => exact .inr (((hw.objs _ _ ho).push _).within rfl)
  | optionMap =>
    refine .inr (.of_inactive (d := .dhcpOption) rfl (by simp [Param.kind]) (by simp [Param.kind]) ?_)
    exact (hw.fresh .dhcpOption).inactive
  | optionData =>
    exact .inr (.of_kind (hw.fresh .dhcpOptData).kind (by simp [Param.kind]) (by simp [Param.kind])
      fun _ => .inr hop.2)
  | optionLength =>
    obtain ⟨⟨h1, h2⟩, -⟩ := hop
    exact .inr (.of_kind (hw.fresh .dhcpOptLength).kind (by simp [Param.kind]) (by simp [Param.kind])
      fun _ => .inr ⟨Nat.le_succ_of_le h1, h2⟩)
  | optionType =>
    obtain ⟨⟨h1, h2⟩, -⟩ := hop
    exact .inr (.of_kind (hw.fresh .dhcpOptType).kind (by simp [Param.kind]) (by simp [Param.kind])
      fun _ => .inr ⟨h1, Nat.le_of_succ_le h2⟩)

theorem Ptr.Within.mono {lo' hi' len : Nat} {ptr : Ptr} (h : ptr.Within lo hi len) (hlo : lo' ≤ lo)
    (hhi : hi ≤ hi') : ptr.Within lo' hi' len := by
  cases ptr with
  | pkt off => exact ⟨Nat.le_trans hlo h.1, Nat.le_trans h.2 hhi⟩
  | _ => exact h

theorem Op.Within.mono {op : Op} {Y : List Param} {lo' hi' : Nat} (h : op.Within X lo hi)
    (hX : X ⊆ Y) (hlo : lo' ≤ lo) (hhi : hi ≤ hi') : op.Within Y lo' hi' := by
  cases op with
  | set d ptr len e _ => exact h.imp (fun hd => hX hd) fun hr => hr.mono hlo hhi
  | code ptr len ty => exact (show (Ptr.pkt ptr).Within lo hi len from h).mono hlo hhi
  | record ns target ptr len base totalLen => exact ⟨h.1.mono hlo hhi, h.2.mono hlo hhi⟩
  | type ns ptr len => exact (show (Ptr.pkt ptr).Within lo hi len from h).mono hlo hhi
  | data ns ptr len ty base totalLen => exact ⟨h.1.mono hlo hhi, h.2.mono hlo hhi⟩
  | option ptr dataPtr len => exact ⟨h.1.mono hlo hhi, h.2.mono hlo hhi⟩
  | _ => trivial

/-- **The values that a list of operations leaves have the ranges of the operations.** -/
theorem exec_within (hw : q.WF) {ops : List Op} (hops : ∀ op ∈ ops, op.Within X lo hi) :
    (q.exec ops).All fun h o => q.Live h ∨ h.param ∈ X ∨ o.Within lo hi := by
  refine Property.exec_all hw (fun h o hl _ => .inl hl) ?_
  intro op hop q' hw' _ h o ht _
  exact .inr (ht.within hw' (hops op hop))

end Within

/-! ## The first value of a parameter -/

/-- What an operation fills a value of a parameter with. -/
def Op.filled (d : Param) : Op → Option (Ptr × Nat)
  | set d' ptr len _ _ => if d' = d then some (ptr, len) else none
  | cpy d' bytes _ _ => if d' = d then some (.own, bytes.length) else none
  | _ => none

/-- What the values of a parameter are filled with, in order. -/
def fills (d : Param) (ops : List Op) : List (Ptr × Nat) := ops.filterMap (Op.filled d)

/-- The call of `set` or `cpy` by which an operation fills a value of a parameter. -/
def Op.call? (d : Param) : Op → Option (Cell → Cell)
  | set d' ptr len e _ => if d' = d then some (·.set ptr len e) else none
  | cpy d' bytes e _ => if d' = d then some (·.cpy bytes e) else none
  | _ => none

/-- The calls of `set` and `cpy` for a parameter, in order. -/
def setCalls (d : Param) (ops : List Op) : List (Cell → Cell) := ops.filterMap (Op.call? d)

section First

variable {q : Property} {d : Param}

theorem fills_append (ops ops' : List Op) : fills d (ops ++ ops') = fills d ops ++ fills d ops' :=
  List.filterMap_append

theorem Param.direct_iff : d.direct = true ↔ d.kind.plain = true ∧ d.kind ≠ .nsType ∧
    d ≠ .dhcpOptType ∧ d ≠ .dhcpOptLength ∧ d ≠ .dhcpOptData := by
  simp [Param.direct, and_assoc]

theorem Op.not_retains (hd : d.direct = true) {op : Op} (hf : op.filled d = none) :
    d ∉ op.retains := by
  obtain ⟨hp, ht, h1, h2, h3⟩ := Param.direct_iff.mp hd
  have hk : ∀ {d' : Param}, d'.kind.plain = false → d ≠ d' := by
    rintro d' hd' rfl
    simp [hp] at hd'
  cases op with
  | set d' ptr len e _ =>
    rintro hm
    obtain rfl := List.mem_singleton.mp hm
    simp [Op.filled] at hf
  | cpy d' bytes e _ =>
    rintro hm
    obtain rfl := List.mem_singleton.mp hm
    simp [Op.filled] at hf
  | code ptr len ty => simpa [Op.retains] using hk rfl
  | array d' hd' => simpa [Op.retains] using hk (by rw [hd']; rfl)
  | record ns target ptr len base totalLen =>
    have hrec : d ≠ ns.records := hk (by rw [ns.records_kind]; rfl)
    have hname : d ≠ ns.name := hk (by rw [ns.name_kind]; rfl)
    have htype : d ≠ ns.type := by
      rintro rfl
      exact ht ns.type_kind
    simp [Op.retains, hrec, hname, htype]
  | data ns ptr len ty base totalLen =>
    simpa [Op.retains] using hk (by rw [ns.data_kind]; rfl)
  | option ptr dataPtr len =>
    have hopt : d ≠ .dhcpOption := hk rfl
    simp [Op.retains, h1, h2, h3, hopt]
  | _ => simp [Op.retains]

/-- A live value of the parameter is left alone. -/
theorem Touch.not_live (hd : d.direct = true) {op : Op} {h : Handle} {o : Obj} (ht : Touch q op h o)
    (hh : h.param = d) : ¬ q.Live h := by
  obtain ⟨hp, hn, -⟩ := Param.direct_iff.mp hd
  subst hh
  have hnext : ∀ d, ¬ q.Live (q.next d) := fun d => Nat.lt_irrefl _
  cases ht with
  | recordArray ns ho => simp [Property.last, ns.record_kind, Kind.plain] at hp
  | type ns ho => exact absurd ns.type_kind hn
  | dataMap ns ho => simp [Property.last, ns.records_kind, Kind.plain] at hp
  | optionArray ho => cases hp
  | _ => exact hnext _

/-- What `call?` says is what the operation does. -/
theorem Op.call?_apply (hw : q.WF) {op : Op} {f : Cell → Cell} (hf : op.call? d = some f) :
    (op.apply q).count d = q.count d + 1 ∧
      ∃ o c, (op.apply q).obj? (q.next d) = some o ∧ o.cell = f c := by
  cases op with
  | set d' ptr len e _ =>
    simp only [Op.call?] at hf
    split at hf
    · rename_i he
      subst he
      cases hf
      refine ⟨by simp [Op.count_apply hw.sized, Op.retains], (q.fresh d').set ptr len e, _, ?_, rfl⟩
      rw [Op.obj?_apply hw.sized, Op.touch, if_pos rfl]
      rfl
    · cases hf
  | cpy d' bytes e _ =>
    simp only [Op.call?] at hf
    split at hf
    · rename_i he
      subst he
      cases hf
      refine ⟨by simp [Op.count_apply hw.sized, Op.retains], (q.fresh d').cpy bytes e, _, ?_, rfl⟩
      rw [Op.obj?_apply hw.sized, Op.touch, if_pos rfl]
      rfl
    · cases hf
  | _ => cases hf

/-- `filled` is the range of `call?`, which does not depend on the value. -/
theorem Op.call?_filled (d : Param) (op : Op) :
    op.call? d = none ∧ op.filled d = none ∨ ∃ f r, op.call? d = some f ∧ op.filled d = some r ∧
      ∀ c, (f c).active = true ∧ (f c).ptr = r.1 ∧ (f c).len = r.2 := by
  cases op with
  | set d' ptr len e _ =>
    by_cases he : d' = d
    · exact .inr ⟨_, _, if_pos he, if_pos he, fun c => ⟨rfl, rfl, rfl⟩⟩
    · exact .inl ⟨if_neg he, if_neg he⟩
  | cpy d' bytes e _ =>
    by_cases he : d' = d
    · exact .inr ⟨_, _, if_pos he, if_pos he, fun c => ⟨rfl, rfl, rfl⟩⟩
    · exact .inl ⟨if_neg he, if_neg he⟩
  | _ => exact .inl ⟨rfl, rfl⟩

/-- Live values of the parameter stay as they are. -/
theorem exec_keeps (hd : d.direct = true) (hw : q.WF) (ops : List Op) {h : Handle} {o : Obj}
    (hh : h.param = d) (hl : q.Live h) (ho : q.obj? h = some o) :
    (q.exec ops).Live h ∧ (q.exec ops).obj? h = some o := by
  induction ops generalizing q with
  | nil => exact ⟨hl, ho⟩
  | cons op ops ih =>
    refine ih (hw.apply op) (hl.apply hw.sized op) ?_
    rw [Op.obj?_apply hw.sized]
    cases ht : op.touch q h with
    | none => exact ho
    | some r =>
      obtain ⟨o', ho'⟩ := (hw.sized.apply op).obj?_live (hl.apply hw.sized op)
      rw [Op.obj?_apply hw.sized, ht, Option.getD_some] at ho'
      subst ho'
      exact absurd hl ((Op.touched ht).not_live hd hh)

/-- **`value(key)` is what the first operation for the parameter has set**, and there is none without
one. -/
theorem exec_call (hd : d.direct = true) (hw : q.WF) (hc : q.count d = 0) (ops : List Op) :
    match setCalls d ops with
    | [] => (q.exec ops).count d = 0
    | f :: _ => (q.exec ops).Live ⟨d, 0⟩ ∧
      ∃ o c, (q.exec ops).obj? ⟨d, 0⟩ = some o ∧ o.cell = f c := by
  induction ops generalizing q with
  | nil => exact hc
  | cons op ops ih =>
    unfold setCalls
    cases hf : op.call? d with
    | none =>
      rw [List.filterMap_cons_none hf]
      have hfilled : op.filled d = none := by
        obtain ⟨-, h⟩ | ⟨f, r, h, -⟩ := op.call?_filled d
        · exact h
        · rw [hf] at h
          cases h
      refine ih (hw.apply op) ?_
      rw [Op.count_apply hw.sized, if_neg (Op.not_retains hd hfilled), hc]
    | some f =>
      rw [List.filterMap_cons_some hf]
      obtain ⟨hcount, o, c, ho, hr⟩ := Op.call?_apply hw hf
      rw [Property.next, hc] at ho
      have hl : (op.apply q).Live ⟨d, 0⟩ := by
        rw [Property.Live, hcount]
        exact Nat.succ_pos _
      obtain ⟨hl', ho'⟩ := exec_keeps hd (hw.apply op) ops rfl hl ho
      exact ⟨hl', o, c, ho', hr⟩

/-- The calls for a parameter, and the ranges that they fill. -/
theorem setCalls_fills (d : Param) (ops : List Op) :
    match setCalls d ops with
    | [] => fills d ops = []
    | f :: _ => ∃ r rs, fills d ops = r :: rs ∧
      ∀ c, (f c).active = true ∧ (f c).ptr = r.1 ∧ (f c).len = r.2 := by
  induction ops with
  | nil => rfl
  | cons op ops ih =>
    unfold setCalls fills
    obtain ⟨h, h'⟩ | ⟨f, r, h, h', hr⟩ := op.call?_filled d
    · rw [List.filterMap_cons_none h, List.filterMap_cons_none h']
      exact ih
    · rw [List.filterMap_cons_some h, List.filterMap_cons_some h']
      exact ⟨r, _, rfl, hr⟩

/-- The range of the first value. -/
theorem exec_first (hd : d.direct = true) (hw : q.WF) (hc : q.count d = 0) (ops : List Op) :
    match fills d ops with
    | [] => (q.exec ops).count d = 0
    | r :: _ => (q.exec ops).Live ⟨d, 0⟩ ∧ ∃ o, (q.exec ops).obj? ⟨d, 0⟩ = some o ∧
      o.cell.active = true ∧ o.cell.ptr = r.1 ∧ o.cell.len = r.2 := by
  have hcall := exec_call hd hw hc ops
  have hfills := setCalls_fills d ops
  split at hcall
  · rename_i hnil
    rw [hnil] at hfills
    rw [hfills]
    exact hcall
  · rename_i f fs hcons
    rw [hcons] at hfills
    obtain ⟨r, rs, hfills, hr⟩ := hfills
    obtain ⟨hl, o, c, ho, hcell⟩ := hcall
    rw [hfills]
    exact ⟨hl, o, ho, hcell ▸ hr c⟩

end First

end PacketMachine.Decode
