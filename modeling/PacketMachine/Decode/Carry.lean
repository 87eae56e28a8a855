import PacketMachine.Decode.Shift
import PacketMachine.Decode.Keys

/-!
# Values that lie further on

`Sim` compares two properties after the same calls. Here the calls are those of `Shift`: the same but
for their positions, and a user reads the two properties in different packets.

* Some parameters are left out (`D`): those that the calls on one side alone have filled. They are
  direct, so no other value refers to theirs.
* A value that is not live is out of reach, as in `Sim`.
* The slots of a header outlive the packet: what a user sees of it is the same when both sides have the
  same slots (`Carried.observe_slots`).

Results:
* **`Carried.apply`**, **`Carried.exec`**: the moved calls keep two properties together.
* **`Carried.observe`**: they show the same values, through every path of `get` and `find`.
-/

namespace PacketMachine.Decode

open PacketMachine.Lib

variable {lo k : Nat} {m m' : Mem} {D : List Param}

/-- Two cells with the same bytes, `k` further on if they lie in the packet. -/
structure Cell.Moved (lo k : Nat) (c c' : Cell) : Prop where
  active : c'.active = c.active
  ptr : c.active = true → c'.ptr = c.ptr.moved k ∧ c.ptr.Above lo
  len : c.active = true → c'.len = c.len
  endian : c.active = true → c'.endian = c.endian
  buf : c.active = true → c.ptr = .own → c'.buf.take c'.len = c.buf.take c.len

/-- The members of a class, with the message `k` further on. -/
inductive Ext.Moved (lo k : Nat) : Ext → Ext → Prop
  | nsName {base totalLen : Nat} (h : lo ≤ base) :
    Ext.Moved lo k (.nsName base totalLen) (.nsName (base + k) totalLen)
  | nsData {type base totalLen : Nat} (h : lo ≤ base) :
    Ext.Moved lo k (.nsData type base totalLen) (.nsData type (base + k) totalLen)
  | storage (slots slots' : List Cell) : Ext.Moved lo k (.storage slots) (.storage slots')
  | same {e : Ext} (hn : e.kind ≠ .nsName) (hd : e.kind ≠ .nsData) : Ext.Moved lo k e e

/-- The same for an object. -/
structure Obj.Moved (lo k : Nat) (o o' : Obj) : Prop where
  cell : Cell.Moved lo k o.cell o'.cell
  ext : Ext.Moved lo k o.ext o'.ext

/-- **Two properties that show the same values**, `k` further on, but for the parameters in `D`. -/
structure Carried (lo k : Nat) (D : List Param) (q q' : Property) : Prop where
  wf : q.WF
  wf_right : q'.WF
  count : ∀ d, d ∉ D → q'.count d = q.count d
  objs : ∀ h o o', h.param ∉ D → q.Live h → q.obj? h = some o → q'.obj? h = some o' →
    Obj.Moved lo k o o'

section Objects

variable {c c' : Cell} {o o' : Obj} {d : Param}

theorem Cell.moved_of_inactive (h : c.active = false) (h' : c'.active = false) :
    Cell.Moved lo k c c' := by
  constructor <;> simp [h, h']

theorem Cell.moved_set {ptr : Ptr} (ha : ptr.Above lo) (hp : ptr ≠ .own) (len : Nat) (e : Endian) :
    Cell.Moved lo k (c.set ptr len e) (c'.set (ptr.moved k) len e) :=
  ⟨rfl, fun _ => ⟨rfl, ha⟩, fun _ => rfl, fun _ => rfl, fun _ h => absurd h hp⟩

theorem Cell.moved_pkt {off : Nat} (h : lo ≤ off) (len : Nat) (e : Endian) :
    Cell.Moved lo k (c.set (.pkt off) len e) (c'.set (.pkt (off + k)) len e) :=
  Cell.moved_set (show (Ptr.pkt off).Above lo from h) (by simp) len e

theorem Cell.moved_cpy (bytes : List UInt8) (e : Endian) :
    Cell.Moved lo k (c.cpy bytes e) (c'.cpy bytes e) := by
  refine ⟨rfl, fun _ => ⟨rfl, trivial⟩, fun _ => rfl, fun _ => rfl, fun _ _ => ?_⟩
  simp [Cell.cpy]

/-- Members of the plain classes are equal, or slots. -/
theorem Ext.moved_of_plain {e e' : Ext} (h : e.kind = d.kind) (h' : e'.kind = d.kind)
    (hd : d.kind.plain = true) : Ext.Moved lo k e e' := by
  obtain ⟨hn, hdata⟩ := plain_ne hd
  rcases Ext.same_of_plain h h' hd with rfl | ⟨hk, hk'⟩
  · exact .same (h ▸ hn) (h ▸ hdata)
  · cases e <;> cases hk
    cases e' <;> cases hk'
    exact .storage _ _

theorem Obj.Fresh.moved (h : o.Fresh d) (h' : o'.Fresh d) (hd : d.kind.plain = true) :
    Obj.Moved lo k o o' :=
  ⟨Cell.moved_of_inactive h.inactive h'.inactive, Ext.moved_of_plain h.kind h'.kind hd⟩

theorem Obj.Moved.push (h : Obj.Moved lo k o o') (hk : o.ext.kind = .array) (i : Handle) :
    Obj.Moved lo k (o.push i) (o'.push i) := by
  obtain ⟨cell, ext⟩ := o
  obtain ⟨cell', ext'⟩ := o'
  obtain ⟨hc, he⟩ := h
  cases ext <;> cases hk
  cases he
  exact ⟨hc, .same (by simp [Obj.push, Ext.kind]) (by simp [Obj.push, Ext.kind])⟩

theorem Obj.Moved.recData (h : Obj.Moved lo k o o') (hk : o.ext.kind = .nsRecord) (i : Handle) :
    Obj.Moved lo k (o.recData i) (o'.recData i) := by
  obtain ⟨cell, ext⟩ := o
  obtain ⟨cell', ext'⟩ := o'
  obtain ⟨hc, he⟩ := h
  cases ext <;> cases hk
  cases he
  exact ⟨hc, .same (by simp [Obj.recData, Ext.kind]) (by simp [Obj.recData, Ext.kind])⟩

end Objects

/-! ## Operations -/

section Operations

variable {q q' : Property}

theorem not_mem_of_direct (hD : ∀ d ∈ D, d.direct = true) {d : Param} (hd : d.direct = false) :
    d ∉ D := fun hm => by simp [hD d hm] at hd

/-- The values that others refer to are not direct. -/
theorem NameService.not_direct (ns : NameService) : ns.records.direct = false ∧
    ns.name.direct = false ∧ ns.data.direct = false ∧ ns.type.direct = false := by
  refine ⟨?_, ?_, ?_, ?_⟩ <;>
    simp [Param.direct, ns.records_kind, ns.name_kind, ns.data_kind, ns.type_kind, Kind.plain]

/-- The next value of a parameter has the same handle on both sides. -/
theorem Carried.next_iff (h : Carried lo k D q q') {i : Handle} (hi : i.param ∉ D) (d : Param) :
    i = q'.next d ↔ i = q.next d := by
  by_cases hd : d ∈ D
  · have hne : ∀ n, i ≠ ⟨d, n⟩ := by
      rintro n rfl
      exact hi hd
    exact iff_of_false (hne _) (hne _)
  · rw [Property.next, Property.next, h.count d hd]

theorem Carried.last_iff (h : Carried lo k D q q') {i : Handle} (hi : i.param ∉ D) (d : Param) :
    i = q'.last d ↔ i = q.last d := by
  by_cases hd : d ∈ D
  · have hne : ∀ n, i ≠ ⟨d, n⟩ := by
      rintro n rfl
      exact hi hd
    exact iff_of_false (hne _) (hne _)
  · rw [Property.last, Property.last, h.count d hd]

theorem Carried.next_eq (h : Carried lo k D q q') {d : Param} (hd : d ∉ D) :
    q'.next d = q.next d := by
  rw [Property.next, Property.next, h.count d hd]

/-- The object on the other side. -/
theorem Carried.other (h : Carried lo k D q q') {i : Handle} {o : Obj} (hi : i.param ∉ D)
    (hl : q.Live i) (ho : q.obj? i = some o) : ∃ o', q'.obj? i = some o' ∧ Obj.Moved lo k o o' := by
  have hl' : q'.Live i := by
    rw [Property.Live, h.count _ hi]
    exact hl
  obtain ⟨o', ho'⟩ := h.wf_right.sized.obj?_live hl'
  exact ⟨o', ho', h.objs i o o' hi hl ho ho'⟩

section Touch

variable {i : Handle}

/-- A container that a call adds to was live before. -/
theorem Carried.add (h : Carried lo k D q q') (hi : i.param ∉ D) {op : Op}
    (hl : (op.apply q).Live i) (hn : i.param ∉ op.retains) {f f' : Obj → Obj}
    (hf : ∀ o o', o.WF i.param → Obj.Moved lo k o o' → Obj.Moved lo k (f o) (f' o')) :
    Option.Rel (Obj.Moved lo k) ((q.obj? i).map f) ((q'.obj? i).map f') := by
  have hlive := hl.of_not_retained h.wf.sized hn
  obtain ⟨o, ho⟩ := h.wf.sized.obj?_live hlive
  obtain ⟨o', ho', hmoved⟩ := h.other hi hlive ho
  rw [ho, ho']
  exact .some (hf o o' (h.wf.objs i o ho) hmoved)

theorem Carried.touch_set (h : Carried lo k D q q') (hi : i.param ∉ D) {d : Param} {ptr : Ptr}
    (ha : ptr.Above lo) (hown : ptr ≠ .own) (len : Nat) (e : Endian) (hd : d.kind.plain = true) :
    Option.Rel (Option.Rel (Obj.Moved lo k)) ((Op.set d ptr len e hd).touch q i)
      (((Op.set d ptr len e hd).moved k).touch q' i) := by
  simp only [Op.touch, Op.moved, h.next_iff hi]
  split
  · refine .some (.some ⟨Cell.moved_set ha hown _ _, ?_⟩)
    exact Ext.moved_of_plain (h.wf.fresh d).kind (h.wf_right.fresh d).kind hd
  · exact .none

theorem Carried.touch_cpy (h : Carried lo k D q q') (hi : i.param ∉ D) {d : Param}
    (bytes : List UInt8) (e : Endian) (hd : d.kind.plain = true) :
    Option.Rel (Option.Rel (Obj.Moved lo k)) ((Op.cpy d bytes e hd).touch q i)
      (((Op.cpy d bytes e hd).moved k).touch q' i) := by
  simp only [Op.touch, Op.moved, h.next_iff hi]
  split
  · refine .some (.some ⟨Cell.moved_cpy _ _, ?_⟩)
    exact Ext.moved_of_plain (h.wf.fresh d).kind (h.wf_right.fresh d).kind hd
  · exact .none

theorem Carried.touch_code (h : Carried lo k D q q') (hi : i.param ∉ D) {ptr : Nat} (ha : lo ≤ ptr)
    (len type : Nat) : Option.Rel (Option.Rel (Obj.Moved lo k)) ((Op.code ptr len type).touch q i)
      (((Op.code ptr len type).moved k).touch q' i) := by
  simp only [Op.touch, Op.moved, h.next_iff hi]
  split
  · refine .some (.some ⟨Cell.moved_pkt ha _ _, ?_⟩)
    exact .same (by simp [Obj.setCode, Ext.kind]) (by simp [Obj.setCode, Ext.kind])
  · exact .none

theorem Carried.touch_array (h : Carried lo k D q q') (hi : i.param ∉ D) {d : Param}
    (hd : d.kind = .array) : Option.Rel (Option.Rel (Obj.Moved lo k)) ((Op.array d hd).touch q i)
      (((Op.array d hd).moved k).touch q' i) := by
  have hf := h.wf.fresh d
  have hf' := h.wf_right.fresh d
  simp only [Op.touch, Op.moved, h.next_iff hi]
  split
  · refine .some (.some ⟨Cell.moved_of_inactive hf.inactive hf'.inactive, ?_⟩)
    rw [hf.array hd, hf'.array hd]
    exact .same (by simp [Ext.kind]) (by simp [Ext.kind])
  · exact .none

/-- A record, with its name and its type, and the array of its section. -/
theorem Carried.touch_record (h : Carried lo k D q q') (hD : ∀ d ∈ D, d.direct = true)
    (hi : i.param ∉ D) {ns : NameService} {target ptr len base totalLen : Nat}
    (hop : lo ≤ ptr ∧ lo ≤ base) (hl : ((Op.record ns target ptr len base totalLen).apply q).Live i) :
    Option.Rel (Option.Rel (Obj.Moved lo k)) ((Op.record ns target ptr len base totalLen).touch q i)
      (((Op.record ns target ptr len base totalLen).moved k).touch q' i) := by
  have hf := h.wf.fresh
  have hf' := h.wf_right.fresh
  have hname := h.next_eq (not_mem_of_direct hD ns.not_direct.2.1)
  have htype := h.next_eq (not_mem_of_direct hD ns.not_direct.2.2.2)
  have hrec := h.next_eq (not_mem_of_direct hD ns.not_direct.1)
  simp only [Op.touch, Op.moved, h.last_iff hi, hname, htype, hrec]
  split
  · exact .some (.some ⟨Cell.moved_pkt hop.1 _ _, .nsName hop.2⟩)
  · split
    · rename_i e
      refine .some (h.add hi hl ?_ fun o o' hw hm => hm.push ?_ _)
      · rw [e]
        simp [Op.retains, Property.last, ns.ne.2.2.2.2]
      · rw [hw.kind, e]
        exact ns.record_kind target
    · split
      · obtain ⟨name, type, he⟩ := (hf ns.records).nsRecord ns.records_kind
        obtain ⟨name', type', he'⟩ := (hf' ns.records).nsRecord ns.records_kind
        refine .some (.some ⟨?_, ?_⟩)
        · simp only [Obj.recType, Obj.recName, he, he']
          exact Cell.moved_of_inactive (hf _).inactive (hf' _).inactive
        · simp only [Obj.recType, Obj.recName, he, he']
          exact .same (by simp [Ext.kind]) (by simp [Ext.kind])
      · split
        · exact .some (.some ((hf _).moved (hf' _) (by rw [ns.type_kind]; rfl)))
        · exact .none

theorem Carried.touch_type (h : Carried lo k D q q') (hi : i.param ∉ D) {ns : NameService}
    {ptr len : Nat} (ha : lo ≤ ptr) (hl : ((Op.type ns ptr len).apply q).Live i) :
    Option.Rel (Option.Rel (Obj.Moved lo k)) ((Op.type ns ptr len).touch q i)
      (((Op.type ns ptr len).moved k).touch q' i) := by
  simp only [Op.touch, Op.moved, h.last_iff hi]
  split
  · refine .some (h.add hi hl (by simp [Op.retains]) fun o o' hw hm => ⟨?_, hm.ext⟩)
    exact Cell.moved_pkt ha _ _
  · exact .none

/-- The data of a record, and the record. -/
theorem Carried.touch_data (h : Carried lo k D q q') (hD : ∀ d ∈ D, d.direct = true)
    (hi : i.param ∉ D) {ns : NameService} {ptr len type base totalLen : Nat}
    (hop : lo ≤ ptr ∧ lo ≤ base) (hl : ((Op.data ns ptr len type base totalLen).apply q).Live i) :
    Option.Rel (Option.Rel (Obj.Moved lo k)) ((Op.data ns ptr len type base totalLen).touch q i)
      (((Op.data ns ptr len type base totalLen).moved k).touch q' i) := by
  have hdata := h.next_eq (not_mem_of_direct hD ns.not_direct.2.2.1)
  simp only [Op.touch, Op.moved, h.last_iff hi, hdata]
  split
  · exact .some (.some ⟨Cell.moved_pkt hop.1 _ _, .nsData hop.2⟩)
  · split
    · rename_i e
      refine .some (h.add hi hl ?_ fun o o' hw hm => hm.recData ?_ _)
      · rw [e]
        simp [Op.retains, Property.last, ns.ne.2.2.2.1.symm]
      · rw [hw.kind, e]
        exact ns.records_kind
    · exact .none

/-- A DHCP option with its three values, and the array of the options. -/
theorem Carried.touch_option (h : Carried lo k D q q') (hD : ∀ d ∈ D, d.direct = true)
    (hi : i.param ∉ D) {ptr dataPtr len : Nat} (hop : lo ≤ ptr ∧ lo ≤ dataPtr)
    (hl : ((Op.option ptr dataPtr len).apply q).Live i) :
    Option.Rel (Option.Rel (Obj.Moved lo k)) ((Op.option ptr dataPtr len).touch q i)
      (((Op.option ptr dataPtr len).moved k).touch q' i) := by
  have hf := h.wf.fresh
  have hf' := h.wf_right.fresh
  have hopt := h.next_eq (not_mem_of_direct hD (d := .dhcpOption) rfl)
  have htype := h.next_eq (not_mem_of_direct hD (d := .dhcpOptType) rfl)
  have hlen := h.next_eq (not_mem_of_direct hD (d := .dhcpOptLength) rfl)
  have hdata := h.next_eq (not_mem_of_direct hD (d := .dhcpOptData) rfl)
  simp only [Op.touch, Op.moved, h.last_iff hi, hopt, htype, hlen, hdata]
  split
  · rename_i e
    refine .some (h.add hi hl ?_ fun o o' hw hm => hm.push ?_ _)
    · rw [e]
      simp [Op.retains, Property.last]
    · rw [hw.kind, e]
      rfl
  · split
    · refine .some (.some ⟨?_, .same ?_ ?_⟩)
      · exact Cell.moved_of_inactive (hf .dhcpOption).inactive (hf' .dhcpOption).inactive
      · simp [Obj.setOption, Ext.kind]
      · simp [Obj.setOption, Ext.kind]
    · split
      · refine .some (.some ⟨Cell.moved_pkt hop.2 _ _, ?_⟩)
        exact Ext.moved_of_plain (hf .dhcpOptData).kind (hf' .dhcpOptData).kind rfl
      · split
        · rw [Nat.add_right_comm]
          refine .some (.some ⟨Cell.moved_pkt (Nat.le_succ_of_le hop.1) _ _, ?_⟩)
          exact Ext.moved_of_plain (hf .dhcpOptLength).kind (hf' .dhcpOptLength).kind rfl
        · split
          · refine .some (.some ⟨Cell.moved_pkt hop.1 _ _, ?_⟩)
            exact Ext.moved_of_plain (hf .dhcpOptType).kind (hf' .dhcpOptType).kind rfl
          · exact .none

/-- **The moved call touches the same handles**, and leaves moved objects in them. -/
theorem Carried.touch (h : Carried lo k D q q') (hD : ∀ d ∈ D, d.direct = true) {op : Op}
    (hop : op.Above lo) (hown : ∀ d ptr len e hd, op = .set d ptr len e hd → ptr ≠ .own)
    (hi : i.param ∉ D) (hl : (op.apply q).Live i) :
    Option.Rel (Option.Rel (Obj.Moved lo k)) (op.touch q i) ((op.moved k).touch q' i) := by
  cases op with
  | set d ptr len e hd => exact h.touch_set hi hop (hown _ _ _ _ _ rfl) len e hd
  | cpy d bytes e hd => exact h.touch_cpy hi bytes e hd
  | code ptr len type => exact h.touch_code hi hop len type
  | array d hd => exact h.touch_array hi hd
  | record ns target ptr len base totalLen => exact h.touch_record hD hi hop hl
  | type ns ptr len => exact h.touch_type hi hop hl
  | data ns ptr len type base totalLen => exact h.touch_data hD hi hop hl
  | option ptr dataPtr len => exact h.touch_option hD hi hop hl
  | event ev => exact .none
  | srcAddr bytes => exact .none
  | dstAddr bytes => exact .none
  | srcPort port => exact .none
  | dstPort port => exact .none

end Touch

theorem Op.retains_moved (k : Nat) (op : Op) : (op.moved k).retains = op.retains := by
  cases op <;> rfl

theorem Op.event?_moved (k : Nat) (op : Op) : (op.moved k).event? = op.event? := by
  cases op <;> rfl

/-- **The moved call keeps two properties together.** -/
theorem Carried.apply (h : Carried lo k D q q') (hD : ∀ d ∈ D, d.direct = true) {op : Op}
    (hop : op.Above lo) (hown : ∀ d ptr len e hd, op = .set d ptr len e hd → ptr ≠ .own) :
    Carried lo k D (op.apply q) ((op.moved k).apply q') := by
  have hs := h.wf.sized
  have hs' := h.wf_right.sized
  refine ⟨h.wf.apply op, h.wf_right.apply _, fun d hd => ?_, fun i o o' hi hl ho ho' => ?_⟩
  · rw [Op.count_apply hs, Op.count_apply hs', Op.retains_moved, h.count d hd]
  · have ht := h.touch hD hop hown hi hl
    rw [Op.obj?_apply hs] at ho
    rw [Op.obj?_apply hs'] at ho'
    generalize hr : op.touch q i = r at ht ho
    generalize (op.moved k).touch q' i = r' at ht ho'
    cases ht with
    | none => exact h.objs i o o' hi (Op.live_of_untouched hs hr hl) ho ho'
    | some ht =>
      rw [Option.getD_some] at ho ho'
      subst ho ho'
      cases ht with
      | some hm => exact hm

theorem Carried.exec {ops ops' : List Op} (h : Carried lo k D q q') (hD : ∀ d ∈ D, d.direct = true)
    (hops : OpsMoved lo k ops ops')
    (hown : ∀ op ∈ ops, ∀ d ptr len e hd, op = .set d ptr len e hd → ptr ≠ .own) :
    Carried lo k D (q.exec ops) (q'.exec ops') := by
  obtain ⟨rfl, habove⟩ := hops
  induction ops generalizing q q' with
  | nil => exact h
  | cons op ops ih =>
    obtain ⟨hop, hrest⟩ := List.forall_mem_cons.mp habove
    obtain ⟨hset, hsets⟩ := List.forall_mem_cons.mp hown
    exact ih (h.apply hD hop hset) hsets hrest

/-- The call fills parameters in `D` only. -/
def Op.Only (D : List Param) (op : Op) : Prop :=
  (∀ d ∈ op.retains, d ∈ D) ∧ ∀ (q : Property) (i : Handle), i.param ∉ D → op.touch q i = none

theorem Op.only_set {d : Param} {ptr : Ptr} {len : Nat} {e : Endian} {hd : d.kind.plain = true}
    (h : d ∈ D) : (Op.set d ptr len e hd).Only D := by
  refine ⟨by simpa [Op.retains] using h, fun q i hi => ?_⟩
  rw [Op.touch, if_neg]
  rintro rfl
  exact hi h

theorem Op.only_cpy {d : Param} {bytes : List UInt8} {e : Endian} {hd : d.kind.plain = true}
    (h : d ∈ D) : (Op.cpy d bytes e hd).Only D := by
  refine ⟨by simpa [Op.retains] using h, fun q i hi => ?_⟩
  rw [Op.touch, if_neg]
  rintro rfl
  exact hi h

theorem Op.only_event (ev : Event) : (Op.event ev).Only D :=
  ⟨by simp [Op.retains], fun _ _ _ => rfl⟩

/-- What is not in `D` stays as it is. -/
theorem Op.Only.frame {op : Op} (hop : op.Only D) (hs : q.Sized) {i : Handle} (hi : i.param ∉ D) :
    (op.apply q).obj? i = q.obj? i ∧ (op.apply q).count i.param = q.count i.param := by
  constructor
  · rw [Op.obj?_apply hs, hop.2 q i hi, Option.getD_none]
  · rw [Op.count_apply hs, if_neg fun hr => hi (hop.1 _ hr)]

/-- **Calls that fill parameters in `D` only** do not show, on either side. -/
theorem Carried.exec_only {ops ops' : List Op} (h : Carried lo k D q q')
    (hops : ∀ op ∈ ops, op.Only D) (hops' : ∀ op ∈ ops', op.Only D) :
    Carried lo k D (q.exec ops) (q'.exec ops') := by
  induction ops generalizing q with
  | nil =>
    induction ops' generalizing q' with
    | nil => exact h
    | cons op ops ih =>
      obtain ⟨hop, hrest⟩ := List.forall_mem_cons.mp hops'
      refine ih hrest ⟨h.wf, h.wf_right.apply op, fun d hd => ?_, fun i o o' hi hl ho ho' => ?_⟩
      · rw [(hop.frame h.wf_right.sized (i := ⟨d, 0⟩) hd).2, h.count d hd]
      · rw [(hop.frame h.wf_right.sized hi).1] at ho'
        exact h.objs i o o' hi hl ho ho'
  | cons op ops ih =>
    obtain ⟨hop, hrest⟩ := List.forall_mem_cons.mp hops
    refine ih ⟨h.wf.apply op, h.wf_right, fun d hd => ?_, fun i o o' hi hl ho ho' => ?_⟩ hrest
    · rw [(hop.frame h.wf.sized (i := ⟨d, 0⟩) hd).2, h.count d hd]
    · rw [(hop.frame h.wf.sized hi).1] at ho
      rw [Property.Live, (hop.frame h.wf.sized hi).2] at hl
      exact h.objs i o o' hi hl ho ho'

/-- After `init` nothing is live. -/
theorem Carried.init (h : q.WF) : Carried lo k D q.init q.init := by
  refine ⟨h.init, h.init, fun _ _ => rfl, fun i o o' _ hl => ?_⟩
  rw [Property.Live, Property.count_init] at hl
  exact absurd hl (Nat.not_lt_zero _)

end Operations

/-! ## Cells in two packets -/

/-- A user reads the same bytes from two cells in their packets, or meets the same fault. -/
structure Cell.Reads (k : Nat) (m m' : Mem) (c c' : Cell) : Prop where
  active : c'.active = c.active
  null : c.active = true → (c'.ptr = .null ↔ c.ptr = .null)
  len : c.active = true → c'.len = c.len
  endian : c.active = true → c'.endian = c.endian
  bytes : c.active = true → Alike (Fault.Moved k) Eq (c.bytes m) (c'.bytes m')

/-- What a user sees of two values, but for the positions of faults. -/
structure Look.Moved (k : Nat) (l l' : Look) : Prop where
  active : l'.active = l.active
  repr : Alike (Fault.Moved k) Eq l.repr l'.repr
  raw : Alike (Fault.Moved k) Eq l.raw l'.raw
  uint64 : Alike (Fault.Moved k) Eq l.uint64 l'.uint64
  ip4 : Alike (Fault.Moved k) Eq l.ip4 l'.ip4
  ip6 : Alike (Fault.Moved k) Eq l.ip6 l'.ip6
  mac : Alike (Fault.Moved k) Eq l.mac l'.mac
  size : l'.size = l.size

section Cells

variable {c c' : Cell}

theorem Cell.Moved.reads (h : Cell.Moved lo k c c') (hm : Mem.Moved lo k m m') :
    Cell.Reads k m m' c c' := by
  refine ⟨h.active, fun ha => ?_, h.len, h.endian, fun ha => ?_⟩
  · rw [(h.ptr ha).1]
    cases c.ptr <;> simp [Ptr.moved]
  obtain ⟨hptr, habove⟩ := h.ptr ha
  have hlen := h.len ha
  have hbuf := h.buf ha
  unfold Cell.bytes
  rw [hptr]
  cases hc : c.ptr with
  | null =>
    dsimp only [Ptr.moved]
    rw [hlen]
    exact .ite Iff.rfl (fun _ => .ok rfl) fun _ => .error (.refl _)
  | pkt off =>
    rw [hc] at habove
    dsimp only [Ptr.moved]
    rw [hlen]
    exact hm.bytes _ habove rfl
  | own => exact .ok (hbuf hc).symm
  | ext data =>
    dsimp only [Ptr.moved]
    rw [hlen]
    exact .ok rfl
  | old =>
    dsimp only [Ptr.moved]
    rw [hlen]
    exact .ite Iff.rfl (fun _ => .ok rfl) fun _ => .error (.refl _)

theorem Cell.reads_empty (m m' : Mem) : Cell.Reads k m m' {} {} := by
  constructor <;> simp

theorem Cell.Reads.repr (h : Cell.Reads k m m' c c') :
    Alike (Fault.Moved k) Eq (c.repr m) (c'.repr m') := by
  unfold Cell.repr
  refine .ite (by rw [h.active]) (fun ha => ?_) fun _ => .ok rfl
  exact (h.bytes ha).bind_eq fun bs => alike_pure rfl

theorem Cell.Reads.raw (h : Cell.Reads k m m' c c') :
    Alike (Fault.Moved k) Eq (c.raw m) (c'.raw m') := by
  unfold Cell.raw
  refine .ite ?_ (fun ha => (h.bytes ha.1).bind_eq fun bs => alike_pure rfl) fun _ => .ok rfl
  rw [h.active]
  exact and_congr_right fun ha => not_congr (h.null ha).symm

/-- A value that is read when it is active and has a length. -/
theorem Cell.Reads.sized {α : Type} (h : Cell.Reads k m m' c c') (n : Nat)
    (f : List UInt8 → Except Fault α) (hf : ∀ bs, Alike (Fault.Moved k) Eq (f bs) (f bs)) (a : α) :
    Alike (Fault.Moved k) Eq (if c.active ∧ c.len = n then c.bytes m >>= f else .ok a)
      (if c'.active ∧ c'.len = n then c'.bytes m' >>= f else .ok a) := by
  refine .ite ?_ (fun ha => (h.bytes ha.1).bind_eq hf) fun _ => .ok rfl
  rw [h.active]
  exact and_congr_right fun ha => by rw [h.len ha]

theorem Cell.Reads.ip4 (h : Cell.Reads k m m' c c') :
    Alike (Fault.Moved k) Eq (c.ip4 m) (c'.ip4 m') :=
  h.sized 4 _ (fun _ => alike_pure rfl) _

theorem Cell.Reads.ip6 (h : Cell.Reads k m m' c c') (ntop6 : List UInt8 → Text) :
    Alike (Fault.Moved k) Eq (c.ip6 ntop6 m) (c'.ip6 ntop6 m') :=
  h.sized 16 _ (fun _ => alike_pure rfl) _

theorem Cell.Reads.mac (h : Cell.Reads k m m' c c') :
    Alike (Fault.Moved k) Eq (c.mac m) (c'.mac m') :=
  h.sized 6 _ (fun _ => alike_pure rfl) _

theorem Cell.Reads.uint64? (h : Cell.Reads k m m' c c') :
    Alike (Fault.Moved k) Eq (c.uint64? m) (c'.uint64? m') := by
  unfold Cell.uint64?
  have hactive : c.isUint = true → c.active = true := fun hu => (Bool.and_eq_true_iff.mp hu).1
  refine .ite ?_ (fun hu => ?_) fun _ => .ok rfl
  · unfold Cell.isUint
    rw [h.active]
    by_cases ha : c.active = true
    · rw [h.len ha]
    · simp [ha]
  · rw [h.endian (hactive hu)]
    exact (h.bytes (hactive hu)).bind_eq fun bs => alike_pure rfl

theorem Cell.Reads.uint64 (h : Cell.Reads k m m' c c') :
    Alike (Fault.Moved k) Eq (c.uint64 m) (c'.uint64 m') :=
  h.uint64?.bind_eq fun _ => alike_pure rfl

theorem Cell.Reads.uint (h : Cell.Reads k m m' c c') :
    Alike (Fault.Moved k) Eq (c.uint m) (c'.uint m') :=
  h.uint64.bind_eq fun _ => alike_pure rfl

theorem Cell.Reads.look (h : Cell.Reads k m m' c c') (ntop6 : List UInt8 → Text)
    {repr repr' : Except Fault Text} (hr : Alike (Fault.Moved k) Eq repr repr') (size : Nat) :
    Look.Moved k (c.look ntop6 m repr size) (c'.look ntop6 m' repr' size) :=
  ⟨h.active, hr, h.raw, h.uint64, h.ip4, h.ip6 ntop6, h.mac, rfl⟩

theorem Look.moved_null (ntop6 : List UInt8 → Text) (m m' : Mem) :
    Look.Moved k (Cell.look ntop6 m {} (.ok []) 0) (Cell.look ntop6 m' {} (.ok []) 0) :=
  (Cell.reads_empty m m').look ntop6 (alike_pure rfl) 0

end Cells

/-! ## Names and data -/

section Leaves

variable {c c' : Cell} {ntop6 : List UInt8 → Text}

theorem Cell.Moved.start (h : Cell.Moved lo k c c') :
    Alike (Fault.Moved k) (Shifted lo k) c.start c'.start := by
  unfold Cell.start
  rw [h.active]
  by_cases ha : c.active = true
  · obtain ⟨hptr, habove⟩ := h.ptr ha
    rw [ha, hptr]
    cases hc : c.ptr with
    | pkt off =>
      rw [hc] at habove
      exact .ok ⟨habove, rfl⟩
    | _ => exact .error (.refl _)
  · rw [Bool.not_eq_true] at ha
    rw [ha]
    exact .error (.refl _)

theorem txtLoop_alike (hm : Mem.Moved lo k m m') {start start' : Nat} (hs : Shifted lo k start start')
    (len : Nat) : ∀ (fuel p : Nat) (os : Text),
      Alike (Fault.Moved k) Eq (txtLoop m start len fuel p os) (txtLoop m' start' len fuel p os)
  | 0, _, _ => .error (.refl _)
  | fuel + 1, p, os => by
    obtain ⟨hlo, rfl⟩ := hs
    unfold txtLoop
    refine .ite Iff.rfl (fun _ => .ok rfl) fun _ => ?_
    refine (hm.u8 (by omega) (by omega)).bind_eq fun b => ?_
    dsimp only
    refine .ite Iff.rfl (fun _ => alike_pure rfl) fun _ => ?_
    refine (hm.bytes _ (by omega) (by omega)).bind_eq fun bs => ?_
    exact txtLoop_alike hm ⟨hlo, rfl⟩ len fuel _ _

/-- A position is read from an active value only. -/
theorem Cell.Moved.start_bind {α : Type} (h : Cell.Moved lo k c c') {f g : Nat → Except Fault α}
    (hfg : c.active = true → ∀ p p', Shifted lo k p p' → Alike (Fault.Moved k) Eq (f p) (g p')) :
    Alike (Fault.Moved k) Eq (c.start >>= f) (c'.start >>= g) := by
  by_cases ha : c.active = true
  · exact h.start.bind (hfg ha)
  · rw [Cell.start_of_inactive ha, Cell.start_of_inactive (h.active ▸ ha)]
    exact .error (.refl _)

theorem Cell.Moved.nsName (h : Cell.Moved lo k c c') (hm : Mem.Moved lo k m m') {base totalLen : Nat}
    (hb : lo ≤ base) : Alike (Fault.Moved k) Eq (nsNameRepr m c base totalLen)
      (nsNameRepr m' c' (base + k) totalLen) := by
  refine h.start_bind fun ha p p' hp => ?_
  rw [h.len ha]
  refine (parseLabel_alike hm hp ⟨hb, rfl⟩ _).bind ?_
  rintro ⟨q, s⟩ ⟨q', s'⟩ ⟨hq, rfl⟩
  cases hq with
  | none => exact alike_pure rfl
  | some _ => exact alike_pure rfl

theorem Cell.Moved.nsData (h : Cell.Moved lo k c c') (hm : Mem.Moved lo k m m')
    {type base totalLen : Nat} (hb : lo ≤ base) :
    Alike (Fault.Moved k) Eq (nsDataRepr ntop6 m c type base totalLen)
      (nsDataRepr ntop6 m' c' type (base + k) totalLen) := by
  unfold nsDataRepr
  refine .ite Iff.rfl (fun _ => (h.reads hm).ip4) fun _ => ?_
  refine .ite Iff.rfl (fun _ => (h.reads hm).ip6 ntop6) fun _ => ?_
  refine .ite Iff.rfl (fun _ => ?_) fun _ => .ite Iff.rfl (fun _ => ?_) fun _ => ?_
  · refine h.start_bind fun ha p p' hp => ?_
    rw [h.len ha]
    refine (parseLabel_alike hm hp ⟨hb, rfl⟩ _).bind ?_
    rintro ⟨q, s⟩ ⟨q', s'⟩ ⟨hq, rfl⟩
    cases hq with
    | none => exact alike_pure rfl
    | some _ => exact alike_pure rfl
  · refine h.start_bind fun ha p p' hp => ?_
    rw [h.len ha]
    exact txtLoop_alike hm hp _ _ _ _
  · refine h.start_bind fun ha p p' hp => ?_
    rw [h.len ha]
    exact (hm.bytes _ hp.1 hp.2).bind_eq fun bs => alike_pure rfl

/-- Moved objects print the same, when they hold no others. -/
theorem Obj.Moved.leafRepr {o o' : Obj} (h : Obj.Moved lo k o o') (hm : Mem.Moved lo k m m')
    (ntop6 : List UInt8 → Text) :
    Alike (Fault.Moved k) Eq (o.leafRepr ntop6 m) (o'.leafRepr ntop6 m') := by
  obtain ⟨cell, ext⟩ := o
  obtain ⟨cell', ext'⟩ := o'
  obtain ⟨hc, he⟩ := h
  dsimp only at hc he
  have hr := hc.reads hm
  unfold Obj.leafRepr
  cases he with
  | nsName hb => exact hc.nsName hm hb
  | nsData hb => exact .ite (by rw [hc.active]) (fun _ => hc.nsData hm hb) fun _ => .error (.refl _)
  | storage => exact hr.repr
  | same hn hd =>
    cases ext with
    | ipv4Addr => exact hr.ip4
    | portNumber =>
      refine hr.uint64?.bind_eq fun n => ?_
      cases n with
      | none => exact .error (.refl _)
      | some n => exact alike_pure rfl
    | nsType => exact hr.uint.bind_eq fun n => alike_pure rfl
    | icmpType => exact hr.uint.bind_eq fun n => alike_pure rfl
    | icmpCode type =>
      refine .ite (by rw [hc.active]) (fun _ => ?_) fun _ => .error (.refl _)
      exact hr.uint.bind_eq fun n => alike_pure rfl
    | nsName => exact absurd rfl hn
    | nsData => exact absurd rfl hd
    | _ => exact hr.repr

theorem Obj.Moved.access_eq {o o' : Obj} (h : Obj.Moved lo k o o') (hk : o.ext.kind ≠ .storage)
    (i : Handle) (a : Access) : o'.access i a = o.access i a := by
  obtain ⟨cell, ext⟩ := o
  obtain ⟨cell', ext'⟩ := o'
  obtain ⟨-, he⟩ := h
  cases he with
  | storage => exact absurd rfl hk
  | _ => cases a <;> rfl

theorem Obj.Moved.size_eq {o o' : Obj} (h : Obj.Moved lo k o o') (hk : o.ext.kind ≠ .storage) :
    o'.size = o.size := by
  obtain ⟨cell, ext⟩ := o
  obtain ⟨cell', ext'⟩ := o'
  obtain ⟨-, he⟩ := h
  cases he with
  | storage => exact absurd rfl hk
  | _ => rfl

end Leaves

/-! ## Paths -/

section Paths

variable {q q' : Property} {ntop6 : List UInt8 → Text}

/-- What live values refer to is in view. -/
def Property.InView (D : List Param) (q : Property) : Prop :=
  q.Linked ∧ q.All fun _ o => ∀ i, .obj i ∈ o.refs → i.param ∉ D

/-- `value::NONE`, or a live value that is in view. -/
def Property.Shown (D : List Param) (q : Property) (r : Ref) : Prop :=
  q.Valid r ∧ ∀ i, r = .obj i → i.param ∉ D

theorem Property.InView.refs (h : q.InView D) {i : Handle} {o : Obj} (hl : q.Live i)
    (ho : q.obj? i = some o) {r : Ref} (hr : r ∈ o.refs) : q.Shown D r := by
  refine ⟨h.1 i o hl ho r hr, ?_⟩
  rintro j rfl
  exact h.2 i o hl ho j hr

theorem alike_foldlM {α β : Type} {f g : β → α → Except Fault β} {l : List α}
    (h : ∀ a ∈ l, ∀ b, Alike (Fault.Moved k) Eq (f b a) (g b a)) (b : β) :
    Alike (Fault.Moved k) Eq (l.foldlM f b) (l.foldlM g b) := by
  induction l generalizing b with
  | nil => exact alike_pure rfl
  | cons a l ih =>
    obtain ⟨ha, hl⟩ := List.forall_mem_cons.mp h
    rw [List.foldlM_cons, List.foldlM_cons]
    exact (ha b).bind_eq fun b' => ih hl b'

/-- **`repr` prints the same.** The induction is on the depth. -/
theorem Carried.repr (h : Carried lo k D q q') (hm : Mem.Moved lo k m m') (hv : q.InView D) (n : Nat)
    {r : Ref} (hr : q.Shown D r) :
    Alike (Fault.Moved k) Eq (q.repr ntop6 m n r) (q'.repr ntop6 m' n r) := by
  induction n generalizing r with
  | zero => cases r <;> exact .error (.refl _)
  | succ n ih =>
    cases r with
    | null => exact .error (.refl _)
    | none => exact .ok rfl
    | slot i j => exact hr.1.elim
    | obj i =>
      obtain ⟨⟨hlive, -⟩, hi⟩ := hr
      obtain ⟨o, ho⟩ := h.wf.sized.obj?_live hlive
      obtain ⟨o', ho', hmoved⟩ := h.other (hi i rfl) hlive ho
      have hrefs : ∀ r ∈ o.refs, Alike (Fault.Moved k) Eq (q.repr ntop6 m n r) (q'.repr ntop6 m' n r) :=
        fun r hr => ih (hv.refs hlive ho hr)
      have hleaf := hmoved.leafRepr hm ntop6
      obtain ⟨cell, ext⟩ := o
      obtain ⟨cell', ext'⟩ := o'
      obtain ⟨-, he⟩ := hmoved
      simp only [Property.repr, ho, ho']
      cases he with
      | nsName => exact hleaf
      | nsData => exact hleaf
      | storage => exact hleaf
      | same =>
        cases ext with
        | array items =>
          refine (alike_foldlM (fun i hi os => ?_) []).bind_eq fun body => alike_pure rfl
          exact (hrefs (.obj i) (List.mem_map_of_mem hi)).bind_eq fun s => alike_pure rfl
        | nsRecord name type data =>
          have hname := hrefs name (by simp [Obj.refs])
          have htype := hrefs type (by simp [Obj.refs])
          have hdata := hrefs data (by simp [Obj.refs])
          refine (hdata.bind_eq fun s => alike_pure rfl).bind_eq fun d => ?_
          refine (hname.bind_eq fun s => alike_pure rfl).bind_eq fun n => ?_
          exact (htype.bind_eq fun s => alike_pure rfl).bind_eq fun t => alike_pure rfl
        | option type length data =>
          have htype := hrefs type (by simp [Obj.refs])
          have hlen := hrefs length (by simp [Obj.refs])
          have hdata := hrefs data (by simp [Obj.refs])
          refine (hdata.bind_eq fun s => alike_pure rfl).bind_eq fun d => ?_
          refine (hlen.bind_eq fun s => alike_pure rfl).bind_eq fun n => ?_
          exact (htype.bind_eq fun s => alike_pure rfl).bind_eq fun t => alike_pure rfl
        | _ => exact hleaf

/-- **Paths lead to the same place**, and this is in view. -/
theorem Carried.walk (h : Carried lo k D q q') (hv : q.InView D) (path : List Access) {r : Ref}
    (hr : q.Shown D r) :
    Returns (q.walk r path) fun x => q'.walk r path = .ok x ∧ ∀ r', x = some r' → q.Shown D r' := by
  refine walk_eq_of_access (P := q.Shown D) (fun hr => hr.1) ⟨trivial, by simp⟩ (fun _ _ hr => hr.1)
    ?_ path hr
  rintro i ⟨⟨hlive, hkind⟩, hin⟩
  obtain ⟨o, ho⟩ := h.wf.sized.obj?_live hlive
  obtain ⟨o', ho', hmoved⟩ := h.other (hin i rfl) hlive ho
  have hk : o.ext.kind ≠ .storage := (h.wf.objs i o ho).kind ▸ hkind
  exact ⟨o, o', ho, ho', hk, fun a => (hmoved.access_eq hk i a).symm,
    fun r hmem => hv.refs hlive ho hmem⟩

theorem Carried.look (h : Carried lo k D q q') (hm : Mem.Moved lo k m m') (hv : q.InView D)
    (ntop6 : List UInt8 → Text) {r : Ref} (hr : q.Shown D r) :
    Option.Rel (Look.Moved k) (q.look ntop6 m r) (q'.look ntop6 m' r) := by
  cases r with
  | null => exact .none
  | none => exact .some (Look.moved_null ntop6 m m')
  | slot i j => exact hr.1.elim
  | obj i =>
    obtain ⟨o, ho⟩ := h.wf.sized.obj?_live hr.1.1
    obtain ⟨o', ho', hmoved⟩ := h.other (hr.2 i rfl) hr.1.1 ho
    have hk : o.ext.kind ≠ .storage := (h.wf.objs i o ho).kind ▸ hr.1.2
    simp only [Property.look, ho, ho', Option.map_some, hmoved.size_eq hk]
    exact .some ((hmoved.cell.reads hm).look ntop6 (h.repr hm hv 3 hr) _)

end Paths

/-! ## Minor parameters -/

section Minors

variable {q q' : Property} {ntop6 : List UInt8 → Text}

/-- The function computes the same from a header that lies further on. -/
def Defer.Steady : Defer → Prop
  | .field _ _ => True
  | .calc f => ∀ (lo k : Nat) (m m' : Mem) (p p' : Nat), Mem.Moved lo k m m' → Shifted lo k p p' →
    Alike (Fault.Moved k) Eq (f m p) (f m' p')

theorem Defer.steady_u8 (off : Nat) (g : UInt8 → List UInt8) :
    Defer.Steady (.calc fun m ptr => return g (← m.u8 (ptr + off))) := by
  rintro lo k m m' p _ hm ⟨hlo, rfl⟩
  exact (hm.u8 (by omega) (by omega)).bind_eq fun b => alike_pure rfl

theorem Defer.steady_u32 (g : Nat → List UInt8) :
    Defer.Steady (.calc fun m ptr => return g (← m.u32 ptr)) := by
  rintro lo k m m' p _ hm ⟨hlo, rfl⟩
  exact (hm.u32 hlo rfl).bind_eq fun n => alike_pure rfl

/-- **No minor parameter depends on the place of its header.** -/
theorem Param.minors_steady (d : Param) : ∀ x ∈ d.minors, x.2.Steady := by
  cases d with
  | ipv4Hdr =>
    have hlen := Defer.steady_u8 0 fun b => [(b &&& 0x0f) <<< 2]
    have hver := Defer.steady_u8 0 fun b => [b >>> 4]
    simp only [Param.minors, List.forall_mem_cons]
    and_intros
    all_goals first | exact trivial | exact hlen | exact hver | simp
  | ipv6Hdr =>
    simp only [Param.minors, List.forall_mem_cons]
    and_intros
    all_goals first | exact trivial | exact Defer.steady_u32 fun n => hostU32 _ | simp
  | tcpHdr =>
    have hflag : ∀ flag, (flagMinor flag).Steady := fun flag =>
      Defer.steady_u8 13 fun b => [if 0 < b &&& flag then 1 else 0]
    have hoff := Defer.steady_u8 12 fun b => [(b &&& 0xf0) >>> 2]
    simp only [Param.minors, List.forall_mem_cons]
    and_intros
    all_goals first | exact trivial | exact hflag _ | exact hoff | simp
  | udpHdr =>
    simp only [Param.minors, List.forall_mem_cons]
    and_intros
    all_goals first | exact trivial | simp
  | _ => exact List.forall_mem_nil _

theorem Defer.Steady.run {f : Defer} (hf : f.Steady) (hm : Mem.Moved lo k m m') {p p' : Nat}
    (hp : Shifted lo k p p') (c c' : Cell) :
    Alike (Fault.Moved k) (Cell.Moved lo k) (f.run m p c) (f.run m' p' c') := by
  rcases f with ⟨off, len⟩ | f
  · obtain ⟨hlo, rfl⟩ := hp
    rw [Defer.run, Defer.run, Nat.add_right_comm]
    exact .ok (Cell.moved_pkt (Nat.le_add_right_of_le hlo) _ _)
  · exact (hf _ _ _ _ _ _ hm hp).bind_eq fun bytes => alike_pure (Cell.moved_cpy bytes _)

/-- A parameter that was not filled shows `Property::null_`. -/
theorem Property.observe_absent (key : Key) (hc : q.count key.pool = 0) (path : List Access) :
    q.observe ntop6 m key path
      = .ok (if path = [] then some (Cell.look ntop6 m {} (.ok []) 0) else none) := by
  have hnot : ¬ 0 < q.count key.pool := by omega
  have hval : q.value m key = .ok (q, .null) := by
    cases key <;> exact if_neg hnot
  rw [Property.observe, hval]
  cases path <;> rfl

/-- **Two properties show the same values** in two packets, through every path of `get` and `find`. -/
theorem Carried.observe (h : Carried lo k D q q') (hm : Mem.Moved lo k m m') (hv : q.InView D)
    {key : Key} (hkey : key.pool ∉ D) (hhdr : key.header = false) (path : List Access) :
    Alike (Fault.Moved k) (Option.Rel (Look.Moved k)) (q.observe ntop6 m key path)
      (q'.observe ntop6 m' key path) := by
  have hcount := h.count key.pool hkey
  rcases Nat.eq_zero_or_pos (q.count key.pool) with hc | hc
  · rw [Property.observe_absent _ hc, Property.observe_absent _ (hcount.trans hc)]
    split
    · exact .ok (.some (Look.moved_null ntop6 m m'))
    · exact .ok .none
  · have hc' : 0 < q'.count key.pool := hcount ▸ hc
    cases key with
    | param d =>
      have hr : q.Shown D (.obj ⟨d, 0⟩) := by
        refine ⟨⟨hc, Key.kind_of_not_header hhdr⟩, ?_⟩
        rintro _ ⟨⟩
        exact hkey
      obtain ⟨x, hwalk, hwalk', hshown⟩ := h.walk hv path hr
      have hval : q.value m (.param d) = .ok (q, .obj ⟨d, 0⟩) := if_pos hc
      have hval' : q'.value m' (.param d) = .ok (q', .obj ⟨d, 0⟩) := if_pos hc'
      rw [Property.observe, Property.observe, hval, hval']
      simp only [bind, Except.bind, hwalk, hwalk']
      cases x with
      | none => exact alike_pure .none
      | some r => exact alike_pure (h.look hm hv ntop6 (hshown r rfl))
    | minor d i =>
      obtain ⟨o, ho⟩ := h.wf.sized.obj?_live (h := ⟨d, 0⟩) hc
      obtain ⟨o', ho', hmoved⟩ := h.other (i := ⟨d, 0⟩) hkey hc ho
      obtain ⟨c, hobs⟩ := h.wf.observe_minor ntop6 m i hc ho path
      obtain ⟨c', hobs'⟩ := h.wf_right.observe_minor ntop6 m' i hc' ho' path
      rw [hobs, hobs']
      refine hmoved.cell.start.bind fun p p' hp => ?_
      refine ((d.minors_steady _ (d.minors.get_mem i)).run hm hp c c').bind fun s s' hs => ?_
      have hr := hs.reads hm
      split
      · exact alike_pure (.some (hr.look ntop6 hr.repr 0))
      · exact alike_pure .none

end Minors

end PacketMachine.Decode
