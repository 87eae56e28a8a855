import PacketMachine.Decode.Decoder
import PacketMachine.Decode.Same

/-!
# Reading the values of a packet

`Property::value` of a minor parameter computes a slot from the header that its major parameter stands
for. After a packet is decoded every such header lies in the packet (`Property.Headed`), so that
reading never leaves it; and reading changes slots only, which `Sim` does not see. A slot keeps what it
holds (`Property.held`) through `init` and the calls of the decoders.

Results:
* `Param.minors_fit`: every minor parameter lies in the header of its major one.
* **`reads_returns`**: reading any values, in any order, succeeds and leaves a property that looks the
  same; the slots that were read are computed from the packet, the others are left (`Refreshes`).
* **`run_returns`**: so does every packet, whatever was decoded and read before.
-/

namespace PacketMachine.Decode

open PacketMachine.Lib

variable {τ : Type}

/-- The bytes that a minor parameter needs lie in a header. -/
def Defer.Fits (extent : Nat) : Defer → Prop
  | .field off len => 0 < len ∧ off + len ≤ extent
  | .calc f => ∀ (m : Mem) (ptr : Nat), m.Has ptr extent → Returns (f m ptr) fun _ => True

/-- Every major parameter stands for a whole header in a packet of `hi` bytes. -/
def Property.Headed (hi : Nat) (q : Property) : Prop :=
  q.All fun h o => h.param.kind = .storage → ∃ off, o.cell.At off ∧ off + h.param.extent ≤ hi

/-- An active value of some length that was filled with `set`. -/
structure Cell.Ranged (c : Cell) : Prop where
  active : c.active = true
  len : c.len ≠ 0
  ptr : c.ptr ≠ .own

/-- A value that was filled with `set` denotes bytes of a packet of `n` bytes. -/
def Cell.Inside (n : Nat) (c : Cell) : Prop :=
  c.Ranged → ∃ off, c.ptr = .pkt off ∧ off + c.len ≤ n

/-- A slot that the function has computed from the header at `base`. -/
def Defer.Computed (base : Nat) : Defer → Cell → Prop
  | .field off len, c => c.Ranged ∧ c.ptr = .pkt (base + off) ∧ c.len = len
  | .calc _, c => ¬ c.Ranged

/-! ## Minor parameters -/

section Minors

theorem Defer.fits_u8 {off extent : Nat} (h : off < extent) (g : UInt8 → List UInt8) :
    Defer.Fits extent (.calc fun m ptr => return g (← m.u8 (ptr + off))) := by
  intro m ptr hm
  exact .bind_ok (Mem.u8_eq hm (by omega) (by omega)) (returns_pure.mpr trivial)

theorem Defer.fits_u32 {extent : Nat} (h : 4 ≤ extent) (g : Nat → List UInt8) :
    Defer.Fits extent (.calc fun m ptr => return g (← m.u32 ptr)) := by
  intro m ptr hm
  exact .bind_ok (Mem.u32_eq hm (by omega) (by omega)) (returns_pure.mpr trivial)

theorem flagMinor_fits (flag : UInt8) : (flagMinor flag).Fits 20 :=
  Defer.fits_u8 (show 13 < 20 by decide) fun b => [if 0 < b &&& flag then 1 else 0]

/-- **Every minor parameter lies in the header of its major one.** -/
theorem Param.minors_fit (d : Param) : ∀ x ∈ d.minors, x.2.Fits d.extent := by
  cases d with
  | ipv4Hdr =>
    have hlen := Defer.fits_u8 (show 0 < 20 by decide) fun b => [(b &&& 0x0f) <<< 2]
    have hver := Defer.fits_u8 (show 0 < 20 by decide) fun b => [b >>> 4]
    simp only [Param.minors, Param.extent, List.forall_mem_cons]
    and_intros
    all_goals first | exact hlen | exact hver | simp
  | ipv6Hdr =>
    simp only [Param.minors, Param.extent, List.forall_mem_cons]
    and_intros
    all_goals first | exact Defer.fits_u32 (by decide) fun n => hostU32 _ | simp
  | tcpHdr =>
    have hoff := Defer.fits_u8 (show 12 < 20 by decide) fun b => [(b &&& 0xf0) >>> 2]
    simp only [Param.minors, Param.extent, List.forall_mem_cons]
    and_intros
    all_goals first | exact flagMinor_fits _ | exact hoff | simp
  | udpHdr =>
    simp only [Param.minors, Param.extent, List.forall_mem_cons]
    and_intros
    all_goals simp
  | _ => exact List.forall_mem_nil _

/-- A slot is computed from a header in the packet. -/
theorem Defer.run_returns {f : Defer} {extent : Nat} (hf : f.Fits extent) {m : Mem} {hi ptr : Nat}
    (hm : m.Has 0 hi) (hp : ptr + extent ≤ hi) (c : Cell) :
    Returns (f.run m ptr c) (f.Computed ptr) := by
  rcases f with ⟨off, len⟩ | f
  · have hpos : len ≠ 0 := Nat.pos_iff_ne_zero.mp hf.1
    exact returns_ok.mpr ⟨⟨rfl, hpos, by simp [Cell.set]⟩, rfl, rfl⟩
  · refine (hf m ptr (hm.sub (Nat.zero_le _) (by omega))).bind fun bytes _ => ?_
    exact returns_pure.mpr fun hr => hr.ptr rfl

/-- A slot that is computed from a header in the packet lies in it. -/
theorem Defer.Computed.inside {f : Defer} {extent base hi : Nat} {c : Cell} (h : f.Computed base c)
    (hf : f.Fits extent) (hp : base + extent ≤ hi) : c.Inside hi := by
  rcases f with ⟨off, len⟩ | f
  · obtain ⟨-, hptr, hlen⟩ := h
    have hle : off + len ≤ extent := hf.2
    exact fun _ => ⟨base + off, hptr, by omega⟩
  · exact fun hr => absurd hr h

end Minors

/-! ## Headers -/

section Headers

variable {q q' : Property} {hi : Nat}

/-- A header is touched by `set` and `cpy` only. -/
theorem Touch.of_storage {op : Op} {h : Handle} {o : Obj} (ht : Touch q op h o)
    (hk : h.param.kind = .storage) : h = q.next h.param ∧
      ((∃ ptr len e hd, op = .set h.param ptr len e hd ∧ o = (q.fresh h.param).set ptr len e) ∨
        ∃ bytes e hd, op = .cpy h.param bytes e hd ∧ o = (q.fresh h.param).cpy bytes e) := by
  cases ht with
  | set hd => exact ⟨rfl, .inl ⟨_, _, _, hd, rfl, rfl⟩⟩
  | cpy hd => exact ⟨rfl, .inr ⟨_, _, hd, rfl, rfl⟩⟩
  | array hd => simp [Property.next, hd] at hk
  | recordName ns => simp [Property.next, ns.name_kind] at hk
  | recordArray ns ho => simp [Property.last, ns.record_kind] at hk
  | recordMap ns => simp [Property.next, ns.records_kind] at hk
  | recordType ns => simp [Property.next, ns.type_kind] at hk
  | type ns ho => simp [Property.last, ns.type_kind] at hk
  | data ns => simp [Property.next, ns.data_kind] at hk
  | dataMap ns ho => simp [Property.last, ns.records_kind] at hk
  | _ => cases hk

/-- **After a packet is decoded every header lies in it.** -/
theorem exec_headed (hw : q.WF) (hq : q.Headed hi) {ops : List Op} (hops : ∀ op ∈ ops, op.Fits hi) :
    (q.exec ops).Headed hi := by
  refine Property.exec_all hw hq ?_
  intro op hop q' hw' _ h o ht _ hk
  obtain ⟨-, ⟨ptr, len, e, hd, rfl, rfl⟩ | ⟨bytes, e, hd, rfl, rfl⟩⟩ := ht.of_storage hk
  · obtain ⟨hwithin, hwhole⟩ := hops _ hop
    obtain ⟨⟨off, rfl⟩, hlen⟩ := hwhole.2 hk
    refine ⟨off, ⟨rfl, rfl⟩, ?_⟩
    obtain hl | ⟨-, hr⟩ := hwithin
    · simp only [loose, List.mem_cons, List.not_mem_nil, or_false] at hl
      obtain hl | hl | hl := hl <;> simp [hl, Param.kind] at hk
    · exact Nat.le_trans (Nat.add_le_add_left hlen off) hr
  · exact absurd hk (hops _ hop).2

theorem Cell.Same.at {c c' : Cell} (h : c.Same c') {off : Nat} (hc : c.At off) : c'.At off :=
  ⟨h.active ▸ hc.active, (h.ptr hc.active).symm.trans hc.ptr⟩

end Headers

/-! ## Slots -/

section Slots

variable {q0 q : Property} {hi : Nat} {m : Mem} {d : Param}

theorem Sim.refl (h : q.WF) : Sim q q := by
  refine ⟨h, h, fun _ => rfl, rfl, rfl, fun i o o' _ ho ho' => ?_⟩
  obtain rfl := Option.some.inj (ho.symm.trans ho')
  exact ⟨⟨rfl, fun _ => rfl, fun _ => rfl, fun _ => rfl, fun _ _ => rfl⟩, .inl rfl⟩

theorem Property.WF.setSlot (h : q.WF) (i : Fin d.minors.length) {o : Obj}
    (ho : q.obj? ⟨d, 0⟩ = some o) (c : Cell) : (q.setSlot d i c).WF := by
  have hd := Param.kind_of_minor i
  refine ⟨h.sized.modify _ _, h.events, fun i' o' ho' => ?_⟩
  rw [Property.setSlot, obj?_modify] at ho'
  split at ho'
  · rename_i heq
    subst heq
    rw [ho] at ho'
    obtain rfl := Option.some.inj ho'
    refine ⟨hd.symm, (h.objs _ o ho).inert, ?_⟩
    rintro slots ⟨⟩
    exact .inr ((List.length_set ..).trans (h.length_slots hd ho))
  · exact h.objs i' o' ho'

/-- **A slot is not seen.** -/
theorem Sim.setSlot (h : Sim q0 q) (i : Fin d.minors.length) {o : Obj} (ho : q.obj? ⟨d, 0⟩ = some o)
    (c : Cell) : Sim q0 (q.setSlot d i c) := by
  refine ⟨h.wf, h.wf_right.setSlot i ho c, h.count, h.eventIdx, h.events, ?_⟩
  intro i' o0 o' hl ho0 ho'
  rw [Property.setSlot, obj?_modify] at ho'
  split at ho'
  · rename_i heq
    subst heq
    have hk := (h.wf.objs _ o0 ho0).kind
    rw [ho] at ho'
    obtain rfl := Option.some.inj ho'
    exact ⟨(h.objs _ o0 o hl ho0 ho).cell, .inr ⟨hk.trans (Param.kind_of_minor i), rfl⟩⟩
  · exact h.objs i' o0 o' hl ho0 ho'

theorem Property.slot?_eq_some {h : Handle} {i : Nat} {c : Cell} :
    q.slot? h i = some c ↔
      ∃ cell slots, q.obj? h = some ⟨cell, .storage slots⟩ ∧ slots[i]? = some c := by
  unfold Property.slot?
  constructor
  · intro hs
    split at hs
    · rename_i cell slots ho
      exact ⟨cell, slots, ho, hs⟩
    · cases hs
  · rintro ⟨cell, slots, ho, hs⟩
    rw [ho]
    exact hs

/-- What slot `i` of a header holds; a slot that was not made yet holds nothing. -/
def Property.held (q : Property) (d : Param) (i : Nat) : Cell := (q.slot? ⟨d, 0⟩ i).getD {}

theorem Property.held_eq {i : Nat} {c : Cell} (h : q.slot? ⟨d, 0⟩ i = some c) : q.held d i = c := by
  rw [Property.held, h]
  rfl

/-- What is set to a range is in a slot. -/
theorem Property.slot?_of_ranged {i : Nat} (h : (q.held d i).Ranged) :
    q.slot? ⟨d, 0⟩ i = some (q.held d i) := by
  unfold Property.held at h ⊢
  cases hs : q.slot? ⟨d, 0⟩ i with
  | none =>
    rw [hs] at h
    cases h.active
  | some c => rfl

/-- One slot is written. -/
theorem Property.WF.held_setSlot (h : q.WF) (i : Fin d.minors.length) {o : Obj}
    (ho : q.obj? ⟨d, 0⟩ = some o) (c : Cell) (d' : Param) (j : Nat) :
    (q.setSlot d i c).held d' j = if d' = d ∧ j = i then c else q.held d' j := by
  by_cases hd : d' = d
  · subst hd
    by_cases hj : j = i
    · subst hj
      rw [if_pos ⟨rfl, rfl⟩]
      exact Property.held_eq (h.slot?_setSlot i ho c)
    · obtain ⟨cell, slots, rfl, -⟩ := h.storage (Param.kind_of_minor i) ho
      have hslots : q.slots d' = resizeSlots d' slots := by
        rw [Property.slots, ho]
      rw [if_neg (fun hc => hj hc.2), Property.held, Property.held, Property.slot?, Property.slot?,
        Property.setSlot, obj?_modify, if_pos rfl, ho, hslots]
      dsimp only [Option.map_some]
      rw [List.getElem?_set_ne (fun he => hj he.symm)]
      unfold resizeSlots
      split
      · rename_i hlen
        obtain rfl := List.eq_nil_of_length_eq_zero hlen
        rw [List.getElem?_replicate]
        split <;> rfl
      · rfl
  · rw [if_neg (fun hc => hd hc.1), Property.held, Property.held, Property.slot?, Property.slot?,
      Property.setSlot, obj?_modify, if_neg (Handle.ne_of_param hd 0 0)]

/-- The header is at `base`. -/
def Property.HeadAt (q : Property) (d : Param) (base : Nat) : Prop :=
  ∃ o, q.obj? ⟨d, 0⟩ = some o ∧ o.cell.At base

/-- The slots after some values were read: those of the headers that are present are computed, where
these are in `q0`; the others are left. -/
structure Refreshes (q0 : Property) (hi : Nat) (keys : List Key) (q q' : Property) : Prop where
  read : ∀ d (i : Fin d.minors.length), .minor d i ∈ keys → 0 < q.count d →
    ∃ base, q0.HeadAt d base ∧ base + d.extent ≤ hi ∧
      (d.minors.get i).2.Computed base (q'.held d i)
  left : ∀ d (i : Fin d.minors.length), ¬ (.minor d i ∈ keys ∧ 0 < q.count d) →
    q'.held d i = q.held d i

theorem Refreshes.none (keys : List Key) (h : ∀ d i, .minor d i ∈ keys → q.count d = 0) :
    Refreshes q0 hi keys q q :=
  ⟨fun d i hk hc => absurd (h d i hk) (Nat.pos_iff_ne_zero.mp hc), fun _ _ _ => rfl⟩

/-- **`Property::value` succeeds**, and the property looks the same. -/
theorem value_returns (h : Sim q0 q) (hq : q0.Headed hi) (hm : m.Has 0 hi) (key : Key) :
    Returns (q.value m key) fun r => Sim q0 r.1 ∧ Refreshes q0 hi [key] q r.1 := by
  cases key with
  | param d =>
    have hnone : Refreshes q0 hi [.param d] q q := .none _ fun d i hk => by simp at hk
    rw [Property.value]
    split <;> exact returns_ok.mpr ⟨h, hnone⟩
  | minor d i =>
    rw [Property.value]
    split
    · rename_i hc
      have hl : q0.Live ⟨d, 0⟩ := h.live.mpr hc
      obtain ⟨o0, ho0⟩ := h.wf.sized.obj?_live hl
      obtain ⟨o, ho, hsame⟩ := h.other hl ho0
      obtain ⟨off, hat, hext⟩ := hq _ o0 hl ho0 (Param.kind_of_minor i)
      obtain ⟨c, hv⟩ := h.wf_right.valueMinor_eq (m := m) i ho
      rw [hv]
      refine .bind_ok (hsame.cell.at hat).start ?_
      refine (Defer.run_returns (d.minors_fit _ (List.get_mem ..)) hm hext c).bind fun slot hs => ?_
      have hheld := h.wf_right.held_setSlot i ho slot
      refine returns_pure.mpr ⟨h.setSlot i ho slot, fun d' j hk _ => ?_, fun d' j hk => ?_⟩
      · cases List.mem_singleton.mp hk
        rw [hheld, if_pos ⟨rfl, rfl⟩]
        exact ⟨off, ⟨o0, ho0, hat⟩, hext, hs⟩
      · rw [hheld, if_neg]
        rintro ⟨rfl, hj⟩
        obtain rfl : j = i := Fin.ext hj
        exact hk ⟨List.mem_singleton_self _, hc⟩
    · rename_i hc
      refine returns_ok.mpr ⟨h, .none _ fun d' j hk => ?_⟩
      cases List.mem_singleton.mp hk
      exact Nat.eq_zero_of_not_pos hc

theorem reads_cons (key : Key) (keys : List Key) :
    q.reads m (key :: keys) = q.value m key >>= fun r => r.1.reads m keys := by
  rw [Property.reads, List.foldlM_cons]
  cases q.value m key <;> rfl

/-- Reading one value and then others. -/
theorem Refreshes.cons {q1 q2 : Property} {key : Key} {keys : List Key}
    (h : Refreshes q0 hi [key] q q1) (hc : ∀ d, q1.count d = q.count d)
    (h' : Refreshes q0 hi keys q1 q2) : Refreshes q0 hi (key :: keys) q q2 := by
  constructor
  · intro d i hk hpos
    by_cases hin : .minor d i ∈ keys
    · exact h'.read d i hin (hc d ▸ hpos)
    · obtain rfl := (List.mem_cons.mp hk).resolve_right hin
      rw [h'.left d i fun hn => hin hn.1]
      exact h.read d i (List.mem_singleton_self _) hpos
  · intro d i hn
    rw [h'.left d i fun hk => hn ⟨List.mem_cons_of_mem _ hk.1, hc d ▸ hk.2⟩]
    exact h.left d i fun hk => hn ⟨List.mem_singleton.mp hk.1 ▸ List.mem_cons_self, hk.2⟩

/-- **Reading any values succeeds**, and the property looks the same. -/
theorem reads_returns (hq : q0.Headed hi) (hm : m.Has 0 hi) (keys : List Key) (h : Sim q0 q) :
    Returns (q.reads m keys) fun q' => Sim q0 q' ∧ Refreshes q0 hi keys q q' := by
  induction keys generalizing q with
  | nil => exact returns_ok.mpr ⟨h, .none _ fun d i hk => by cases hk⟩
  | cons key keys ih =>
    rw [reads_cons]
    refine (value_returns h hq hm key).bind ?_
    rintro ⟨q1, place⟩ ⟨h1, hread⟩
    refine (ih h1).mono ?_
    rintro q' ⟨h', hrest⟩
    exact ⟨h', hread.cons (fun d => (h1.count d).symm.trans (h.count d)) hrest⟩

theorem Property.slot?_fresh {slots : List Cell} (h : (q.fresh d).ext = .storage slots) {i : Nat}
    {c : Cell} (hs : slots[i]? = some c) : q.slot? (q.next d) i = some c := by
  unfold Property.fresh at h
  split at h
  · rename_i o ho
    obtain ⟨cell, ext⟩ := o
    refine Property.slot?_eq_some.mpr ⟨cell, slots, ?_, hs⟩
    cases ext <;> cases h
    exact ho
  · cases hk : d.kind <;> rw [hk] at h <;> cases h
    cases hs

/-- `retain_value` clears the value and not its slots. -/
theorem Property.fresh_slots {cell : Cell} {slots : List Cell}
    (ho : q.obj? (q.next d) = some ⟨cell, .storage slots⟩) : (q.fresh d).ext = .storage slots := by
  unfold Property.next at ho
  unfold Property.fresh
  rw [ho]
  rfl

/-- An operation leaves the slots alone. -/
theorem Op.slot?_apply (hw : q.WF) (op : Op) (h : Handle) (i : Nat) :
    (op.apply q).slot? h i = q.slot? h i := by
  refine Option.ext fun c => ⟨fun hs => ?_, fun hs => ?_⟩
  · obtain ⟨cell, slots, ho, hi⟩ := Property.slot?_eq_some.mp hs
    obtain ht | ⟨-, ho'⟩ := Op.obj?_cases hw.sized ho
    · have hk : Kind.storage = h.param.kind := ((hw.apply op).objs _ _ ho).kind
      obtain ⟨hnext, ⟨ptr, len, e, hd, -, hobj⟩ | ⟨bytes, e, hd, -, hobj⟩⟩ := ht.of_storage hk.symm
      all_goals
        have hext := congrArg Obj.ext hobj
        rw [hnext]
        exact Property.slot?_fresh hext.symm hi
    · exact Property.slot?_eq_some.mpr ⟨cell, slots, ho', hi⟩
  · obtain ⟨cell, slots, ho, hi⟩ := Property.slot?_eq_some.mp hs
    rw [Property.slot?, Op.obj?_apply hw.sized]
    cases ht : op.touch q h with
    | none => rw [Option.getD_none, ho]; exact hi
    | some r =>
      cases r with
      | none => exact absurd ht (Op.touch_ne_none ho)
      | some o =>
        -- the value was cleared for the packet, with its slots as they were
        have hk : Kind.storage = h.param.kind := (hw.objs _ _ ho).kind
        obtain ⟨hnext, ⟨ptr, len, e, hd, -, hobj⟩ | ⟨bytes, e, hd, -, hobj⟩⟩ :=
          (Op.touched ht).of_storage hk.symm
        all_goals
          rw [hnext] at ho
          have hext : o.ext = .storage slots := (congrArg Obj.ext hobj).trans (Property.fresh_slots ho)
          obtain ⟨cell', ext⟩ := o
          subst hext
          exact hi

/-- **Decoding leaves the slots alone.** -/
theorem exec_slot? (hw : q.WF) (ops : List Op) (h : Handle) (i : Nat) :
    (q.exec ops).slot? h i = q.slot? h i := by
  induction ops generalizing q with
  | nil => rfl
  | cons op ops ih => exact (ih (hw.apply op)).trans (Op.slot?_apply hw op h i)

theorem exec_held (hw : q.WF) (ops : List Op) (d : Param) (i : Nat) :
    (q.exec ops).held d i = q.held d i := by
  rw [Property.held, exec_slot? hw]
  rfl

/-- A slot that is left over points into an earlier packet. -/
theorem slot?_init (q : Property) (h : Handle) (i : Nat) :
    q.init.slot? h i = (q.slot? h i).map Cell.leave := by
  unfold Property.slot?
  rw [obj?_init]
  cases q.obj? h with
  | none => rfl
  | some o =>
    obtain ⟨cell, ext⟩ := o
    cases ext <;> first | rfl | exact List.getElem?_map

theorem held_init (q : Property) (d : Param) (i : Nat) : q.init.held d i = (q.held d i).leave := by
  rw [Property.held, Property.held, slot?_init]
  cases q.slot? ⟨d, 0⟩ i <;> rfl

end Slots

/-! ## Packet after packet -/

section Runs

variable {cfg : TcpConfig τ}

theorem linked_init (q : Property) : q.init.Linked := Property.all_init _

/-- What decoding a packet leaves. -/
theorem Decodes.links {m : Mem} {hi : Nat} {dhcp : Option Nat} {q q' : Property} {ops : List Op}
    (h : Decodes m hi dhcp q.init q' ops) (hw : q.WF) : q'.WF ∧ q'.Linked ∧ q'.Headed hi := by
  rw [h.exec]
  exact ⟨hw.init.exec ops, (linked_init q).exec hw.init ops,
    exec_headed hw.init (Property.all_init _) h.fits⟩

/-- **One packet**, and what is read of it. -/
theorem use_returns {w : Worker τ} (h : w.prop.WF) (u : Packet × List Key) :
    Returns (w.use cfg u) fun w' => w'.prop.WF := by
  obtain ⟨p, keys⟩ := u
  refine (process_returns cfg w p).bind ?_
  rintro w1 ⟨ops, hops, -⟩
  obtain ⟨hw1, -, hh⟩ := hops.links h
  exact (reads_returns hh p.has_all keys (Sim.refl hw1)).bind fun q' hq' =>
    returns_pure.mpr hq'.1.wf_right

/-- **Every run of packets**, with anything read in between. -/
theorem run_returns {w : Worker τ} (h : w.prop.WF) (us : List (Packet × List Key)) :
    Returns (w.run cfg us) fun w' => w'.prop.WF := by
  induction us generalizing w with
  | nil => exact returns_ok.mpr h
  | cons u us ih =>
    rw [Worker.run_cons]
    exact (use_returns h u).bind fun w1 h1 => ih h1

end Runs

end PacketMachine.Decode
