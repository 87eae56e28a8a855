import PacketMachine.Decode.Within

/-!
# `NameService::ns_decode`: DNS and mDNS messages

Model of `ns_decode` (`modules/utils.cc:90-238`), the decoder that the DNS and the MDNS module share.

* `base` is the position of the 12-byte header, `totalLen` the length of what follows it.
* The records of the four sections come one after the other. `target` and `rr_c` tell the section and
  the number of records taken from it, `c` the number of all records taken.
* `arr` points to the array of the section, here to the one retained last for it; the model keeps
  whether there is one.

Results:
* **`nextTarget_returns`**: the section cursor stays within the four sections.
* **`recordLoop_returns`** and **`nsDecode_returns`**: no byte outside of the message is read, no
  assertion fails, and all ranges lie in the message.
* **`nsDecode_safe`**: the same with the `repr` of the names and data that are left.
-/

namespace PacketMachine.Decode

open PacketMachine.Lib

/-! ## The code -/

/-- The numbers of records in the header, in the order of the sections. -/
def readCounts (m : Mem) (base : Nat) : Except Fault (List Nat) := do
  let qd ← m.u16 (base + 4)
  let an ← m.u16 (base + 6)
  let nsc ← m.u16 (base + 8)
  let ar ← m.u16 (base + 10)
  return [qd, an, nsc, ar]

/-- The loop that looks for the next section with records left. -/
def nextTarget (counts : List Nat) : Nat → Nat → Nat → Bool → Except Fault (Nat × Nat × Bool)
  | 0, _, _, _ => .error .fuel
  | fuel + 1, target, rrC, arr =>
    match counts[target]? with
    | none => .error (.read target)
    | some n =>
      if rrC < n then .ok (target, rrC, arr)
      else if target + 1 < 4 then nextTarget counts fuel (target + 1) 0 false
      else .error (.assertion "target < RR_CNT")

/-- The array of the section, retained when there is none yet. -/
def sectionArray (ns : NameService) (target : Nat) (arr : Bool) : Except Fault (List Op) :=
  if arr then .ok []
  else if h : (ns.record target).kind = .array then .ok [.array (ns.record target) h]
  else .error (.assertion "arr != nullptr")

/-- How a round of the loop ends. -/
inductive Round where
  /-- `return` or `break`, with the result of the function. -/
  | done (ok : Bool)
  /-- The next round starts at a position. -/
  | next (ptr : Nat)
  deriving DecidableEq, Repr

/-- The part of a round after the name: type, class and, behind the questions, the resource data. -/
def recordBody (ns : NameService) (m : Mem) (base totalLen : Nat) (hasData : Bool) (ptr : Nat) :
    Except Fault (List Op × Round) := do
  let ep := base + 12 + totalLen
  if ep ≤ ptr then return ([], .done false)
  else if ep - ptr < 4 then return ([], .done true)
  else
    let rrHdr := ptr
    let ptr := ptr + 4
    if ¬ hasData then return ([.type ns rrHdr 2], .next ptr)
    else if ep - ptr < 6 then return ([.type ns rrHdr 2], .done true)
    else
      let rdLen ← m.u16 (ptr + 4)
      let ptr := ptr + 6
      if ep - ptr < rdLen then return ([.type ns rrHdr 2], .done true)
      else
        let type ← m.u16 rrHdr
        return ([.type ns rrHdr 2, .data ns ptr rdLen type base totalLen], .next (ptr + rdLen))

/-- The loop over the records, `left` of them. -/
def recordLoop (ns : NameService) (m : Mem) (base totalLen : Nat) (counts : List Nat) :
    Nat → Nat → Nat → Nat → Bool → Nat → Except Fault (List Op × Bool)
  | 0, _, _, _, _, _ => .ok ([], true)
  | left + 1, c, target, rrC, arr, ptr => do
    let (target, rrC, arr) ← nextTarget counts 5 target rrC arr
    let ep := base + 12 + totalLen
    if ep ≤ ptr then return ([], false)
    else
      let remain := ep - ptr
      let arrOps ← sectionArray ns target arr
      let ops := arrOps ++ [.record ns target ptr remain base totalLen]
      match ← parseLabel m ptr remain base totalLen none with
      | (none, _) => return (ops, true)
      | (some ptr, _) =>
        match ← recordBody ns m base totalLen (c ≥ counts.headD 0) ptr with
        | (body, .done ok) => return (ops ++ body, ok)
        | (body, .next ptr) =>
          let (rest, ok) ← recordLoop ns m base totalLen counts left (c + 1) target (rrC + 1) true ptr
          return (ops ++ body ++ rest, ok)

/-- `int` of the (little-endian) host. -/
def hostInt (b : Bool) : List UInt8 := [if b then 1 else 0, 0, 0, 0]

/-- `NameService::ns_decode`: the cursor behind the message, the operations and the result. -/
def NameService.nsDecode (ns : NameService) (m : Mem) (pd : Payload) :
    Except Fault (Payload × List Op × Bool) :=
  match pd.retain 12 with
  | none => .ok (pd, [], false)
  | some (base, pd) => do
    let counts ← readCounts m base
    let totalLen := pd.length
    match pd.retain totalLen with
    | none => .error (.assertion "ptr != NULL")
    | some (ptr, pd) =>
      let flags ← m.u16 (base + 2)
      -- bit 7 of the flags is not the QR bit of the header
      let isQ := flags &&& 0x0080 = 0
      let head := [.set ns.txId (.pkt base) 2 .big ns.txId_kind,
        .event (if isQ then ns.evQuery else ns.evReply),
        .cpy ns.isQuery (hostInt isQ) .little ns.isQuery_kind]
      let (ops, ok) ← recordLoop ns m base totalLen counts counts.sum 0 0 0 false ptr
      return (pd, head ++ ops, ok)

/-- `DNS`. -/
def dns : NameService where
  txId := .dnsTxId
  isQuery := .dnsIsQuery
  records := .dnsRecords
  name := .dnsName
  data := .dnsData
  type := .dnsType
  record := fun
    | 0 => .dnsQuestion
    | 1 => .dnsAnswer
    | 2 => .dnsAuthority
    | _ => .dnsAdditional
  evQuery := .dnsQuery
  evReply := .dnsReply
  txId_kind := rfl
  isQuery_kind := rfl
  records_kind := rfl
  name_kind := rfl
  data_kind := rfl
  type_kind := rfl
  record_kind := by
    intro i
    split <;> rfl

/-- `MDNS`. -/
def mdns : NameService where
  txId := .mdnsTxId
  isQuery := .mdnsIsQuery
  records := .mdnsRecords
  name := .mdnsName
  data := .mdnsData
  type := .mdnsType
  record := fun
    | 0 => .mdnsQuestion
    | 1 => .mdnsAnswer
    | 2 => .mdnsAuthority
    | _ => .mdnsAdditional
  evQuery := .mdnsQuery
  evReply := .mdnsReply
  txId_kind := rfl
  isQuery_kind := rfl
  records_kind := rfl
  name_kind := rfl
  data_kind := rfl
  type_kind := rfl
  record_kind := by
    intro i
    split <;> rfl

/-! ## Safety -/

section Safety

variable {m : Mem} {ns : NameService} {base totalLen : Nat} {counts : List Nat}

/-- **The section cursor**: as long as there are records left, one of the sections has one. -/
theorem nextTarget_returns (hc : counts.length = 4) :
    ∀ (fuel : Nat) {target rrC : Nat} {arr : Bool}, 4 - target < fuel →
      rrC ≤ (counts[target]?).getD 0 → (counts.take target).sum + rrC < counts.sum →
      Returns (nextTarget counts fuel target rrC arr) fun r =>
        r.2.1 < (counts[r.1]?).getD 0 ∧
          (counts.take r.1).sum + r.2.1 = (counts.take target).sum + rrC
  | 0, _, _, _, hf, _, _ => absurd hf (Nat.not_lt_zero _)
  | fuel + 1, target, rrC, arr, hf, hr, hs => by
    have ht : target < counts.length := by
      refine Nat.lt_of_not_le fun hle => ?_
      rw [List.take_of_length_le hle] at hs
      omega
    have hstep := List.sum_take_succ counts target ht
    unfold nextTarget
    rw [List.getElem?_eq_getElem ht] at hr ⊢
    simp only [Option.getD_some] at hr ⊢
    split
    · rename_i hlt
      refine returns_ok.mpr ⟨?_, rfl⟩
      rw [List.getElem?_eq_getElem ht]
      exact hlt
    · rename_i hge
      have heq : rrC = counts[target] := by omega
      have ht' : target + 1 < 4 := by
        refine Nat.lt_of_not_le fun hle => ?_
        rw [List.take_of_length_le (by omega)] at hstep
        omega
      rw [if_pos ht']
      refine Returns.mono (nextTarget_returns hc fuel ?_ (Nat.zero_le _) ?_) ?_
      · omega
      · omega
      · rintro r ⟨hr', hs'⟩
        exact ⟨hr', by omega⟩

/-- The operation fills no parameters but the two for the header. -/
def Op.Serves (ns : NameService) : Op → Prop
  | set d _ _ _ _ => d = ns.txId
  | cpy d _ _ _ => d = ns.isQuery
  | _ => True

/-- The operations belong to a message, and their ranges lie in it. -/
def InMessage (ns : NameService) (base totalLen : Nat) (ops : List Op) : Prop :=
  ∀ op ∈ ops, op.Serves ns ∧ op.Within [] base (base + 12 + totalLen)

theorem InMessage.append {ops ops' : List Op} (h : InMessage ns base totalLen ops)
    (h' : InMessage ns base totalLen ops') : InMessage ns base totalLen (ops ++ ops') := by
  intro op hop
  exact (List.mem_append.mp hop).elim (h op) (h' op)

theorem sectionArray_returns (base totalLen target : Nat) (arr : Bool) :
    Returns (sectionArray ns target arr) (InMessage ns base totalLen) := by
  unfold sectionArray
  rw [dif_pos (ns.record_kind target)]
  split
  · exact returns_ok.mpr (by simp [InMessage])
  · exact returns_ok.mpr (by simp [InMessage, Op.Serves, Op.Within])

theorem recordBody_returns (hm : m.Has base (12 + totalLen)) {hasData : Bool} {ptr : Nat}
    (hp : base ≤ ptr) :
    Returns (recordBody ns m base totalLen hasData ptr) fun r =>
      InMessage ns base totalLen r.1 ∧ ∀ p, r.2 = .next p → base ≤ p := by
  unfold recordBody
  dsimp only
  split
  · exact returns_pure.mpr ⟨by simp [InMessage], by simp⟩
  · split
    · exact returns_pure.mpr ⟨by simp [InMessage], by simp⟩
    · rename_i h4
      have htype : Op.Serves ns (.type ns ptr 2) ∧
          Op.Within [] base (base + 12 + totalLen) (.type ns ptr 2) := by
        simp only [Op.Serves, Op.Within, Ptr.Within, true_and]
        omega
      split
      · refine returns_pure.mpr ⟨by simpa [InMessage] using htype, ?_⟩
        rintro p ⟨⟩
        omega
      · split
        · exact returns_pure.mpr ⟨by simpa [InMessage] using htype, by simp⟩
        · refine .bind_ok (Mem.u16_eq hm (by omega) (by omega)) ?_
          split
          · exact returns_pure.mpr ⟨by simpa [InMessage] using htype, by simp⟩
          · rename_i hrd
            refine .bind_ok (Mem.u16_eq hm (by omega) (by omega)) ?_
            refine returns_pure.mpr ⟨?_, ?_⟩
            · simp only [InMessage, List.mem_cons, List.not_mem_nil, or_false]
              rintro op (rfl | rfl)
              · exact htype
              · simp only [Op.Serves, Op.Within, Ptr.Within, true_and]
                omega
            · rintro p ⟨⟩
              omega

/-- **The record loop** reads only the message, keeps its ranges in it and fails no assertion. The
invariant is the section cursor: the records taken are those of the sections before `target` and
`rrC` of this one. -/
theorem recordLoop_returns (hm : m.Has base (12 + totalLen)) (hc : counts.length = 4) :
    ∀ (left : Nat) {c target rrC ptr : Nat} {arr : Bool}, rrC ≤ (counts[target]?).getD 0 →
      (counts.take target).sum + rrC + left = counts.sum → base ≤ ptr →
      Returns (recordLoop ns m base totalLen counts left c target rrC arr ptr) fun r =>
        InMessage ns base totalLen r.1
  | 0, _, _, _, _, _, _, _, _ => returns_ok.mpr (by simp [InMessage])
  | left + 1, c, target, rrC, ptr, arr, hr, hs, hp => by
    unfold recordLoop
    refine (nextTarget_returns hc 5 (by omega) hr (by omega)).bind ?_
    rintro ⟨target', rrC', arr'⟩ ⟨hlt, hsum⟩
    dsimp only at hlt hsum ⊢
    split
    · exact returns_pure.mpr (by simp [InMessage])
    · rename_i hend
      refine (sectionArray_returns base totalLen target' arr').bind ?_
      intro arrOps harr
      have hops : InMessage ns base totalLen (arrOps ++
          [.record ns target' ptr (base + 12 + totalLen - ptr) base totalLen]) := by
        refine InMessage.append harr ?_
        simp only [InMessage, List.mem_singleton, forall_eq, Op.Serves, Op.Within, Ptr.Within,
          true_and]
        omega
      refine (parseLabel_returns (hm.sub (Nat.le_refl _) (by omega))
        (hm.sub hp (by omega)) none).bind ?_
      rintro ⟨pos, s⟩ hpos
      cases pos with
      | none => exact returns_pure.mpr hops
      | some pos =>
        obtain ⟨hlt', -⟩ := hpos pos rfl
        refine (recordBody_returns hm (by omega)).bind ?_
        rintro ⟨body, round⟩ ⟨hbody, hnext⟩
        cases round with
        | done ok => exact returns_pure.mpr (hops.append hbody)
        | next p =>
          refine (recordLoop_returns hm hc left (by omega) (by omega) (hnext p rfl)).bind ?_
          rintro ⟨rest, ok⟩ hrest
          exact returns_pure.mpr ((hops.append hbody).append hrest)

theorem readCounts_returns (hm : m.Has base 12) :
    Returns (readCounts m base) fun counts => counts.length = 4 := by
  unfold readCounts
  refine .bind_ok (Mem.u16_eq hm (by omega) (by omega)) ?_
  refine .bind_ok (Mem.u16_eq hm (by omega) (by omega)) ?_
  refine .bind_ok (Mem.u16_eq hm (by omega) (by omega)) ?_
  refine .bind_ok (Mem.u16_eq hm (by omega) (by omega)) ?_
  exact returns_pure.mpr rfl

/-- **`ns_decode` is safe** on any payload, and its ranges lie in the payload. -/
theorem nsDecode_returns {pd : Payload} (h : pd.WF) (hm : m.Has pd.ptr pd.length) :
    Returns (ns.nsDecode m pd) fun r =>
      (r.1.WF ∧ r.1.buf = pd.buf ∧ r.1.stop = pd.stop) ∧
        ∀ op ∈ r.2.1, op.Serves ns ∧ op.Within [] pd.ptr (pd.ptr + pd.length) := by
  unfold NameService.nsDecode
  rw [Payload.retain_eq h]
  split
  · exact returns_ok.mpr ⟨⟨h, rfl, rfl⟩, by simp⟩
  · rename_i base pd' hret
    split at hret
    · rename_i h12
      obtain ⟨rfl, rfl⟩ := Prod.mk.inj (Option.some.inj hret)
      have hw := h.skip h12
      have hsum : 12 + (pd.skip 12).length = pd.length := by
        simp only [Payload.skip]
        omega
      rw [← hsum] at hm ⊢
      refine (readCounts_returns (hm.sub (Nat.le_refl _) (by omega))).bind ?_
      intro counts hc
      dsimp only
      rw [Payload.retain_eq hw, if_pos (Nat.le_refl _)]
      refine .bind_ok (Mem.u16_eq hm (by omega) (by omega)) ?_
      refine (recordLoop_returns hm hc counts.sum (Nat.zero_le _) (by simp)
        (by simp [Payload.skip])).bind ?_
      rintro ⟨ops, ok⟩ hops
      refine returns_pure.mpr ⟨⟨hw.skip (Nat.le_refl _), rfl, rfl⟩, ?_⟩
      intro op hop
      rw [← Nat.add_assoc]
      obtain hop | hop := List.mem_append.mp hop
      · simp only [List.mem_cons, List.not_mem_nil, or_false] at hop
        obtain rfl | rfl | rfl := hop
        · refine ⟨rfl, ?_⟩
          simp only [Op.Within, Ptr.Within]
          omega
        · exact ⟨trivial, trivial⟩
        · exact ⟨rfl, trivial⟩
      · exact hops op hop
    · cases hret

end Safety

/-! ## The values that are left -/

/-- The bytes of a payload, and no others. -/
def window (ptr : Nat) (bytes : List UInt8) : Mem := fun i =>
  if i < ptr then none else bytes[i - ptr]?

theorem has_window (ptr : Nat) (bytes : List UInt8) : (window ptr bytes).Has ptr bytes.length := by
  intro k hk hlt
  rw [window, if_neg (by omega), List.getElem?_eq_getElem (by omega)]
  rfl

/-- `repr` of a name or of data whose ranges can be read. -/
theorem Obj.Within.leafRepr_returns {m : Mem} {lo len : Nat} {o : Obj} (h : o.Within lo (lo + len))
    (hm : m.Has lo len) (hk : o.ext.kind = .nsName ∨ o.ext.kind = .nsData)
    (ntop6 : List UInt8 → Text) : Returns (o.leafRepr ntop6 m) fun _ => True := by
  obtain ⟨cell, ext⟩ := o
  have hcell : ∀ {off : Nat}, cell.At off → m.Has off cell.len := by
    intro off hat
    have hr := h.cell hat.active
    simp only [hat.ptr, reduceCtorEq, false_or, Ptr.Within] at hr
    exact hm.sub hr.1 hr.2
  cases ext with
  | nsName base totalLen =>
    obtain ⟨⟨off, hat⟩, hb⟩ := h.nsName base totalLen rfl
    exact nsNameRepr_returns hat (hcell hat) (hm.sub hb.1 hb.2)
  | nsData type base totalLen =>
    obtain ⟨⟨off, hat⟩, hb⟩ := h.nsData type base totalLen rfl
    have hact : cell.active = true := hat.active
    simp only [Obj.leafRepr, hact, if_true]
    exact nsDataRepr_returns hat (hcell hat) (hm.sub hb.1 hb.2) ntop6 type
  | _ => obtain hk | hk := hk <;> cases hk

/-- **DNS and mDNS decoding is safe and total.** For any payload, with no byte but its own to read:
`ns_decode` returns, `repr` of every name and data it left returns, and `parse_label` on any part of
the payload returns, with a position strictly behind its start and at most `remain` behind it. -/
theorem nsDecode_safe (ns : NameService) (ntop6 : List UInt8 → Text) (pd : Payload) (hpd : pd.WF)
    (bytes : List UInt8) (hb : bytes.length = pd.length) (q : Property) (hq : q.WF) :
    Returns (ns.nsDecode (window pd.ptr bytes) pd) fun r =>
      (∀ h o, ¬ q.Live h → (q.exec r.2.1).Live h → (q.exec r.2.1).obj? h = some o →
        h.param.kind = .nsName ∨ h.param.kind = .nsData →
        Returns (o.leafRepr ntop6 (window pd.ptr bytes)) fun _ => True) ∧
      ∀ p remain s, (window pd.ptr bytes).Has p remain →
        Returns (parseLabel (window pd.ptr bytes) p remain pd.ptr (pd.length - 12) s) fun r =>
          ∀ pos, r.1 = some pos → p < pos ∧ pos ≤ p + remain := by
  have hm : (window pd.ptr bytes).Has pd.ptr pd.length := hb ▸ has_window pd.ptr bytes
  refine (nsDecode_returns hpd hm).mono ?_
  rintro ⟨pd', ops, ok⟩ ⟨-, hops⟩
  refine ⟨fun h o hn hl ho hk => ?_, fun p remain s hp => ?_⟩
  · obtain hl' | hX | hwi := exec_within hq (fun op hop => (hops op hop).2) h o hl ho
    · exact absurd hl' hn
    · cases hX
    · rw [← ((hq.exec ops).objs h o ho).kind] at hk
      exact hwi.leafRepr_returns hm hk ntop6
  · exact parseLabel_returns (hm.sub (Nat.le_refl _) (by omega)) hp s

/-- A reply with one question, whose name is a pointer to itself behind a label. -/
def pointerCycle : List UInt8 :=
  [0x12, 0x34, 0x00, 0x80, 0, 1, 0, 1, 0, 0, 0, 0, 1, 0x61, 0xC0, 0x0C, 0, 1, 0, 1, 1, 0x61, 0xC0, 0x0C,
    0, 1, 0, 1, 0, 0, 0, 0, 0, 1, 0x7f]

theorem nsDecode_safe_pointerCycle :
    Returns (dns.nsDecode (window 42 pointerCycle) ⟨0, 42, 77, 35⟩) fun r =>
      ∀ h o, (Property.exec {} r.2.1).Live h → (Property.exec {} r.2.1).obj? h = some o →
        h.param.kind = .nsName ∨ h.param.kind = .nsData →
        Returns (o.leafRepr (fun _ => []) (window 42 pointerCycle)) fun _ => True :=
  (nsDecode_safe dns (fun _ => []) ⟨0, 42, 77, 35⟩ ⟨by decide, by decide⟩ pointerCycle (by decide)
    {} Property.wf_empty).mono fun _ hr h o => hr.1 h o (Nat.not_lt_zero _)

end PacketMachine.Decode
