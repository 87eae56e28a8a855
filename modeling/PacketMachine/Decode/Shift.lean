import PacketMachine.Decode.Decoder

/-!
# The same bytes at another place

Two packets may hold the same bytes at different distances from their start: behind a VLAN tag all
headers lie four bytes further on. Here `m'` holds from `lo + k` on what `m` holds from `lo` on, and
each decoder is followed on both sides by side (`Alike`).

* A byte that is not there is a fault on both sides, at positions that differ by `k` (`Fault.Moved`).
* The calls on the property are the same but for the positions in them (`Op.moved`), which lie at `lo`
  or behind it (`Op.Above`).

Results:
* `parseLabel_alike`, `nsDecode_alike` and their like: one for each decoder but Ethernet.
* **`decodeMod_alike`**: the next module is the same, and what a session is told is the same, so the
  state of the TCP module is.
-/

namespace PacketMachine.Decode

open PacketMachine.Lib

variable {lo k : Nat} {m m' : Mem}

/-! ## Memory -/

/-- The same fault, at a position that is `k` further on when there is one. -/
def Fault.Moved (k : Nat) (e e' : Fault) : Prop := e' = e ∨ ∃ i, e = .read i ∧ e' = .read (i + k)

/-- `m'` holds `k` positions further on what `m` holds from `lo` on. -/
def Mem.Moved (lo k : Nat) (m m' : Mem) : Prop := ∀ i, lo ≤ i → m' (i + k) = m i

theorem Fault.Moved.refl (e : Fault) : Fault.Moved k e e := .inl rfl

section Reads

variable {i j : Nat}

theorem Mem.Moved.u8 (h : Mem.Moved lo k m m') (hi : lo ≤ i) (hj : j = i + k) :
    Alike (Fault.Moved k) Eq (m.u8 i) (m'.u8 j) := by
  subst hj
  unfold Mem.u8
  rw [h i hi]
  cases m i with
  | none => exact .error (.inr ⟨i, rfl, rfl⟩)
  | some b => exact .ok rfl

theorem Mem.Moved.u16 (h : Mem.Moved lo k m m') (hi : lo ≤ i) (hj : j = i + k) :
    Alike (Fault.Moved k) Eq (m.u16 i) (m'.u16 j) := by
  unfold Mem.u16
  refine (h.u8 hi hj).bind_eq fun hi => ?_
  exact (h.u8 (by omega) (by omega)).bind_eq fun lo => alike_pure rfl

theorem Mem.Moved.u32 (h : Mem.Moved lo k m m') (hi : lo ≤ i) (hj : j = i + k) :
    Alike (Fault.Moved k) Eq (m.u32 i) (m'.u32 j) := by
  unfold Mem.u32
  refine (h.u16 hi hj).bind_eq fun hi => ?_
  exact (h.u16 (by omega) (by omega)).bind_eq fun lo => alike_pure rfl

theorem Mem.Moved.bytes (h : Mem.Moved lo k m m') (n : Nat) (hi : lo ≤ i) (hj : j = i + k) :
    Alike (Fault.Moved k) Eq (m.bytes i n) (m'.bytes j n) := by
  induction n generalizing i j with
  | zero => exact .ok rfl
  | succ n ih =>
    rw [Mem.bytes, Mem.bytes]
    refine (h.u8 hi hj).bind_eq fun b => ?_
    exact (ih (i := i + 1) (j := j + 1) (by omega) (by omega)).bind_eq fun bs => alike_pure rfl

end Reads

/-! ## Labels -/

/-- A position, `k` further on. -/
def Shifted (lo k p p' : Nat) : Prop := lo ≤ p ∧ p' = p + k

/-- The same for a position that may be missing. -/
def OptShifted (lo k : Nat) (p p' : Option Nat) : Prop := Option.Rel (Shifted lo k) p p'

theorem OptShifted.getD {lo k : Nat} {p p' : Option Nat} {d d' : Nat} (h : OptShifted lo k p p')
    (hd : Shifted lo k d d') : Shifted lo k (p.getD d) (p'.getD d') := by
  cases h with
  | none => exact hd
  | some h => exact h

theorem jump_alike (hm : Mem.Moved lo k m m') {sp sp' p p' totalLen remain : Nat}
    {rp rp' : Option Nat} (hsp : Shifted lo k sp sp') (hp : Shifted lo k p p') (hrp : OptShifted lo k rp rp') :
    Alike (Fault.Moved k)
      (Option.Rel fun r r' => Shifted lo k r.1 r'.1 ∧ r'.2.1 = r.2.1 ∧ OptShifted lo k r.2.2 r'.2.2)
      (jump m sp totalLen p remain rp) (jump m' sp' totalLen p' remain rp') := by
  unfold jump
  refine (hm.u8 hp.1 hp.2).bind_eq fun b => ?_
  refine .ite Iff.rfl (fun _ => ?_) fun _ => ?_
  · refine .ite Iff.rfl (fun _ => alike_pure .none) fun _ => ?_
    refine (hm.u16 hp.1 hp.2).bind_eq fun h => ?_
    dsimp only
    refine .ite Iff.rfl (fun _ => alike_pure .none) fun _ => alike_pure (.some ⟨?_, rfl, ?_⟩)
    · exact ⟨Nat.le_add_right_of_le hsp.1, by have := hsp.2; dsimp only; omega⟩
    · refine .some (hrp.getD ⟨?_, ?_⟩)
      · exact Nat.le_add_right_of_le hp.1
      · have := hp.2
        omega
  · exact alike_pure (.some ⟨hp, rfl, hrp⟩)

theorem appendLabel_alike (hm : Mem.Moved lo k m m') {p p' : Nat} (hp : Shifted lo k p p')
    (dataLen : Nat) (s : Option Text) :
    Alike (Fault.Moved k) Eq (appendLabel m p dataLen s) (appendLabel m' p' dataLen s) := by
  cases s with
  | none => exact .ok rfl
  | some s => exact (hm.bytes dataLen hp.1 hp.2).bind_eq fun bs => alike_pure rfl

/-- The loop takes the same labels, and ends at the same place of the message. -/
theorem parseLoop_alike (hm : Mem.Moved lo k m m') {sp sp' totalLen : Nat} (hsp : Shifted lo k sp sp') :
    ∀ (fuel : Nat) {p p' remain len : Nat} {rp rp' : Option Nat} {s : Option Text},
      Shifted lo k p p' → OptShifted lo k rp rp' →
      Alike (Fault.Moved k) (fun r r' => OptShifted lo k r.1 r'.1 ∧ r'.2 = r.2)
        (parseLoop m sp totalLen fuel p remain len rp s)
        (parseLoop m' sp' totalLen fuel p' remain len rp' s)
  | 0, _, _, _, _, _, _, _, _, _ => .error (.refl _)
  | fuel + 1, p, p', remain, len, rp, rp', s, hp, hrp => by
    unfold parseLoop
    refine .ite Iff.rfl (fun _ => .ok ⟨.none, rfl⟩) fun _ => ?_
    refine .ite Iff.rfl (fun _ => .ok ⟨.none, rfl⟩) fun _ => ?_
    refine (jump_alike hm hsp hp hrp).bind fun r r' hr => ?_
    cases hr with
    | none => exact alike_pure ⟨.none, rfl⟩
    | @some r r' hr =>
      obtain ⟨q, rem, rq⟩ := r
      obtain ⟨q', rem', rq'⟩ := r'
      obtain ⟨hq, rfl, hrq⟩ := hr
      dsimp only at hq hrq ⊢
      obtain ⟨hlo, rfl⟩ := hq
      refine (hm.u8 hlo rfl).bind_eq fun b => ?_
      refine .ite Iff.rfl (fun _ => alike_pure ⟨?_, rfl⟩) fun _ => ?_
      · exact .some (hrq.getD ⟨by omega, by omega⟩)
      · refine .ite Iff.rfl (fun _ => alike_pure ⟨.none, rfl⟩) fun _ => ?_
        refine (appendLabel_alike hm ⟨by omega, by omega⟩ _ s).bind_eq fun s' => ?_
        exact parseLoop_alike hm hsp fuel ⟨by omega, by omega⟩ hrq

theorem parseLabel_alike (hm : Mem.Moved lo k m m') {p p' sp sp' remain totalLen : Nat}
    (hp : Shifted lo k p p') (hsp : Shifted lo k sp sp') (s : Option Text) :
    Alike (Fault.Moved k) (fun r r' => OptShifted lo k r.1 r'.1 ∧ r'.2 = r.2)
      (parseLabel m p remain sp totalLen s) (parseLabel m' p' remain sp' totalLen s) :=
  parseLoop_alike hm hsp 257 hp .none

/-! ## Calls on the property -/

/-- The pointer, `k` further on when it points into the packet. -/
def Ptr.moved (k : Nat) : Ptr → Ptr
  | pkt off => pkt (off + k)
  | p => p

/-- A pointer into the packet points to `lo` or behind it. -/
def Ptr.Above (lo : Nat) : Ptr → Prop
  | pkt off => lo ≤ off
  | _ => True

/-- The same call with its positions `k` further on. -/
def Op.moved (k : Nat) : Op → Op
  | set d ptr len e hd => set d (ptr.moved k) len e hd
  | code ptr len ty => code (ptr + k) len ty
  | record ns target ptr len base totalLen => record ns target (ptr + k) len (base + k) totalLen
  | type ns ptr len => type ns (ptr + k) len
  | data ns ptr len ty base totalLen => data ns (ptr + k) len ty (base + k) totalLen
  | option ptr dataPtr len => option (ptr + k) (dataPtr + k) len
  | op => op

/-- The positions of a call are `lo` or lie behind it. -/
def Op.Above (lo : Nat) : Op → Prop
  | set _ ptr _ _ _ => ptr.Above lo
  | code ptr _ _ => lo ≤ ptr
  | record _ _ ptr _ base _ => lo ≤ ptr ∧ lo ≤ base
  | type _ ptr _ => lo ≤ ptr
  | data _ ptr _ _ base _ => lo ≤ ptr ∧ lo ≤ base
  | option ptr dataPtr _ => lo ≤ ptr ∧ lo ≤ dataPtr
  | _ => True

/-- The same calls with their positions `k` further on. -/
def OpsMoved (lo k : Nat) (ops ops' : List Op) : Prop :=
  ops' = ops.map (Op.moved k) ∧ ∀ op ∈ ops, op.Above lo

theorem OpsMoved.nil : OpsMoved lo k [] [] := ⟨rfl, by simp⟩

theorem OpsMoved.cons {op op' : Op} {ops ops' : List Op} (hop : op' = op.moved k ∧ op.Above lo)
    (h : OpsMoved lo k ops ops') : OpsMoved lo k (op :: ops) (op' :: ops') :=
  ⟨by rw [hop.1, h.1, List.map_cons], List.forall_mem_cons.mpr ⟨hop.2, h.2⟩⟩

theorem OpsMoved.append {a a' b b' : List Op} (h : OpsMoved lo k a a') (h' : OpsMoved lo k b b') :
    OpsMoved lo k (a ++ b) (a' ++ b') := by
  refine ⟨by rw [h.1, h'.1, List.map_append], fun op hop => ?_⟩
  exact (List.mem_append.mp hop).elim (h.2 op) (h'.2 op)

/-! ## Name service -/

section NameService

variable {ns : NameService} {base base' totalLen : Nat}

theorem readCounts_alike (hm : Mem.Moved lo k m m') (hb : Shifted lo k base base') :
    Alike (Fault.Moved k) Eq (readCounts m base) (readCounts m' base') := by
  obtain ⟨hlo, rfl⟩ := hb
  unfold readCounts
  refine (hm.u16 (by omega) (by omega)).bind_eq fun qd => ?_
  refine (hm.u16 (by omega) (by omega)).bind_eq fun an => ?_
  refine (hm.u16 (by omega) (by omega)).bind_eq fun nsc => ?_
  exact (hm.u16 (by omega) (by omega)).bind_eq fun ar => alike_pure rfl

/-- The end of a round, `k` further on. -/
def RoundMoved (lo k : Nat) : Round → Round → Prop
  | .done ok, .done ok' => ok' = ok
  | .next p, .next p' => Shifted lo k p p'
  | _, _ => False

theorem recordBody_alike (hm : Mem.Moved lo k m m') (hb : Shifted lo k base base') (hasData : Bool)
    {ptr ptr' : Nat} (hp : Shifted lo k ptr ptr') :
    Alike (Fault.Moved k) (fun r r' => OpsMoved lo k r.1 r'.1 ∧ RoundMoved lo k r.2 r'.2)
      (recordBody ns m base totalLen hasData ptr)
      (recordBody ns m' base' totalLen hasData ptr') := by
  obtain ⟨hlo, rfl⟩ := hp
  obtain ⟨hlob, rfl⟩ := hb
  have htype : OpsMoved lo k [Op.type ns ptr 2] [Op.type ns (ptr + k) 2] := .cons ⟨rfl, hlo⟩ .nil
  unfold recordBody
  dsimp only
  refine .ite (by omega) (fun _ => alike_pure ⟨.nil, rfl⟩) fun _ => ?_
  refine .ite (by omega) (fun _ => alike_pure ⟨.nil, rfl⟩) fun _ => ?_
  refine .ite Iff.rfl (fun _ => alike_pure ⟨htype, by omega, by omega⟩) fun _ => ?_
  refine .ite (by omega) (fun _ => alike_pure ⟨htype, rfl⟩) fun _ => ?_
  refine (hm.u16 (by omega) (by omega)).bind_eq fun rdLen => ?_
  refine .ite (by omega) (fun _ => alike_pure ⟨htype, rfl⟩) fun _ => ?_
  refine (hm.u16 hlo rfl).bind_eq fun type => alike_pure ⟨?_, by omega, by omega⟩
  refine .cons ⟨rfl, hlo⟩ (.cons ⟨?_, ?_⟩ .nil)
  · simp only [Op.moved, Op.data.injEq, true_and, and_true]
    omega
  · exact ⟨by omega, hlob⟩

theorem sectionArray_alike (target : Nat) (arr : Bool) :
    Alike (Fault.Moved k) (OpsMoved lo k) (sectionArray ns target arr)
      (sectionArray ns target arr) := by
  unfold sectionArray
  split
  · exact .ok .nil
  · split
    · exact .ok (.cons ⟨rfl, trivial⟩ .nil)
    · exact .error (.refl _)

theorem recordLoop_alike (hm : Mem.Moved lo k m m') (hb : Shifted lo k base base')
    {counts : List Nat} : ∀ (left : Nat) {c target rrC ptr ptr' : Nat} {arr : Bool},
      Shifted lo k ptr ptr' →
      Alike (Fault.Moved k) (fun r r' => OpsMoved lo k r.1 r'.1 ∧ r'.2 = r.2)
        (recordLoop ns m base totalLen counts left c target rrC arr ptr)
        (recordLoop ns m' base' totalLen counts left c target rrC arr ptr')
  | 0, _, _, _, _, _, _, _ => .ok ⟨.nil, rfl⟩
  | left + 1, c, target, rrC, ptr, ptr', arr, hp => by
    have hlo := hp.1
    have hptr := hp.2
    have hlob := hb.1
    have hbase := hb.2
    have hremain : base' + 12 + totalLen - ptr' = base + 12 + totalLen - ptr := by omega
    unfold recordLoop
    refine (alike_of_eq Fault.Moved.refl rfl).bind_eq ?_
    rintro ⟨target', rrC', arr'⟩
    dsimp only
    rw [hremain]
    refine .ite (by omega) (fun _ => alike_pure ⟨.nil, rfl⟩) fun _ => ?_
    have harr : Alike (Fault.Moved k) (OpsMoved lo k) (sectionArray ns target' arr')
        (sectionArray ns target' arr') := sectionArray_alike target' arr'
    refine harr.bind fun ops ops' hops => ?_
    have hrec : OpsMoved lo k
        (ops ++ [.record ns target' ptr (base + 12 + totalLen - ptr) base totalLen])
        (ops' ++ [.record ns target' ptr' (base + 12 + totalLen - ptr) base' totalLen]) := by
      refine hops.append (.cons ⟨?_, hlo, hlob⟩ .nil)
      rw [hptr, hbase]
      rfl
    refine (parseLabel_alike hm hp hb none).bind ?_
    rintro ⟨pos, s⟩ ⟨pos', s'⟩ ⟨hpos, -⟩
    cases hpos with
    | none => exact alike_pure ⟨hrec, rfl⟩
    | some hpos =>
      refine (recordBody_alike hm hb _ hpos).bind ?_
      rintro ⟨body, round⟩ ⟨body', round'⟩ ⟨hbody, hround⟩
      cases round <;> cases round' <;> simp only [RoundMoved] at hround
      · exact alike_pure ⟨hrec.append hbody, hround⟩
      · refine (recordLoop_alike hm hb left hround).bind ?_
        rintro ⟨rest, ok⟩ ⟨rest', ok'⟩ ⟨hrest, hok⟩
        exact alike_pure ⟨(hrec.append hbody).append hrest, hok⟩

end NameService

/-! ## Modules -/

/-- The same window, `k` further on. -/
structure Payload.Moved (lo k : Nat) (pd pd' : Payload) : Prop where
  wf : pd.WF
  wf_right : pd'.WF
  ptr : Shifted lo k pd.ptr pd'.ptr
  length : pd'.length = pd.length

/-- What a decoder leaves, `k` further on. -/
structure Step.Moved (lo k : Nat) (s s' : Step) : Prop where
  pd : Payload.Moved lo k s.pd s'.pd
  ops : OpsMoved lo k s.ops s'.ops
  next : s'.next = s.next

section Modules

variable {pd pd' : Payload}

theorem Payload.Moved.retain (h : Payload.Moved lo k pd pd') (size : Nat) :
    Option.Rel (fun r r' => Shifted lo k r.1 r'.1 ∧ Payload.Moved lo k r.2 r'.2)
      (pd.retain size) (pd'.retain size) := by
  have hlen := h.length
  obtain ⟨hlo, hptr⟩ := h.ptr
  rw [Payload.retain_eq h.wf, Payload.retain_eq h.wf_right, hlen]
  split
  · rename_i hs
    refine .some ⟨h.ptr, h.wf.skip hs, h.wf_right.skip (hlen ▸ hs), ⟨?_, ?_⟩, ?_⟩
    · exact Nat.le_add_right_of_le hlo
    · simp only [Payload.skip]
      omega
    · simp only [Payload.skip, hlen]
  · exact .none

theorem Payload.Moved.shrink (h : Payload.Moved lo k pd pd') (length : Nat) :
    Payload.Moved lo k (pd.shrink length) (pd'.shrink length) := by
  refine ⟨h.wf.shrink length, h.wf_right.shrink length, ?_, ?_⟩
  · rw [Payload.shrink_ptr, Payload.shrink_ptr]
    exact h.ptr
  · rw [Payload.shrink_length, Payload.shrink_length, h.length]

theorem Step.moved_nil (h : Payload.Moved lo k pd pd') : Step.Moved lo k { pd } { pd := pd' } :=
  ⟨h, .nil, rfl⟩

/-- **The rule of a header.** -/
theorem withHeader_alike (h : Payload.Moved lo k pd pd') (size : Nat)
    {f g : Nat → Payload → Except Fault Step}
    (hfg : ∀ hdr q q', lo ≤ hdr → Payload.Moved lo k q q' →
      Alike (Fault.Moved k) (Step.Moved lo k) (f hdr q) (g (hdr + k) q')) :
    Alike (Fault.Moved k) (Step.Moved lo k) (withHeader pd size f) (withHeader pd' size g) := by
  have hret := h.retain size
  unfold withHeader
  generalize pd.retain size = r at hret
  generalize pd'.retain size = r' at hret
  cases hret with
  | none => exact .ok (Step.moved_nil h)
  | @some r r' hr =>
    obtain ⟨hdr, q⟩ := r
    obtain ⟨hdr', q'⟩ := r'
    obtain ⟨⟨hlo, rfl⟩, hq⟩ := hr
    exact hfg hdr q q' hlo hq

theorem ethernetDecode_alike (hm : Mem.Moved lo k m m') (h : Payload.Moved lo k pd pd') :
    Alike (Fault.Moved k) (Step.Moved lo k) (ethernetDecode m pd) (ethernetDecode m' pd') := by
  refine withHeader_alike h 14 fun hdr q q' hlo hq => ?_
  refine (hm.u16 (by omega) (by omega)).bind_eq fun type => alike_pure ⟨hq, ⟨?_, ?_⟩, rfl⟩
  · simp [Op.moved, Ptr.moved]
    omega
  · simp [Op.Above, Ptr.Above]
    omega

theorem dot1qDecode_alike (hm : Mem.Moved lo k m m') (h : Payload.Moved lo k pd pd') :
    Alike (Fault.Moved k) (Step.Moved lo k) (dot1qDecode m pd) (dot1qDecode m' pd') := by
  refine withHeader_alike h 4 fun hdr q q' hlo hq => ?_
  refine (hm.u16 (by omega) (by omega)).bind_eq fun info => ?_
  refine (hm.u16 (by omega) (by omega)).bind_eq fun type => alike_pure ⟨hq, ⟨?_, ?_⟩, rfl⟩
  · simp [Op.moved, Ptr.moved]
    omega
  · simp [Op.Above, Ptr.Above]
    omega

theorem pppoeDecode_alike (hm : Mem.Moved lo k m m') (h : Payload.Moved lo k pd pd') :
    Alike (Fault.Moved k) (Step.Moved lo k) (pppoeDecode m pd) (pppoeDecode m' pd') := by
  refine withHeader_alike h 6 fun hdr q q' hlo hq => ?_
  refine (hm.u8 hlo rfl).bind_eq fun b => ?_
  have hops : OpsMoved lo k
      [.cpy .pppoeVersion [b &&& 0x0f], .cpy .pppoeType [b >>> 4],
        .set .pppoeCode (.pkt (hdr + 1)) 1, .set .pppoeSessionId (.pkt (hdr + 2)) 2,
        .set .pppoePayloadLength (.pkt (hdr + 4)) 2]
      [.cpy .pppoeVersion [b &&& 0x0f], .cpy .pppoeType [b >>> 4],
        .set .pppoeCode (.pkt (hdr + k + 1)) 1, .set .pppoeSessionId (.pkt (hdr + k + 2)) 2,
        .set .pppoePayloadLength (.pkt (hdr + k + 4)) 2] := by
    constructor
    · simp [Op.moved, Ptr.moved]
      omega
    · simp [Op.Above, Ptr.Above]
      omega
  have hret := hq.retain 2
  dsimp only
  generalize q.retain 2 = r at hret
  generalize q'.retain 2 = r' at hret
  cases hret with
  | none => exact alike_pure ⟨hq, hops, rfl⟩
  | @some r r' hr =>
    obtain ⟨ppp, q⟩ := r
    obtain ⟨ppp', q'⟩ := r'
    obtain ⟨hppp, hq⟩ := hr
    exact (hm.u16 hppp.1 hppp.2).bind_eq fun proto => alike_pure ⟨hq, hops, rfl⟩

theorem arpAddrs_moved (h : Payload.Moved lo k pd pd') (addrs : List (Nat × (Nat → Op)))
    (hops : ∀ a ∈ addrs, ∀ ptr, lo ≤ ptr →
      a.2 (ptr + k) = (a.2 ptr).moved k ∧ (a.2 ptr).Above lo) :
    Step.Moved lo k (arpAddrs pd addrs) (arpAddrs pd' addrs) := by
  induction addrs generalizing pd pd' with
  | nil => exact Step.moved_nil h
  | cons a rest ih =>
    obtain ⟨len, op⟩ := a
    have hret := h.retain len
    unfold arpAddrs
    generalize pd.retain len = r at hret
    generalize pd'.retain len = r' at hret
    cases hret with
    | none => exact Step.moved_nil h
    | @some r r' hr =>
      obtain ⟨ptr, q⟩ := r
      obtain ⟨ptr', q'⟩ := r'
      obtain ⟨⟨hlo, rfl⟩, hq⟩ := hr
      have hrest := ih hq fun a ha => hops a (List.mem_cons_of_mem _ ha)
      exact ⟨hrest.pd, .cons (hops _ List.mem_cons_self ptr hlo) hrest.ops, hrest.next⟩

theorem arpDecode_alike (hm : Mem.Moved lo k m m') (h : Payload.Moved lo k pd pd') :
    Alike (Fault.Moved k) (Step.Moved lo k) (arpDecode m pd) (arpDecode m' pd') := by
  refine withHeader_alike h 8 fun hdr q q' hlo hq => ?_
  refine (hm.u8 (by omega) (by omega)).bind_eq fun hwLen => ?_
  refine (hm.u8 (by omega) (by omega)).bind_eq fun prLen => ?_
  refine (hm.u16 (by omega) (by omega)).bind_eq fun op => ?_
  have haddrs := arpAddrs_moved hq [
    (hwLen.toNat, fun ptr => .set .arpHwSrc (.pkt ptr) hwLen.toNat),
    (prLen.toNat, fun ptr => .set .arpPrSrc (.pkt ptr) prLen.toNat),
    (hwLen.toNat, fun ptr => .set .arpHwDst (.pkt ptr) hwLen.toNat),
    (prLen.toNat, fun ptr => .set .arpPrDst (.pkt ptr) prLen.toNat)]
    (by simp [Op.moved, Ptr.moved, Op.Above, Ptr.Above])
  refine alike_pure ⟨haddrs.pd, (OpsMoved.append ⟨?_, ?_⟩ ?_).append haddrs.ops, haddrs.next⟩
  · simp [Op.moved, Ptr.moved]
    omega
  · simp [Op.Above, Ptr.Above]
    omega
  · split
    · exact .cons ⟨rfl, trivial⟩ .nil
    · split
      · exact .cons ⟨rfl, trivial⟩ .nil
      · exact .nil

theorem ipv4Options_moved (h : Payload.Moved lo k pd pd') (hdrLen : Nat) :
    Step.Moved lo k (ipv4Options pd hdrLen) (ipv4Options pd' hdrLen) := by
  unfold ipv4Options
  split
  · have hret := h.retain (hdrLen - 20)
    generalize pd.retain (hdrLen - 20) = r at hret
    generalize pd'.retain (hdrLen - 20) = r' at hret
    cases hret with
    | none => exact ⟨h, .cons ⟨rfl, trivial⟩ .nil, rfl⟩
    | @some r r' hr =>
      obtain ⟨opt, q⟩ := r
      obtain ⟨opt', q'⟩ := r'
      obtain ⟨⟨hlo, rfl⟩, hq⟩ := hr
      exact ⟨hq, .cons ⟨rfl, hlo⟩ .nil, rfl⟩
  · exact Step.moved_nil h

theorem ipv4Decode_alike (hm : Mem.Moved lo k m m') (h : Payload.Moved lo k pd pd') :
    Alike (Fault.Moved k) (Step.Moved lo k) (ipv4Decode m pd) (ipv4Decode m' pd') := by
  refine withHeader_alike h 20 fun hdr q q' hlo hq => ?_
  refine (hm.u8 hlo rfl).bind_eq fun first => ?_
  refine (hm.u16 (by omega) (by omega)).bind_eq fun totalLen => ?_
  refine .ite Iff.rfl (fun _ => alike_pure (Step.moved_nil hq)) fun _ => ?_
  refine (hm.bytes 4 (by omega) (by omega)).bind_eq fun src => ?_
  refine (hm.bytes 4 (by omega) (by omega)).bind_eq fun dst => ?_
  refine (hm.u8 (by omega) (by omega)).bind_eq fun proto => ?_
  have hopts := ipv4Options_moved hq (ipv4HdrLen first)
  have hcut := hopts.pd.shrink (totalLen - ipv4HdrLen first)
  refine alike_pure ⟨hcut, (OpsMoved.append ⟨?_, ?_⟩ hopts.ops).append (.cons ⟨?_, ?_⟩ .nil), rfl⟩
  · simp [Op.moved, Ptr.moved]
    omega
  · simp [Op.Above, Ptr.Above]
    omega
  · simp only [Op.moved, Ptr.moved, hcut.length, hcut.ptr.2]
  · exact hcut.ptr.1

theorem ipv6Decode_alike (hm : Mem.Moved lo k m m') (h : Payload.Moved lo k pd pd') :
    Alike (Fault.Moved k) (Step.Moved lo k) (ipv6Decode m pd) (ipv6Decode m' pd') := by
  refine withHeader_alike h 40 fun hdr q q' hlo hq => ?_
  refine (hm.bytes 16 (by omega) (by omega)).bind_eq fun src => ?_
  refine (hm.bytes 16 (by omega) (by omega)).bind_eq fun dst => ?_
  refine (hm.u8 (by omega) (by omega)).bind_eq fun nextHdr => alike_pure ⟨hq, ?_, rfl⟩
  exact .cons ⟨rfl, trivial⟩ (.cons ⟨rfl, trivial⟩ .nil)

theorem icmpDecode_alike (hm : Mem.Moved lo k m m') (h : Payload.Moved lo k pd pd') :
    Alike (Fault.Moved k) (Step.Moved lo k) (icmpDecode m pd) (icmpDecode m' pd') := by
  refine withHeader_alike h 4 fun hdr q q' hlo hq => ?_
  refine (hm.u8 hlo rfl).bind_eq fun type => alike_pure ⟨hq, ⟨?_, ?_⟩, rfl⟩
  · simp [Op.moved, Ptr.moved]
    omega
  · simp [Op.Above, Ptr.Above]
    omega

theorem udpDecode_alike (hm : Mem.Moved lo k m m') (h : Payload.Moved lo k pd pd') :
    Alike (Fault.Moved k) (Step.Moved lo k) (udpDecode m pd) (udpDecode m' pd') := by
  refine withHeader_alike h 8 fun hdr q q' hlo hq => ?_
  refine (hm.u16 hlo rfl).bind_eq fun sport => ?_
  refine (hm.u16 (by omega) (by omega)).bind_eq fun dport => alike_pure ⟨hq, ⟨?_, ?_⟩, rfl⟩
  · simp [Op.moved, Ptr.moved]
    omega
  · simp [Op.Above, Ptr.Above]
    omega

theorem NameService.decode_alike {ns : NameService} (hm : Mem.Moved lo k m m')
    (h : Payload.Moved lo k pd pd') :
    Alike (Fault.Moved k) (Step.Moved lo k) (ns.decode m pd) (ns.decode m' pd') := by
  unfold NameService.decode NameService.nsDecode
  have hret := h.retain 12
  generalize pd.retain 12 = r at hret
  generalize pd'.retain 12 = r' at hret
  cases hret with
  | none => exact .ok (Step.moved_nil h)
  | @some r r' hr =>
    obtain ⟨base, q⟩ := r
    obtain ⟨base', q'⟩ := r'
    obtain ⟨hbase, hq⟩ := hr
    dsimp only at hbase hq ⊢
    have hlen := hq.length
    -- the message, and then its records
    suffices hns : Alike (Fault.Moved k) (fun r r' : Payload × List Op × Bool =>
        Payload.Moved lo k r.1 r'.1 ∧ OpsMoved lo k r.2.1 r'.2.1) _ _ from
      hns.bind fun r r' hr => alike_pure ⟨hr.1, hr.2, rfl⟩
    refine (readCounts_alike hm hbase).bind_eq fun counts => ?_
    have hall := hq.retain q.length
    rw [hlen]
    generalize q.retain q.length = r at hall
    generalize q'.retain q.length = r' at hall
    cases hall with
    | none => exact .error (.refl _)
    | @some r r' hr =>
      obtain ⟨ptr, q1⟩ := r
      obtain ⟨ptr', q1'⟩ := r'
      obtain ⟨hptr, hq1⟩ := hr
      obtain ⟨hlo, rfl⟩ := hbase
      refine (hm.u16 (by omega) (by omega)).bind_eq fun flags => ?_
      refine (recordLoop_alike hm ⟨hlo, rfl⟩ counts.sum hptr).bind ?_
      rintro ⟨ops, ok⟩ ⟨ops', ok'⟩ ⟨hops, -⟩
      refine alike_pure ⟨hq1, .append ?_ hops⟩
      exact .cons ⟨rfl, hlo⟩ (.cons ⟨rfl, trivial⟩ (.cons ⟨rfl, trivial⟩ .nil))

theorem dhcpOptionsLoop_alike (hm : Mem.Moved lo k m m') :
    ∀ (fuel : Nat) {pd pd' : Payload}, Payload.Moved lo k pd pd' →
      Alike (Fault.Moved k) (Step.Moved lo k) (dhcpOptionsLoop m fuel pd)
        (dhcpOptionsLoop m' fuel pd')
  | 0, _, _, _ => .error (.refl _)
  | fuel + 1, pd, pd', h => by
    have hret := h.retain 2
    unfold dhcpOptionsLoop
    generalize pd.retain 2 = r at hret
    generalize pd'.retain 2 = r' at hret
    cases hret with
    | none => exact .ok (Step.moved_nil h)
    | @some r r' hr =>
      obtain ⟨optHdr, q⟩ := r
      obtain ⟨optHdr', q'⟩ := r'
      obtain ⟨⟨hlo, rfl⟩, hq⟩ := hr
      dsimp only at hlo hq ⊢
      refine (hm.u8 hlo rfl).bind_eq fun type => ?_
      refine .ite Iff.rfl (fun _ => alike_pure (Step.moved_nil hq)) fun _ => ?_
      refine (hm.u8 (by omega) (by omega)).bind_eq fun len => ?_
      have hdata := hq.retain len.toNat
      generalize q.retain len.toNat = r at hdata
      generalize q'.retain len.toNat = r' at hdata
      cases hdata with
      | none => exact alike_pure (Step.moved_nil hq)
      | @some r r' hr =>
        obtain ⟨optData, q1⟩ := r
        obtain ⟨optData', q1'⟩ := r'
        obtain ⟨⟨hlo', rfl⟩, hq1⟩ := hr
        refine (dhcpOptionsLoop_alike hm fuel hq1).bind fun s s' hs => alike_pure ?_
        exact ⟨hs.pd, .cons ⟨rfl, hlo, hlo'⟩ hs.ops, hs.next⟩

theorem dhcpHeader_moved {hdr : Nat} (hlo : lo ≤ hdr) (hwAddrLen : Nat) (hostName bootFile : UInt8) :
    OpsMoved lo k (dhcpHeader hdr hwAddrLen hostName bootFile)
      (dhcpHeader (hdr + k) hwAddrLen hostName bootFile) := by
  unfold dhcpHeader
  refine ((OpsMoved.append ⟨?_, ?_⟩ ?_).append ?_).append (.cons ⟨rfl, trivial⟩ .nil)
  · simp [Op.moved, Ptr.moved]
    omega
  · simp [Op.Above, Ptr.Above]
    omega
  · split
    · exact .cons ⟨by simp only [Op.moved, Ptr.moved, Nat.add_right_comm], Nat.le_add_right_of_le hlo⟩ .nil
    · exact .nil
  · split
    · exact .cons ⟨by simp only [Op.moved, Ptr.moved, Nat.add_right_comm], Nat.le_add_right_of_le hlo⟩ .nil
    · exact .nil

theorem dhcpDecode_alike (hm : Mem.Moved lo k m m') (h : Payload.Moved lo k pd pd') :
    Alike (Fault.Moved k) (Step.Moved lo k) (dhcpDecode m pd) (dhcpDecode m' pd') := by
  refine withHeader_alike h 240 fun hdr q q' hlo hq => ?_
  refine (hm.u8 (by omega) (by omega)).bind_eq fun hwAddrLen => ?_
  refine (hm.u8 (by omega) (by omega)).bind_eq fun hostName => ?_
  refine (hm.u8 (by omega) (by omega)).bind_eq fun bootFile => ?_
  rw [hq.length]
  refine (dhcpOptionsLoop_alike hm _ hq).bind fun s s' hs => alike_pure ?_
  exact ⟨hs.pd, (dhcpHeader_moved hlo _ _ _).append hs.ops, hs.next⟩

end Modules

/-! ## TCP -/

section Tcp

variable {τ : Type} {pd pd' : Payload} {cfg : TcpConfig τ} {st : TcpState τ} {e : Endpoints}
  {tv : Tcp.Timeval}

theorem setProperties_alike (hm : Mem.Moved lo k m m') {hdr : Nat} (hlo : lo ≤ hdr)
    (h : Payload.Moved lo k pd pd') :
    Alike (Fault.Moved k) (fun r r' => Payload.Moved lo k r.1 r'.1 ∧ OpsMoved lo k r.2.1 r'.2.1 ∧
        r'.2.2 = r.2.2)
      (setProperties m hdr pd) (setProperties m' (hdr + k) pd') := by
  unfold setProperties
  refine (hm.u16 hlo rfl).bind_eq fun sport => ?_
  refine (hm.u16 (by omega) (by omega)).bind_eq fun dport => ?_
  refine (hm.u8 (by omega) (by omega)).bind_eq fun offset => ?_
  have hops : OpsMoved lo k
      [.srcPort (UInt16.ofNat sport), .dstPort (UInt16.ofNat dport), .set .tcpSrcPort (.pkt hdr) 2,
        .set .tcpDstPort (.pkt (hdr + 2)) 2, .set .tcpHdr (.pkt hdr) 20]
      [.srcPort (UInt16.ofNat sport), .dstPort (UInt16.ofNat dport),
        .set .tcpSrcPort (.pkt (hdr + k)) 2, .set .tcpDstPort (.pkt (hdr + k + 2)) 2,
        .set .tcpHdr (.pkt (hdr + k)) 20] := by
    constructor
    · simp [Op.moved, Ptr.moved]
      omega
    · simp [Op.Above, Ptr.Above]
      omega
  refine .ite Iff.rfl (fun _ => ?_) fun _ => alike_pure ⟨h, hops, rfl⟩
  have hret := h.retain (tcpOptLen offset)
  generalize pd.retain (tcpOptLen offset) = r at hret
  generalize pd'.retain (tcpOptLen offset) = r' at hret
  cases hret with
  | none => exact alike_pure ⟨h, hops, rfl⟩
  | @some r r' hr =>
    obtain ⟨opt, q⟩ := r
    obtain ⟨opt', q'⟩ := r'
    obtain ⟨⟨hopt, rfl⟩, hq⟩ := hr
    exact alike_pure ⟨hq, hops.append (.cons ⟨rfl, hopt⟩ .nil), rfl⟩

theorem effOps_moved {segPtr : Ptr} (hp : segPtr.Above lo) (segLen : Nat) (out : List Tcp.Eff) :
    OpsMoved lo k (out.flatMap (effOps segPtr segLen))
      (out.flatMap (effOps (segPtr.moved k) segLen)) := by
  induction out with
  | nil => exact .nil
  | cons eff out ih =>
    refine OpsMoved.append ?_ ih
    unfold effOps
    split
    · exact .cons ⟨rfl, trivial⟩ .nil
    · exact .cons ⟨rfl, trivial⟩ .nil
    · exact .cons ⟨rfl, trivial⟩ .nil
    · exact .cons ⟨rfl, hp⟩ .nil
    · exact .cons ⟨rfl, trivial⟩ .nil
    · exact .cons ⟨rfl, trivial⟩ .nil
    · exact .cons ⟨rfl, trivial⟩ .nil
    · exact .nil

theorem sessionMgmt_alike (hm : Mem.Moved lo k m m') {hdr segOff segLen : Nat} (hlo : lo ≤ hdr)
    (hseg : lo ≤ segOff) :
    Alike (Fault.Moved k) (fun r r' => r'.1 = r.1 ∧ OpsMoved lo k r.2 r'.2)
      (sessionMgmt cfg st e tv m hdr segOff segLen)
      (sessionMgmt cfg st e tv m' (hdr + k) (segOff + k) segLen) := by
  unfold sessionMgmt
  dsimp only
  refine (alike_of_eq Fault.Moved.refl rfl).bind_eq fun key => ?_
  refine (hm.u8 (by omega) (by omega)).bind_eq fun flags => ?_
  refine (hm.u32 (by omega) (by omega)).bind_eq fun seq => ?_
  refine (hm.u32 (by omega) (by omega)).bind_eq fun ack => ?_
  refine (hm.u16 (by omega) (by omega)).bind_eq fun win => ?_
  refine (hm.bytes segLen hseg rfl).bind_eq fun data => ?_
  have hptr : (if segLen > 0 then Ptr.pkt (segOff + k) else .null)
      = (if segLen > 0 then Ptr.pkt segOff else .null).moved k := by
    split <;> rfl
  have habove : (if segLen > 0 then Ptr.pkt segOff else .null).Above lo := by
    split
    · exact hseg
    · trivial
  have hnew : ∀ ops : List Op, (∀ op ∈ ops, ∃ ev, op = .event ev) → OpsMoved lo k ops ops := by
    intro ops hops
    induction ops with
    | nil => exact .nil
    | cons op ops ih =>
      obtain ⟨⟨ev, rfl⟩, hrest⟩ := List.forall_mem_cons.mp hops
      exact .cons ⟨rfl, trivial⟩ (ih hrest)
  split
  · exact .error (.refl _)
  · rename_i r hr
    refine alike_pure ⟨rfl, .append (.append ?_ (.cons ⟨rfl, trivial⟩ .nil)) ?_⟩
    · refine hnew _ fun op hop => ?_
      unfold searchSession at hop
      split at hop
      · cases hop
      · exact ⟨_, List.mem_singleton.mp hop⟩
    · rw [hptr]
      exact effOps_moved habove segLen r.out

/-- **`TCP::decode`** tells the session the same, so the state it leaves is the same. -/
theorem tcpDecode_alike (hm : Mem.Moved lo k m m') (h : Payload.Moved lo k pd pd') :
    Alike (Fault.Moved k) (fun r r' => r'.1 = r.1 ∧ Step.Moved lo k r.2 r'.2)
      (tcpDecode cfg st e tv m pd) (tcpDecode cfg st e tv m' pd') := by
  have hret := h.retain 20
  unfold tcpDecode
  generalize pd.retain 20 = r at hret
  generalize pd'.retain 20 = r' at hret
  cases hret with
  | none => exact .ok ⟨rfl, Step.moved_nil h⟩
  | @some r r' hr =>
    obtain ⟨hdr, q⟩ := r
    obtain ⟨hdr', q'⟩ := r'
    obtain ⟨⟨hlo, rfl⟩, hq⟩ := hr
    dsimp only at hlo hq ⊢
    refine (setProperties_alike hm hlo hq).bind ?_
    rintro ⟨q, ops, ok⟩ ⟨q', ops', ok'⟩ ⟨hq, hops, rfl⟩
    dsimp only at hq hops ⊢
    refine .ite Iff.rfl (fun _ => alike_pure ⟨rfl, hq, hops, rfl⟩) fun _ => ?_
    obtain ⟨hseg, hptr⟩ := hq.ptr
    rw [hq.length, hptr]
    have hsegOps : OpsMoved lo k
        (if q.length > 0 then [.set .tcpSegment (.pkt q.ptr) q.length] else [])
        (if q.length > 0 then [.set .tcpSegment (.pkt (q.ptr + k)) q.length] else []) := by
      split
      · exact .cons ⟨rfl, hseg⟩ .nil
      · exact .nil
    have hend : Payload.Moved lo k
        (if q.length > 0 then ((q.retain q.length).map Prod.snd).getD q else q)
        (if q.length > 0 then ((q'.retain q.length).map Prod.snd).getD q' else q') := by
      split
      · have hall := hq.retain q.length
        generalize q.retain q.length = r at hall
        generalize q'.retain q.length = r' at hall
        cases hall with
        | none => exact hq
        | some hr => exact hr.2
      · exact hq
    refine .ite Iff.rfl (fun _ => ?_) fun _ => alike_pure ⟨rfl, hend, hops.append hsegOps, rfl⟩
    refine (hm.u16 hlo rfl).bind_eq fun sport => ?_
    refine (hm.u16 (by omega) (by omega)).bind_eq fun dport => ?_
    refine (sessionMgmt_alike hm hlo hseg).bind ?_
    rintro ⟨st', ssnOps⟩ ⟨st'', ssnOps'⟩ ⟨rfl, hssn⟩
    exact alike_pure ⟨rfl, hend, (hops.append hsegOps).append hssn, rfl⟩

/-- **One module**: it names the same successor, leaves the same state and makes the same calls, with
the positions in them `k` further on. -/
theorem decodeMod_alike (hm : Mem.Moved lo k m m') (h : Payload.Moved lo k pd pd') (mod : Mod) :
    Alike (Fault.Moved k) (fun r r' => r'.1 = r.1 ∧ Step.Moved lo k r.2 r'.2)
      (decodeMod cfg tv m st e pd mod) (decodeMod cfg tv m' st e pd' mod) := by
  have hret : ∀ {x y : Except Fault Step}, Alike (Fault.Moved k) (Step.Moved lo k) x y →
      Alike (Fault.Moved k) (fun r r' : TcpState τ × Step => r'.1 = r.1 ∧ Step.Moved lo k r.2 r'.2)
        (do return (st, ← x)) (do return (st, ← y)) := by
    intro x y hxy
    exact hxy.bind fun s s' hs => alike_pure ⟨rfl, hs⟩
  cases mod with
  | arp => exact hret (arpDecode_alike hm h)
  | dhcp => exact hret (dhcpDecode_alike hm h)
  | dns => exact hret (NameService.decode_alike hm h)
  | dot1q => exact hret (dot1qDecode_alike hm h)
  | ethernet => exact hret (ethernetDecode_alike hm h)
  | icmp => exact hret (icmpDecode_alike hm h)
  | ipv4 => exact hret (ipv4Decode_alike hm h)
  | ipv6 => exact hret (ipv6Decode_alike hm h)
  | mdns => exact hret (NameService.decode_alike hm h)
  | pppoe => exact hret (pppoeDecode_alike hm h)
  | tcp => exact tcpDecode_alike hm h
  | udp => exact hret (udpDecode_alike hm h)

end Tcp

end PacketMachine.Decode
