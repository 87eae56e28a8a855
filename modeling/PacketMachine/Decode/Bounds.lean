import PacketMachine.Decode.Reading

/-!
# The bytes that decoded values denote

A value that was filled with `set` is a pointer and a length. Here all values that a user can get hold of
are followed to the operation that has set them.

* `DHCP::decode` sets `client_hw_addr` to as many bytes as the field `hw_addr_len` of the header says, up
  to 255, from the 16 bytes of the header on. Nothing compares this with what is left of the packet.
* `get` of a header gives its slots as they are.

Results:
* `Property.walk_cases`: what is reached through `get` and `find` was retained for a record or an option,
  or is a slot of the header that the path starts at.
* **`Decodes.obtains_inside`**: all values but `IPv4.opt` lie in the packet when the hardware address
  does, except for the slots of a header.
-/

namespace PacketMachine.Decode

open PacketMachine.Lib

variable {τ : Type}

/-- **The values that a user can get hold of** through `value`, `get` and `find`, other than
`IPv4.opt`. -/
inductive Property.Obtains (q : Property) : Cell → Prop
  | obj {d : Param} {path : List Access} {h : Handle} {o : Obj} (hd : d ≠ .ipv4Opt)
    (hc : 0 < q.count d) (hw : q.walk (.obj ⟨d, 0⟩) path = .ok (some (.obj h)))
    (ho : q.obj? h = some o) : Obtains q o.cell
  | slot {d : Param} {path : List Access} {h : Handle} {i : Nat} {c : Cell} (hd : d ≠ .ipv4Opt)
    (hc : 0 < q.count d) (hw : q.walk (.obj ⟨d, 0⟩) path = .ok (some (.slot h i)))
    (hs : q.slot? h i = some c) : Obtains q c

/-- The hardware address of a DHCP header fits in the packet. -/
def Packet.HwAddrFits (p : Packet) : Prop :=
  ∀ d, p.dhcpAt = some d → d + 28 + (p.mem.byte (d + 2)).toNat ≤ p.data.length

/-! ## Paths -/

section Paths

variable {q : Property}

/-- What a path leads to: where it starts, `value::NONE`, a value that another one refers to, or a slot
of the header it starts at. -/
inductive Arrives (P : Handle → Prop) (h : Handle) : Ref → Prop
  | start : Arrives P h (.obj h)
  | none : Arrives P h .none
  | member {i : Handle} (hi : P i) : Arrives P h (.obj i)
  | slot {i : Nat} (hk : h.param.kind = .storage) : Arrives P h (.slot h i)

/-- **Where a path from a live value ends.** -/
theorem Property.walk_cases {P : Handle → Prop} (hw : q.WF) (hl : q.Linked)
    (hP : q.All fun _ o => ∀ i, .obj i ∈ o.refs → P i) (path : List Access) {h : Handle} {r : Ref}
    (hlive : q.Live h) (hr : q.walk (.obj h) path = .ok (some r)) : Arrives P h r := by
  induction path generalizing h with
  | nil =>
    cases hr
    exact .start
  | cons a path ih =>
    obtain ⟨o, ho⟩ := hw.sized.obj?_live hlive
    simp only [Property.walk, ho] at hr
    obtain ⟨x, ha, hr⟩ := returns_of_bind hr
    cases x with
    | none => cases hr
    | some r1 =>
      dsimp only at hr
      obtain rfl | hm | ⟨hs, idx, rfl⟩ := Obj.access_refs ha
      · cases path with
        | nil =>
          cases hr
          exact .none
        | cons a path => cases hr
      · have hvalid := hl h o hlive ho r1 hm
        cases r1 with
        | null => exact hvalid.elim
        | none =>
          cases path with
          | nil =>
            cases hr
            exact .none
          | cons a path => cases hr
        | slot i j => exact hvalid.elim
        | obj i =>
          have hi : P i := hP h o hlive ho i hm
          cases ih hvalid.1 hr with
          | start => exact .member hi
          | none => exact .none
          | member hj => exact .member hj
          | slot hk => exact absurd hk hvalid.2
      · cases path with
        | nil =>
          cases hr
          exact .slot ((hw.objs h o ho).kind.symm.trans hs)
        | cons a path => cases hr

/-- **What others refer to is no direct parameter.** -/
theorem exec_refs (hw : q.WF) (hq : q.All fun _ o => ∀ i, .obj i ∈ o.refs → i.param.direct = false)
    (ops : List Op) : (q.exec ops).All fun _ o => ∀ i, .obj i ∈ o.refs → i.param.direct = false := by
  refine Property.exec_all hw hq ?_
  intro op _ q' hw' hq' h o ht hl i hi
  obtain he | ⟨o', ho', hn, hr⟩ | ⟨d, -, hd, he⟩ := ht.refs hw' hi
  · cases he
  · exact hq' h o' (hl.of_not_retained hw'.sized hn) ho' i hr
  · cases he
    exact hd

end Paths

/-! ## Ranges -/

section Ranges

variable {q q' : Property} {m : Mem} {hi n : Nat} {dhcp : Option Nat} {ops : List Op}

theorem Cell.Same.inside {c c' : Cell} (h : c.Same c') (hc : c.Inside n) : c'.Inside n := by
  rintro ⟨ha, hl, ho⟩
  rw [← h.active] at ha
  rw [← h.len ha] at hl ⊢
  rw [← h.ptr ha] at ho ⊢
  exact hc ⟨ha, hl, ho⟩

theorem Cell.inside_of_within {c : Cell}
    (h : c.active = true → c.ptr = .own ∨ c.ptr.Within 0 n c.len) : c.Inside n := by
  rintro ⟨ha, hl, ho⟩
  have hr := (h ha).resolve_left ho
  cases hp : c.ptr with
  | null =>
    rw [hp] at hr
    exact absurd hr hl
  | pkt off =>
    rw [hp] at hr
    exact ⟨off, rfl, hr.2⟩
  | own => exact absurd hp ho
  | ext data =>
    rw [hp] at hr
    exact hr.elim
  | old age off =>
    rw [hp] at hr
    exact hr.elim

theorem direct_of_loose {d : Param} (h : d ∈ loose) : d.direct = true := by
  simp only [loose, List.mem_cons, List.not_mem_nil, or_false] at h
  obtain rfl | rfl | rfl := h <;> rfl

/-- **The hardware address** is what the header says. -/
theorem Decodes.hwAddr_obj (h : Decodes m hi dhcp q.init q' ops) (hw : q.WF) :
    (dhcp = none → q'.count .dhcpClientHwAddr = 0) ∧
      ∀ d, dhcp = some d → q'.Live ⟨.dhcpClientHwAddr, 0⟩ ∧
        ∃ o, q'.obj? ⟨.dhcpClientHwAddr, 0⟩ = some o ∧ o.cell.active = true ∧
          o.cell.ptr = .pkt (d + 28) ∧ o.cell.len = (m.byte (d + 2)).toNat := by
  have hf := exec_first (d := .dhcpClientHwAddr) rfl hw.init (Property.count_init _) ops
  rw [h.hwAddr, ← h.exec] at hf
  constructor
  · rintro rfl
    exact hf
  · rintro d rfl
    exact hf

theorem Decodes.within (h : Decodes m hi dhcp q.init q' ops) (hw : q.WF) :
    q'.All fun i o => i.param ∈ loose ∨ o.Within 0 hi := by
  intro i o hl ho
  have hall := exec_within hw.init fun op hop => (h.fits op hop).1
  rw [← h.exec] at hall
  refine (hall i o hl ho).resolve_left fun hlive => ?_
  rw [Property.Live, Property.count_init] at hlive
  exact Nat.not_lt_zero _ hlive

/-- **The first value of `TCP.data`** is the segment of the packet. -/
theorem Decodes.data_inside (h : Decodes m hi dhcp q.init q' ops) (hw : q.WF) {o : Obj}
    (hl : q'.Live ⟨.tcpData, 0⟩) (ho : q'.obj? ⟨.tcpData, 0⟩ = some o) : o.cell.Inside hi := by
  have hf := exec_first (d := .tcpData) rfl hw.init (Property.count_init _) ops
  have hfirst := h.first
  unfold FirstDataWithin at hfirst
  rw [← h.exec] at hf
  cases hfills : fills .tcpData ops with
  | nil =>
    rw [hfills] at hf
    rw [Property.Live, hf] at hl
    exact absurd hl (Nat.not_lt_zero _)
  | cons r rest =>
    rw [hfills] at hf hfirst
    obtain ⟨-, o', ho', -, hp, hlen⟩ := hf
    obtain rfl := Option.some.inj (ho.symm.trans ho')
    refine Cell.inside_of_within fun _ => .inr ?_
    rw [hp, hlen]
    exact hfirst r rfl

/-- **Everything a user can get hold of lies in the packet** or is a slot of a header, when the hardware
address lies in the packet. -/
theorem Decodes.obtains_inside (h : Decodes m hi dhcp q.init q' ops) (hw : q.WF) {q1 : Property}
    (hsim : Sim q' q1) (hhw : ∀ d, dhcp = some d → d + 28 + (m.byte (d + 2)).toNat ≤ hi) {c : Cell}
    (hc : q1.Obtains c) :
    c.Inside hi ∨ ∃ d i, 0 < q1.count d ∧ q1.slot? ⟨d, 0⟩ i = some c := by
  obtain ⟨hw', hlinked', -⟩ := h.links hw
  have hlinked := hsim.linked hlinked'
  -- what others refer to is live, and no direct parameter
  have hrefs : q1.All fun _ o => ∀ i, .obj i ∈ o.refs → i.param.direct = false ∧ q1.Live i := by
    intro j o1 hj ho1 i hi
    obtain ⟨o, ho, hsame⟩ := hsim.symm.other hj ho1
    have hdirect := exec_refs hw.init (Property.all_init _) ops
    rw [← h.exec] at hdirect
    exact ⟨hdirect j o (hsim.live.mpr hj) ho i (hsame.refs_eq ▸ hi), (hlinked j o1 hj ho1 _ hi).1⟩
  cases hc with
  | @slot d path i j c hd hcount hwalk hs =>
    have hstart : q1.Live ⟨d, 0⟩ := hcount
    cases Property.walk_cases hsim.wf_right hlinked hrefs path hstart hwalk with
    | slot => exact .inr ⟨d, j, hcount, hs⟩
  | @obj d path i o hd hcount hwalk ho =>
    have hstart : q1.Live ⟨d, 0⟩ := hcount
    have harrives := Property.walk_cases hsim.wf_right hlinked hrefs path hstart hwalk
    have hl1 : q1.Live i := by
      cases harrives with
      | start => exact hstart
      | member hi => exact hi.2
    have hl : q'.Live i := hsim.live.mpr hl1
    obtain ⟨o', ho', hsame⟩ := hsim.symm.other hl1 ho
    refine .inl (hsame.symm.cell.inside ?_)
    obtain hloose | hr := h.within hw i o' hl ho'
    · -- a loose parameter is reached by `value` alone
      cases harrives with
      | member hi =>
        rw [direct_of_loose hloose] at hi
        cases hi.1
      | start =>
        simp only [loose, List.mem_cons, List.not_mem_nil, or_false] at hloose
        obtain rfl | rfl | rfl := hloose
        · exact absurd rfl hd
        · exact h.data_inside hw hl ho'
        · have hobj := h.hwAddr_obj hw
          cases hdhcp : dhcp with
          | none =>
            rw [Property.Live, hobj.1 hdhcp] at hl
            exact absurd hl (Nat.not_lt_zero _)
          | some d =>
            obtain ⟨-, o2, ho2, -, hp, hlen⟩ := hobj.2 d hdhcp
            obtain rfl := Option.some.inj (ho'.symm.trans ho2)
            refine fun _ => ⟨d + 28, hp, ?_⟩
            rw [hlen]
            exact hhw d hdhcp
    · exact Cell.inside_of_within hr.cell

end Ranges

/-! ## The way to DHCP -/

section Dhcp

variable {m : Mem} {i n d : Nat}

theorem udpToDhcp_le (h : udpToDhcp m i n = some d) : d + 240 ≤ i + n := by
  unfold udpToDhcp at h
  split at h
  · obtain rfl := Option.some.inj h
    omega
  · cases h

theorem ipv4ToDhcp_le (h : ipv4ToDhcp m i n = some d) : d + 240 ≤ i + n := by
  unfold ipv4ToDhcp at h
  dsimp only at h
  split at h
  · have hle := udpToDhcp_le h
    split at hle <;> omega
  · cases h

theorem pppoeToDhcp_le (h : pppoeToDhcp m i n = some d) : d + 240 ≤ i + n := by
  unfold pppoeToDhcp at h
  split at h
  · have hle := ipv4ToDhcp_le h
    omega
  · cases h

theorem dot1qToDhcp_le (h : dot1qToDhcp m i n = some d) : d + 240 ≤ i + n := by
  unfold dot1qToDhcp at h
  split_ifs at h
  · have hle := ipv4ToDhcp_le h
    omega
  · have hle := pppoeToDhcp_le h
    omega

theorem ethernetToDhcp_le (h : ethernetToDhcp m i n = some d) : d + 240 ≤ i + n := by
  unfold ethernetToDhcp at h
  split_ifs at h
  · have hle := ipv4ToDhcp_le h
    omega
  · have hle := dot1qToDhcp_le h
    omega
  · have hle := pppoeToDhcp_le h
    omega

/-- The whole DHCP header is in the packet. -/
theorem Packet.dhcpAt_le {p : Packet} (h : p.dhcpAt = some d) : d + 240 ≤ p.data.length := by
  have hle := ethernetToDhcp_le h
  omega

end Dhcp

end PacketMachine.Decode
