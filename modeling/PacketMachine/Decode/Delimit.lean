import PacketMachine.Decode.Header

/-!
# Where `IPv4::decode` cuts the packet

Three lengths delimit an IPv4 packet: the captured bytes `B`, the header length `4 * IHL` and the total
length (`modules/ipv4.cc:119-165`). The module stops when the header of 20 bytes is not captured, or
when the total length is less than the header length. The other two disagreements are not looked at:
for a header length below 20 the payload starts 20 bytes on all the same, and for one above the
captured bytes `retain` fails and so does not skip the options, while `IPv4.opt` is set to a null
pointer.

Results: **`delimited_iff`**: options and payload are delimited exactly when the module stops or the
header length lies between 20 and the captured bytes.
-/

namespace PacketMachine.Decode

open PacketMachine.Lib

/-! ## Parts of a block -/

section Block

variable (m : Mem) (i n k : Nat)

theorem Mem.take_block : (m.block i n).take k = m.block i (min k n) := by
  rw [Mem.block, Mem.block, ← List.map_take, List.take_range]

theorem Mem.drop_block : (m.block i n).drop k = m.block (i + k) (n - k) := by
  refine List.ext_getElem (by simp [Mem.block]) fun j _ _ => ?_
  simp [Mem.block, Nat.add_assoc]

end Block

/-! ## The lengths -/

/-- The captured bytes from the start of the header on. -/
def ipv4Captured (m : Mem) (pd : Payload) : List UInt8 := m.block pd.ptr pd.length

/-- `4 * IHL`. -/
def ihlBytes (m : Mem) (pd : Payload) : Nat := 4 * ((m.byte pd.ptr).toNat % 16)

/-- `total_len`. -/
def ipv4Total (m : Mem) (pd : Payload) : Nat := m.word (pd.ptr + 2)

/-- The module stops, and retains no `IPv4.data`. -/
def Step.Stops (s : Step) : Prop := s.next = none ∧ .ipv4Data ∉ retained s.ops

/-- **IPv4 delimits options and payload exactly**, or stops. -/
def Ipv4Delimited (m : Mem) (pd : Payload) (q : Property) : Prop :=
  ∃ s, ipv4Decode m pd = .ok s ∧ (s.Stops ∨
    20 ≤ ihlBytes m pd ∧ ihlBytes m pd ≤ (ipv4Captured m pd).length ∧
      ihlBytes m pd ≤ ipv4Total m pd ∧
      (q.exec s.ops).content m (.param .ipv4Opt)
        = .ok (if 20 < ihlBytes m pd then
            some (((ipv4Captured m pd).take (ihlBytes m pd)).drop 20) else none) ∧
      (q.exec s.ops).content m (.param .ipv4Data)
        = .ok (some (((ipv4Captured m pd).take (ipv4Total m pd)).drop (ihlBytes m pd))) ∧
      m.bytes s.pd.ptr s.pd.length
        = .ok (((ipv4Captured m pd).take (ipv4Total m pd)).drop (ihlBytes m pd)))

section Delimit

variable {m : Mem} {pd : Payload} {q : Property}

theorem ipv4HdrLen_eq (b : UInt8) : ipv4HdrLen b = 4 * (b.toNat % 16) := by
  have hall : ∀ n : Fin 256, ipv4HdrLen (UInt8.ofNat n) = 4 * (n.val % 16) := by
    decide +kernel
  have hb := hall ⟨b.toNat, b.toNat_lt⟩
  rwa [UInt8.ofNat_toNat] at hb

/-- Where the module stops. -/
theorem ipv4Decode_stops (h : pd.WF) (hm : m.Has 0 pd.stop)
    (hstop : pd.length < 20 ∨ ipv4Total m pd < ihlBytes m pd) :
    ∃ s, ipv4Decode m pd = .ok s ∧ s.Stops := by
  have hw := h.window
  by_cases hs : 20 ≤ pd.length
  · have htotal : m.word (pd.ptr + 2) < ipv4HdrLen (m.byte pd.ptr) := by
      rw [ipv4HdrLen_eq]
      exact hstop.resolve_left (by omega)
    refine ⟨{ pd := pd.skip 20 }, ?_, rfl, by simp [retained]⟩
    rw [ipv4Decode, withHeader_eq h hs, Mem.u8_eq hm (by omega) (by omega),
      Mem.u16_eq hm (by omega) (by omega)]
    simp only [bind, Except.bind, if_pos htotal]
    rfl
  · refine ⟨{ pd }, ?_, rfl, by simp [retained]⟩
    rw [ipv4Decode, withHeader, Payload.retain_eq h, if_neg hs]

/-- The calls for the options. -/
theorem setCalls_options (d : Param) (pd : Payload) (hdrLen : Nat) (hd : d ≠ .ipv4Opt) :
    setCalls d (ipv4Options pd hdrLen).ops = [] := by
  refine setCalls_eq_nil ?_
  unfold ipv4Options
  split
  · split <;> simpa [retained, Op.retains] using hd
  · simp [retained]

/-- The options, when they are captured. -/
theorem options_content (h : pd.WF) (hm : m.Has 0 pd.stop) (hcap : ihlBytes m pd ≤ pd.length)
    (hw : q.WF) (hc : q.count .ipv4Opt = 0) {head tail : List Op}
    (hhead : setCalls .ipv4Opt head = []) (htail : setCalls .ipv4Opt tail = []) :
    (q.exec (head ++ (ipv4Options (pd.skip 20) (ihlBytes m pd)).ops ++ tail)).content m (.param .ipv4Opt)
      = .ok (if 20 < ihlBytes m pd then
          some (((ipv4Captured m pd).take (ihlBytes m pd)).drop 20) else none) := by
  have hwin := h.window
  have hopts : ∀ ops, setCalls .ipv4Opt (head ++ ops ++ tail) = setCalls .ipv4Opt ops := by
    intro ops
    rw [setCalls_append, setCalls_append, hhead, htail, List.nil_append, List.append_nil]
  by_cases hgt : 20 < ihlBytes m pd
  · have hcalls : setCalls .ipv4Opt
        (head ++ (ipv4Options (pd.skip 20) (ihlBytes m pd)).ops ++ tail)
        = [fun c => c.set (.pkt (pd.ptr + 20)) (ihlBytes m pd - 20)] := by
      rw [hopts, ipv4Options, if_pos hgt, Payload.retain_eq (h.skip (by omega)),
        if_pos (by simp only [Payload.skip]; omega)]
      rfl
    rw [(shows_call rfl hw hc hcalls fun c => Cell.same_set _ _ _ (by simp)).content_eq, if_pos hgt]
    show (do return some (← m.bytes (pd.ptr + 20) (ihlBytes m pd - 20))) = _
    rw [Mem.bytes_eq (hm.sub (by omega) (by omega)), ipv4Captured, Mem.take_block, Mem.drop_block,
      Nat.min_eq_left hcap]
    rfl
  · have hcalls : setCalls .ipv4Opt
        (head ++ (ipv4Options (pd.skip 20) (ihlBytes m pd)).ops ++ tail) = [] := by
      rw [hopts, ipv4Options, if_neg hgt]
      rfl
    rw [(shows_absent rfl hw hc hcalls).content_eq, if_neg hgt]
    rfl

/-- `IPv4.data`, which is set last. -/
theorem payload_content (hw : q.WF) (hc : q.count .ipv4Data = 0) {head : List Op}
    (hhead : setCalls .ipv4Data head = []) {off len : Nat} {bs : List UInt8}
    (hbs : m.bytes off len = .ok bs) :
    (q.exec (head ++ [.set .ipv4Data (.pkt off) len])).content m (.param .ipv4Data) = .ok (some bs) := by
  have hcalls : setCalls .ipv4Data (head ++ [.set .ipv4Data (.pkt off) len])
      = [fun c => c.set (.pkt off) len] := by
    rw [setCalls_append, hhead]
    rfl
  rw [(shows_call rfl hw hc hcalls fun c => Cell.same_set _ _ _ (by simp)).content_eq]
  show (do return some (← m.bytes off len)) = _
  rw [hbs]
  rfl

/-- The window behind the header. -/
theorem ipv4Inner_bytes (h : pd.WF) (hm : m.Has 0 pd.stop) (h20 : 20 ≤ pd.length)
    (hge : 20 ≤ ihlBytes m pd) (hcap : ihlBytes m pd ≤ pd.length) :
    m.bytes (ipv4Inner m pd).ptr (ipv4Inner m pd).length
      = .ok (((ipv4Captured m pd).take (ipv4Total m pd)).drop (ihlBytes m pd)) := by
  have hwin := h.window
  obtain ⟨hptr, hlen⟩ := ipv4_window h h20 (ihlBytes m pd) (ipv4Total m pd - ihlBytes m pd)
  have hinner : ipv4Inner m pd
      = (ipv4Options (pd.skip 20) (ihlBytes m pd)).pd.shrink (ipv4Total m pd - ihlBytes m pd) := by
    rw [ipv4Inner, ipv4HdrLen_eq]
    rfl
  have hskip : (if 20 < ihlBytes m pd ∧ ihlBytes m pd ≤ pd.length then ihlBytes m pd else 20)
      = ihlBytes m pd := by
    split <;> omega
  rw [hinner, hptr, hlen, hskip, Mem.bytes_eq (hm.sub (Nat.zero_le _) (by omega)), ipv4Captured,
    Mem.take_block, Mem.drop_block]
  congr 2
  omega

/-- **Options and payload are delimited exactly when the module stops or the header length lies between
20 and the captured bytes**, for any bytes at any cursor, and any property on which the two values were
not yet retained. -/
theorem delimited_iff (h : pd.WF) (hm : m.Has 0 pd.stop) (hw : q.WF) (hopt : q.count .ipv4Opt = 0)
    (hdata : q.count .ipv4Data = 0) :
    Ipv4Delimited m pd q ↔ pd.length < 20 ∨ ipv4Total m pd < ihlBytes m pd ∨
      20 ≤ ihlBytes m pd ∧ ihlBytes m pd ≤ pd.length := by
  have hwin := h.window
  have hlen : (ipv4Captured m pd).length = pd.length := Mem.length_block ..
  by_cases hstop : pd.length < 20 ∨ ipv4Total m pd < ihlBytes m pd
  · obtain ⟨s, hs, hst⟩ := ipv4Decode_stops h hm hstop
    refine iff_of_true ⟨s, hs, .inl hst⟩ ?_
    exact hstop.imp_right .inl
  · obtain ⟨h20, htotal⟩ := not_or.mp hstop
    have heq := ipv4Decode_eq h hm (Nat.not_lt.mp h20) (by
      rw [ipv4HdrLen_eq]
      exact Nat.not_lt.mp htotal)
    rw [show ipv4HdrLen (m.byte pd.ptr) = ihlBytes m pd from ipv4HdrLen_eq _] at heq
    constructor
    · rintro ⟨s, hs, ⟨-, hnot⟩ | ⟨hge, hle, -⟩⟩
      · -- the module has gone on
        obtain rfl := Except.ok.inj (heq.symm.trans hs)
        refine absurd ?_ hnot
        simp [retained, Op.retains]
      · exact .inr (.inr ⟨hge, hlen ▸ hle⟩)
    · intro hcond
      obtain ⟨hge, hcap⟩ : 20 ≤ ihlBytes m pd ∧ ihlBytes m pd ≤ pd.length := by
        rcases hcond with h' | h' | h'
        · exact absurd h' h20
        · exact absurd h' htotal
        · exact h'
      refine ⟨_, heq, .inr ⟨hge, hlen ▸ hcap, Nat.not_lt.mp htotal, ?_, ?_, ?_⟩⟩
      · exact options_content h hm hcap hw hopt rfl rfl
      · refine payload_content hw hdata ?_ (ipv4Inner_bytes h hm (Nat.not_lt.mp h20) hge hcap)
        rw [setCalls_append, setCalls_options .ipv4Data _ _ (by simp)]
        rfl
      · exact ipv4Inner_bytes h hm (Nat.not_lt.mp h20) hge hcap

end Delimit

/-- A packet of 24 bytes that starts with an IPv4 header; `first` is the version and the IHL. -/
def ipv4Packet (first : UInt8) : Packet where
  addr := 4096
  data := [first, 0, 0, 24, 0, 0, 0, 0, 64, 17, 0, 0, 10, 0, 0, 1, 10, 0, 0, 2, 1, 2, 3, 4]
  tv := ⟨0, 0⟩
  fits := by
    simp only [List.length_cons, List.length_nil]
    omega

/-- One word of options and no payload. -/
theorem delimited_options :
    Ipv4Delimited (ipv4Packet 0x46).mem (.reset (ipv4Packet 0x46)) {} ↔
      (Payload.reset (ipv4Packet 0x46)).length < 20 ∨
        ipv4Total (ipv4Packet 0x46).mem (.reset (ipv4Packet 0x46))
          < ihlBytes (ipv4Packet 0x46).mem (.reset (ipv4Packet 0x46)) ∨
        20 ≤ ihlBytes (ipv4Packet 0x46).mem (.reset (ipv4Packet 0x46)) ∧
          ihlBytes (ipv4Packet 0x46).mem (.reset (ipv4Packet 0x46))
            ≤ (Payload.reset (ipv4Packet 0x46)).length :=
  delimited_iff (Payload.wf_reset _) (ipv4Packet 0x46).has_all Property.wf_empty rfl rfl

/-- **An IHL of 4 is not stopped**: the data starts 20 bytes on, not 16. -/
theorem short_header_passes :
    ¬ Ipv4Delimited (ipv4Packet 0x44).mem (.reset (ipv4Packet 0x44)) {} := by
  have hihl : ihlBytes (ipv4Packet 0x44).mem (.reset (ipv4Packet 0x44)) = 16 := by decide +kernel
  have hnext : (ipv4Decode (ipv4Packet 0x44).mem (.reset (ipv4Packet 0x44))).map Step.next
      = .ok (some .udp) := by decide +kernel
  rintro ⟨s, hs, ⟨hnone, -⟩ | ⟨hge, -⟩⟩
  · rw [hs, Except.map, hnone] at hnext
    cases hnext
  · rw [hihl] at hge
    omega

end PacketMachine.Decode
