import PacketMachine.Decode.Payload

/-!
# The payload cursor in machine words

Model of `Payload` with the words that it has (`property.cc:46-79`): `ptr_` and `end_` are addresses,
`length_` is a `size_t`, and the sum `ptr_ + size` wraps at 64 bits.

* `end_` and `length_` are two limits. `shrink` lowers the second only.
* A `History` is the cursor after some calls, with the ranges that the successful calls of `retain`
  returned.

Results:
* **`payload_cursor_safe`**: after any calls with any 64-bit arguments the window lies in the packet, and
  the next range follows the one before.
* `Inside.retain_payload`, `shrink_payload`: on these states the `Payload` of this development does what
  the words do.
-/

namespace PacketMachine.Decode

/-! ## The code -/

/-- `Payload` in machine words; `stop` is `end_`. -/
structure RawPayload where
  ptr : UInt64
  stop : UInt64
  length : UInt64
  deriving DecidableEq, Repr

/-- `Payload::reset`. -/
def RawPayload.reset (p : Packet) : RawPayload :=
  let length := UInt64.ofNat p.data.length
  let ptr := UInt64.ofNat p.addr
  { ptr, length, stop := ptr + length }

/-- `Payload::retain`; `none` is `nullptr`. -/
def RawPayload.retain (c : RawPayload) (size : UInt64) : Option UInt64 × RawPayload :=
  let n := c.ptr + size
  let p := c.ptr
  if size ≤ c.length ∧ n ≤ c.stop then
    (some p, { c with length := c.length - size, ptr := n })
  else (none, c)

/-- `Payload::shrink`. -/
def RawPayload.shrink (c : RawPayload) (length : UInt64) : Bool × RawPayload :=
  if length > c.length then (false, c) else (true, { c with length := length })

/-! ## Calls -/

/-- The bytes that a call of `retain` gives out. -/
structure Range where
  start : UInt64
  size : UInt64
  deriving DecidableEq, Repr

/-- The address behind a range. -/
def Range.stop (r : Range) : Nat := r.start.toNat + r.size.toNat

/-- The addresses of a range. -/
def Range.addrs (r : Range) : Finset Nat := Finset.Ico r.start.toNat r.stop

/-- A call on a cursor. -/
inductive PayloadCall where
  | retain (size : UInt64)
  | shrink (length : UInt64)
  deriving DecidableEq, Repr

/-- A cursor, and the ranges that were given out so far, oldest first. -/
structure History where
  cursor : RawPayload
  ranges : List Range := []

/-- A call, recorded. -/
def History.call (h : History) : PayloadCall → History
  | .retain size =>
    let r := h.cursor.retain size
    { cursor := r.2, ranges := h.ranges ++ (r.1.map fun ptr => ⟨ptr, size⟩).toList }
  | .shrink length => { h with cursor := (h.cursor.shrink length).2 }

/-- The state after `reset` and some calls. -/
def history (p : Packet) (calls : List PayloadCall) : History :=
  calls.foldl History.call { cursor := .reset p }

/-- The last range that is not empty. -/
def History.last (h : History) : Option Range := (h.ranges.filter (·.size ≠ 0)).getLast?

/-- The sum of the retained sizes. -/
def History.sizes (h : History) : Nat := (h.ranges.map (·.size.toNat)).sum

/-! ## The invariant -/

/-- The window lies in the packet, behind what was given out. -/
structure History.Inside (p : Packet) (h : History) : Prop where
  ptr : h.cursor.ptr.toNat = p.addr + h.sizes
  stop : h.cursor.stop.toNat = p.addr + p.data.length
  window : h.sizes + h.cursor.length.toNat ≤ p.data.length
  last : ∀ r, h.last = some r → r.stop = h.cursor.ptr.toNat

/-- The history when `retain` succeeds. -/
def History.give (h : History) (size : UInt64) : History where
  cursor := { h.cursor with length := h.cursor.length - size, ptr := h.cursor.ptr + size }
  ranges := h.ranges ++ [⟨h.cursor.ptr, size⟩]

section Step

variable {p : Packet} {h : History} {size length : UInt64}

theorem sizes_give (h : History) (size : UInt64) : (h.give size).sizes = h.sizes + size.toNat := by
  simp [History.give, History.sizes]

theorem last_give (h : History) (size : UInt64) :
    (h.give size).last = if size = 0 then h.last else some ⟨h.cursor.ptr, size⟩ := by
  by_cases hz : size = 0 <;> simp [History.give, History.last, hz]

theorem inside_reset (p : Packet) : History.Inside p { cursor := .reset p } := by
  have hfits := p.fits
  have haddr : (UInt64.ofNat p.addr).toNat = p.addr :=
    UInt64.toNat_ofNat_of_lt' (show p.addr < 2 ^ 64 by omega)
  have hlen : (UInt64.ofNat p.data.length).toNat = p.data.length :=
    UInt64.toNat_ofNat_of_lt' (show p.data.length < 2 ^ 64 by omega)
  refine ⟨by simp [RawPayload.reset, History.sizes, haddr], ?_, ?_, by simp [History.last]⟩
  · simp only [RawPayload.reset, UInt64.toNat_add, haddr, hlen]
    omega
  · simp [RawPayload.reset, History.sizes, hlen]

/-- **`retain` succeeds iff the size is at most the length**, whether or not the sum wraps. -/
theorem History.Inside.retain_eq (hi : h.Inside p) (size : UInt64) :
    h.cursor.retain size = if size ≤ h.cursor.length then (some h.cursor.ptr, (h.give size).cursor)
      else (none, h.cursor) := by
  have hfits := p.fits
  obtain ⟨hptr, hstop, hwin, -⟩ := hi
  by_cases hs : size ≤ h.cursor.length
  · have hn : h.cursor.ptr + size ≤ h.cursor.stop := by
      have hs' := UInt64.le_iff_toNat_le.mp hs
      rw [UInt64.le_iff_toNat_le, UInt64.toNat_add]
      omega
    rw [RawPayload.retain, if_pos ⟨hs, hn⟩, if_pos hs]
    rfl
  · rw [RawPayload.retain, if_neg fun hc => hs hc.1, if_neg hs]

theorem History.Inside.call_retain (hi : h.Inside p) (size : UInt64) :
    h.call (.retain size) = if size ≤ h.cursor.length then h.give size else h := by
  simp only [History.call, hi.retain_eq]
  split
  · rfl
  · simp

/-- The cursor behind a range that was given out. -/
theorem History.Inside.toNat_give (hi : h.Inside p) (hs : size ≤ h.cursor.length) :
    (h.give size).cursor.ptr.toNat = h.cursor.ptr.toNat + size.toNat ∧
      (h.give size).cursor.length.toNat + size.toNat = h.cursor.length.toNat := by
  have hfits := p.fits
  have hs' := UInt64.le_iff_toNat_le.mp hs
  have hptr := hi.ptr
  have hwin := hi.window
  constructor
  · simp only [History.give, UInt64.toNat_add]
    omega
  · simp only [History.give, UInt64.toNat_sub_of_le _ _ hs]
    omega

theorem History.Inside.give (hi : h.Inside p) (hs : size ≤ h.cursor.length) :
    (h.give size).Inside p := by
  obtain ⟨hn, hl⟩ := hi.toNat_give hs
  obtain ⟨hptr, hstop, hwin, hlast⟩ := hi
  refine ⟨?_, hstop, ?_, fun r hr => ?_⟩
  · rw [hn, sizes_give]
    omega
  · rw [sizes_give]
    omega
  · rw [last_give] at hr
    rw [hn]
    by_cases hz : size = 0
    · rw [if_pos hz] at hr
      rw [hlast r hr, hz]
      rfl
    · rw [if_neg hz] at hr
      obtain rfl := Option.some.inj hr
      rfl

/-- `shrink` lowers the length only. -/
theorem shrink_le (c : RawPayload) (length : UInt64) :
    (c.shrink length).2.ptr = c.ptr ∧ (c.shrink length).2.stop = c.stop ∧
      (c.shrink length).2.length ≤ c.length := by
  unfold RawPayload.shrink
  split
  · exact ⟨rfl, rfl, UInt64.le_refl _⟩
  · rename_i hle
    exact ⟨rfl, rfl, UInt64.not_lt.mp hle⟩

/-- **What every call keeps.** -/
theorem History.Inside.call (hi : h.Inside p) (call : PayloadCall) : (h.call call).Inside p := by
  cases call with
  | retain size =>
    rw [hi.call_retain]
    split
    · rename_i hs
      exact hi.give hs
    · exact hi
  | shrink length =>
    obtain ⟨hp, hs, hl⟩ := shrink_le h.cursor length
    obtain ⟨hptr, hstop, hwin, hlast⟩ := hi
    have hl := UInt64.le_iff_toNat_le.mp hl
    refine ⟨(congrArg _ hp).trans hptr, (congrArg _ hs).trans hstop, ?_, fun r hr => ?_⟩
    · change h.sizes + (h.cursor.shrink length).2.length.toNat ≤ _
      omega
    · exact (hlast r hr).trans (congrArg _ hp).symm

/-- The invariant of every run. -/
theorem inside_history (p : Packet) (calls : List PayloadCall) : (history p calls).Inside p := by
  have hrun : ∀ (calls : List PayloadCall) (h : History), h.Inside p →
      (calls.foldl History.call h).Inside p := by
    intro calls
    induction calls with
    | nil => exact fun _ hi => hi
    | cons call calls ih => exact fun h hi => ih _ (hi.call call)
  exact hrun calls _ (inside_reset p)

end Step

/-! ## Every run -/

/-- The bytes of a packet, as addresses. -/
def Packet.addrs (p : Packet) : Finset Nat := Finset.Ico p.addr (p.addr + p.data.length)

/-- The addresses of the window `[ptr, ptr + length)`. -/
def RawPayload.window (c : RawPayload) : Finset Nat :=
  Finset.Ico c.ptr.toNat (c.ptr.toNat + c.length.toNat)

/-- **What a decoder may rely on** in a state, and of the next call. -/
structure History.Safe (p : Packet) (h : History) : Prop where
  /-- The window lies in the packet, also when it is empty. -/
  bounds : p.addr ≤ h.cursor.ptr.toNat ∧
    h.cursor.ptr.toNat + h.cursor.length.toNat ≤ p.addr + p.data.length
  window : h.cursor.window ⊆ p.addrs
  /-- A successful `retain` gives out the start of the window, and the bytes are there. -/
  retained : ∀ size ptr c, h.cursor.retain size = (some ptr, c) →
    ptr = h.cursor.ptr ∧ size.toNat ≤ h.cursor.length.toNat ∧
      Range.addrs ⟨ptr, size⟩ ⊆ h.cursor.window
  /-- They follow those of the last range that is not empty. -/
  next : ∀ size ptr c, h.cursor.retain size = (some ptr, c) → ∀ r, h.last = some r →
    r.stop = ptr.toNat ∧ Disjoint r.addrs (Range.addrs ⟨ptr, size⟩)
  refused : ∀ size c, h.cursor.retain size = (none, c) → c = h.cursor
  notShrunk : ∀ length c, h.cursor.shrink length = (false, c) → c = h.cursor
  total : h.sizes + h.cursor.length.toNat ≤ p.data.length

theorem History.Inside.safe {p : Packet} {h : History} (hi : h.Inside p) : h.Safe p := by
  have hptr := hi.ptr
  have hwin := hi.window
  have hret : ∀ {size ptr c}, h.cursor.retain size = (some ptr, c) →
      ptr = h.cursor.ptr ∧ size.toNat ≤ h.cursor.length.toNat := by
    intro size ptr c hr
    rw [hi.retain_eq] at hr
    split at hr
    · rename_i hs
      exact ⟨(Option.some.inj (Prod.mk.inj hr).1).symm, UInt64.le_iff_toNat_le.mp hs⟩
    · cases hr
  constructor
  case bounds => omega
  case window => exact Finset.Ico_subset_Ico (by omega) (by omega)
  case retained =>
    intro size ptr c hr
    obtain ⟨rfl, hs⟩ := hret hr
    exact ⟨rfl, hs, Finset.Ico_subset_Ico (Nat.le_refl _) (Nat.add_le_add_left hs _)⟩
  case next =>
    intro size ptr c hr r hl
    obtain ⟨rfl, -⟩ := hret hr
    have hstop := hi.last r hl
    refine ⟨hstop, ?_⟩
    unfold Range.addrs
    rw [hstop]
    exact Finset.Ico_disjoint_Ico_consecutive _ _ _
  case refused =>
    intro size c hr
    rw [hi.retain_eq] at hr
    split at hr
    · cases hr
    · exact (Prod.mk.inj hr).2.symm
  case notShrunk =>
    intro length c hr
    unfold RawPayload.shrink at hr
    split at hr
    · exact (Prod.mk.inj hr).2.symm
    · cases hr
  case total => exact hwin

/-- **After any calls of `retain` and `shrink`, with any 64-bit arguments, the cursor is safe.** -/
theorem payload_cursor_safe (p : Packet) (calls : List PayloadCall) : (history p calls).Safe p :=
  (inside_history p calls).safe

/-! ## The `Payload` of the decoders -/

/-- The cursor with distances from `buf_`. -/
def RawPayload.payload (p : Packet) (c : RawPayload) : Payload where
  buf := p.addr
  ptr := c.ptr.toNat - p.addr
  stop := c.stop.toNat - p.addr
  length := c.length.toNat

section Refinement

variable {p : Packet} {h : History}

theorem payload_reset (p : Packet) : (RawPayload.reset p).payload p = Payload.reset p := by
  have hi := inside_reset p
  have hptr : (RawPayload.reset p).ptr.toNat = p.addr := hi.ptr
  have hstop : (RawPayload.reset p).stop.toNat = p.addr + p.data.length := hi.stop
  have hfits := p.fits
  have hlen : (RawPayload.reset p).length.toNat = p.data.length :=
    UInt64.toNat_ofNat_of_lt' (show p.data.length < 2 ^ 64 by omega)
  simp [RawPayload.payload, Payload.reset, hptr, hstop, hlen]

theorem History.Inside.wf (hi : h.Inside p) :
    (h.cursor.payload p).WF ∧ (h.cursor.payload p).stop = p.data.length := by
  have hfits := p.fits
  obtain ⟨hptr, hstop, hwin, -⟩ := hi
  refine ⟨⟨?_, ?_⟩, ?_⟩
  all_goals
    simp only [RawPayload.payload]
    omega

/-- **`retain` of the words is `Payload.retain`.** -/
theorem History.Inside.retain_payload (hi : h.Inside p) (size : UInt64) :
    (h.cursor.payload p).retain size.toNat = (h.cursor.retain size).1.map fun ptr =>
      (ptr.toNat - p.addr, (h.cursor.retain size).2.payload p) := by
  have hptr := hi.ptr
  have hle : size.toNat ≤ (h.cursor.payload p).length ↔ size ≤ h.cursor.length :=
    UInt64.le_iff_toNat_le.symm
  rw [hi.retain_eq, Payload.retain_eq hi.wf.1]
  by_cases hs : size ≤ h.cursor.length
  · obtain ⟨hn, hl⟩ := hi.toNat_give hs
    have hcursor : (h.cursor.payload p).skip size.toNat = (h.give size).cursor.payload p := by
      simp only [RawPayload.payload, Payload.skip, hn, Payload.mk.injEq, true_and]
      refine ⟨?_, rfl, ?_⟩ <;> omega
    rw [if_pos hs, if_pos (hle.mpr hs), hcursor]
    rfl
  · rw [if_neg hs, if_neg fun hc => hs (hle.mp hc)]
    rfl

/-- **`shrink` of the words is `Payload.shrink`.** -/
theorem shrink_payload (p : Packet) (c : RawPayload) (length : UInt64) :
    (c.payload p).shrink length.toNat = (c.shrink length).2.payload p := by
  have hlt : length.toNat > (c.payload p).length ↔ length > c.length := UInt64.lt_iff_toNat_lt.symm
  unfold RawPayload.shrink Payload.shrink
  by_cases hl : length > c.length
  · rw [if_pos hl, if_pos (hlt.mpr hl)]
  · rw [if_neg hl, if_neg fun hc => hl (hlt.mp hc)]
    rfl

end Refinement

end PacketMachine.Decode
