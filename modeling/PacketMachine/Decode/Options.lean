import PacketMachine.Decode.Arrays

/-!
# DHCP options

A DHCP message is a header of 240 bytes, then options: a code, a length and the data, or a single byte 0
that pads. The byte 0xFF ends them. The loop of `DHCP::decode` (`modules/dhcp.cc:177-203`) takes two bytes
for every option but the end, so that the byte behind a pad is taken for its length.

* `OptSpan` is an option as the loop sees it: where its two bytes and its data are.
* `Property.HoldsOptions` says what a user reads of `DHCP.options`.

Results:
* `exec_options`: the array holds one map for each option, in order, with its three values.
* **`options_round_trip_iff`**: what a user reads are the options that were encoded exactly when there is
  no pad, or one alone that ends them with less than 255 bytes behind the end.
-/

namespace PacketMachine.Decode

open PacketMachine.Lib

/-! ## The calls for the options -/

/-- An option as the loop sees it. -/
structure OptSpan where
  ptr : Nat
  dataPtr : Nat
  len : Nat

def OptSpan.op (x : OptSpan) : Op := .option x.ptr x.dataPtr x.len

/-- The map of an option. -/
def Property.HasOption (q : Property) (x : OptSpan) (h : Handle) : Prop :=
  h.param = .dhcpOption ∧ q.Live h ∧ ∃ c i j k,
    q.obj? h = some ⟨c, .option (.obj ⟨.dhcpOptType, i⟩) (.obj ⟨.dhcpOptLength, j⟩)
      (.obj ⟨.dhcpOptData, k⟩)⟩ ∧
    (q.Live ⟨.dhcpOptType, i⟩ ∧ q.SetTo ⟨.dhcpOptType, i⟩ x.ptr 1) ∧
    (q.Live ⟨.dhcpOptLength, j⟩ ∧ q.SetTo ⟨.dhcpOptLength, j⟩ (x.ptr + 1) 1) ∧
    (q.Live ⟨.dhcpOptData, k⟩ ∧ q.SetTo ⟨.dhcpOptData, k⟩ x.dataPtr x.len)

section Options

variable {q : Property} {h : Handle}

/-- A further option touches the array alone. -/
theorem OptSpan.untouched (hl : q.Live h) (hp : h.param ≠ .dhcpOptions) (x : OptSpan) :
    x.op.touch q h = none := by
  have hlast : h ≠ q.last .dhcpOptions := by
    rintro rfl
    exact hp rfl
  simp only [OptSpan.op, Op.touch, hlast, hl.ne_next, if_false]

theorem Property.HasOption.apply (hs : q.Sized) {x : OptSpan} (hx : q.HasOption x h) (y : OptSpan) :
    (y.op.apply q).HasOption x h := by
  have hkeep : ∀ {i : Handle}, q.Live i → i.param ≠ .dhcpOptions →
      (y.op.apply q).obj? i = q.obj? i := fun hl hp =>
    Op.obj?_of_untouched hs (OptSpan.untouched hl hp y)
  obtain ⟨hp, hl, c, i, j, k, ho, ⟨hli, hi⟩, ⟨hlj, hj⟩, hlk, hk⟩ := hx
  refine ⟨hp, hl.apply hs _, c, i, j, k, ?_, ⟨hli.apply hs _, ?_⟩, ⟨hlj.apply hs _, ?_⟩,
    hlk.apply hs _, ?_⟩
  · rw [hkeep hl (by simp [hp]), ho]
  · rwa [Property.SetTo, hkeep hli (by simp)]
  · rwa [Property.SetTo, hkeep hlj (by simp)]
  · rwa [Property.SetTo, hkeep hlk (by simp)]

theorem Property.HasOption.exec (hw : q.WF) {x : OptSpan} (hx : q.HasOption x h) (ys : List OptSpan) :
    (q.exec (ys.map OptSpan.op)).HasOption x h := by
  induction ys generalizing q with
  | nil => exact hx
  | cons y ys ih => exact ih (hw.apply y.op) (hx.apply hw.sized y)

/-- The map of a new option. -/
theorem hasOption_next (hs : q.Sized) (x : OptSpan) :
    (x.op.apply q).HasOption x (q.next .dhcpOption) := by
  have hlive : ∀ d ∈ [Param.dhcpOption, .dhcpOptType, .dhcpOptLength, .dhcpOptData],
      (x.op.apply q).Live (q.next d) := fun d hd => Property.Live.next hs hd
  refine ⟨rfl, hlive _ (by simp), (q.fresh .dhcpOption).cell, q.count .dhcpOptType,
    q.count .dhcpOptLength, q.count .dhcpOptData, Touch.obj?_apply hs .optionMap,
    ⟨hlive .dhcpOptType (by simp), ?_⟩, ⟨hlive .dhcpOptLength (by simp), ?_⟩,
    hlive .dhcpOptData (by simp), ?_⟩
  · exact ⟨_, _, Touch.obj?_apply hs .optionType⟩
  · exact ⟨_, _, Touch.obj?_apply hs .optionLength⟩
  · exact ⟨_, _, Touch.obj?_apply hs .optionData⟩

/-- **The array holds one map for each option**, in order, behind what it held before. -/
theorem exec_options (hw : q.WF) {c : Cell} {items : List Handle}
    (harr : q.obj? (q.last .dhcpOptions) = some ⟨c, .array items⟩) (xs : List OptSpan) :
    ∃ new, (q.exec (xs.map OptSpan.op)).obj? (q.last .dhcpOptions)
        = some ⟨c, .array (items ++ new)⟩ ∧
      List.Forall₂ (q.exec (xs.map OptSpan.op)).HasOption xs new := by
  induction xs generalizing q items with
  | nil => exact ⟨[], by simpa [Property.exec] using harr, .nil⟩
  | cons x xs ih =>
    have hlast : (x.op.apply q).last .dhcpOptions = q.last .dhcpOptions := by
      have hcount : (x.op.apply q).count .dhcpOptions = q.count .dhcpOptions :=
        (Op.count_apply hw.sized x.op .dhcpOptions).trans (if_neg (by simp [OptSpan.op, Op.retains]))
      rw [Property.last, Property.last, hcount]
    have hpush : (x.op.apply q).obj? (q.last .dhcpOptions)
        = some ⟨c, .array (items ++ [q.next .dhcpOption])⟩ :=
      Touch.obj?_apply hw.sized (.optionArray harr)
    obtain ⟨new, hnew, hall⟩ := ih (hw.apply x.op) (by rw [hlast]; exact hpush)
    refine ⟨q.next .dhcpOption :: new, ?_, .cons ?_ hall⟩
    · rw [hlast] at hnew
      rw [List.map_cons, Property.exec_cons, hnew, List.append_assoc]
      rfl
    · exact (hasOption_next hw.sized x).exec (hw.apply x.op) xs

end Options

/-! ## Messages -/

/-- An option with a code of 1 to 254 and at most 255 bytes of data. -/
structure DhcpOption where
  code : UInt8
  data : List UInt8
  code_ne_pad : code ≠ 0
  code_ne_end : code ≠ 0xFF
  data_length : data.length < 256

/-- What stands between the header and the end. -/
inductive OptItem where
  | pad
  | opt (o : DhcpOption)

def DhcpOption.bytes (o : DhcpOption) : List UInt8 := o.code :: UInt8.ofNat o.data.length :: o.data

def OptItem.bytes : OptItem → List UInt8
  | pad => [0]
  | opt o => o.bytes

/-- The option of an item that is no pad. -/
def OptItem.option? : OptItem → Option DhcpOption
  | pad => none
  | opt o => some o

/-- A DHCP message: any header, items, the end and what lies behind it. -/
structure DhcpMessage where
  header : Vector UInt8 240
  items : List OptItem
  trailing : List UInt8

def DhcpMessage.bytes (x : DhcpMessage) : List UInt8 :=
  x.header.toList ++ x.items.flatMap OptItem.bytes ++ 0xFF :: x.trailing

/-- The options of a message. -/
def DhcpMessage.options (x : DhcpMessage) : List DhcpOption := x.items.filterMap OptItem.option?

/-- There is no pad but perhaps a last one, with less than 255 bytes behind the end. -/
def DhcpMessage.Aligned (x : DhcpMessage) : Prop :=
  x.items = x.options.map .opt ∨ x.items = x.options.map .opt ++ [.pad] ∧ x.trailing.length < 255

/-- What a user reads of one option. -/
structure Property.ShowsOption (q : Property) (ntop6 : List UInt8 → Text) (m : Mem) (i : Nat)
    (o : DhcpOption) : Prop where
  type : ∃ v, q.observe ntop6 m (.param .dhcpOptions) [.get i, .find "type"] = .ok (some v) ∧
    v.uint64 = .ok o.code.toNat
  length : ∃ v, q.observe ntop6 m (.param .dhcpOptions) [.get i, .find "length"] = .ok (some v) ∧
    v.uint64 = .ok o.data.length
  data : ∃ v, q.observe ntop6 m (.param .dhcpOptions) [.get i, .find "data"] = .ok (some v) ∧
    v.raw = .ok (some o.data)

/-- **`DHCP.options` holds exactly the options**, in order. -/
def Property.HoldsOptions (q : Property) (ntop6 : List UInt8 → Text) (m : Mem)
    (opts : List DhcpOption) : Prop :=
  (∃ v, q.observe ntop6 m (.param .dhcpOptions) [] = .ok (some v) ∧ v.size = opts.length) ∧
    ∀ i o, opts[i]? = some o → q.ShowsOption ntop6 m i o

/-! ## The loop -/

section Scan

variable {m : Mem} {pd : Payload}

/-- What the loop finds in the `n` bytes from a position on. -/
inductive Scan (m : Mem) : Nat → Nat → List OptSpan → Prop
  | stop {ptr n : Nat}
    (h : n < 2 ∨ m.byte ptr = 0xFF ∨ n < 2 + (m.byte (ptr + 1)).toNat) : Scan m ptr n []
  | option {ptr n len : Nat} {xs : List OptSpan} (hlen : len = (m.byte (ptr + 1)).toNat)
    (hn : 2 + len ≤ n) (hcode : m.byte ptr ≠ 0xFF) (hrest : Scan m (ptr + (2 + len)) (n - (2 + len)) xs) :
    Scan m ptr n (⟨ptr, ptr + 2, len⟩ :: xs)

theorem dhcpOptionsLoop_scan {i n : Nat} (hm : m.Has i n) :
    ∀ (fuel : Nat) {pd : Payload}, pd.WF → i ≤ pd.ptr → pd.ptr + pd.length ≤ i + n →
      pd.length < fuel →
      Returns (dhcpOptionsLoop m fuel pd) fun s =>
        ∃ xs, s.ops = xs.map OptSpan.op ∧ Scan m pd.ptr pd.length xs
  | 0, _, _, _, _, hf => absurd hf (Nat.not_lt_zero _)
  | fuel + 1, pd, h, hlo, hhi, hf => by
    unfold dhcpOptionsLoop
    rw [Payload.retain_eq h]
    by_cases h2 : 2 ≤ pd.length
    · rw [if_pos h2]
      refine .bind_ok (Mem.u8_eq hm hlo (by omega)) ?_
      split
      · rename_i hend
        exact returns_pure.mpr ⟨[], rfl, .stop (.inr (.inl hend))⟩
      · rename_i hcode
        refine .bind_ok (Mem.u8_eq hm (by omega) (by omega)) ?_
        have h' := h.skip h2
        have hskip : (pd.skip 2).length = pd.length - 2 := rfl
        dsimp only
        rw [Payload.retain_eq h']
        by_cases hl : (m.byte (pd.ptr + 1)).toNat ≤ (pd.skip 2).length
        · rw [if_pos hl]
          obtain ⟨s, hs, xs, hops, hscan⟩ := dhcpOptionsLoop_scan hm fuel (h'.skip hl)
            (by simp only [Payload.skip]; omega) (by simp only [Payload.skip] at hl ⊢; omega)
            (by simp only [Payload.skip]; omega)
          refine .bind_ok hs (returns_pure.mpr
            ⟨⟨pd.ptr, pd.ptr + 2, (m.byte (pd.ptr + 1)).toNat⟩ :: xs, ?_, ?_⟩)
          · rw [List.map_cons, ← hops]
            rfl
          · refine .option rfl (by omega) hcode ?_
            simpa only [Payload.skip, Nat.add_assoc, Nat.sub_sub] using hscan
        · rw [if_neg hl]
          exact returns_pure.mpr ⟨[], rfl, .stop (.inr (.inr (by omega)))⟩
    · rw [if_neg h2]
      exact returns_ok.mpr ⟨[], rfl, .stop (.inl (Nat.lt_of_not_le h2))⟩

/-- The options of a list, one behind the other. -/
def optSpans : Nat → List DhcpOption → List OptSpan
  | _, [] => []
  | ptr, o :: opts => ⟨ptr, ptr + 2, o.data.length⟩ :: optSpans (ptr + (2 + o.data.length)) opts

theorem DhcpOption.length_bytes (o : DhcpOption) : o.bytes.length = 2 + o.data.length := by
  simp only [DhcpOption.bytes, List.length_cons]
  omega

/-- **Options without a pad between them are found as they were encoded**, and what is behind them is
scanned from its first byte on. -/
theorem Scan.options {opts : List DhcpOption} {ptr n : Nat} {xs : List OptSpan}
    (h : Scan m ptr n xs) (hm : m.Holds ptr (opts.flatMap DhcpOption.bytes))
    (hn : (opts.flatMap DhcpOption.bytes).length ≤ n) :
    ∃ ys, xs = optSpans ptr opts ++ ys ∧
      Scan m (ptr + (opts.flatMap DhcpOption.bytes).length)
        (n - (opts.flatMap DhcpOption.bytes).length) ys := by
  induction opts generalizing ptr n xs with
  | nil => exact ⟨xs, rfl, h⟩
  | cons o opts ih =>
    rw [List.flatMap_cons] at hm hn ⊢
    rw [List.length_append, o.length_bytes] at hn ⊢
    obtain ⟨ho, hrest⟩ := Mem.holds_append.mp hm
    rw [o.length_bytes] at hrest
    have hcode : m.byte ptr = o.code := ho.head
    have hlen : (m.byte (ptr + 1)).toNat = o.data.length := by
      rw [ho.2.head, toNat_ofNat_length o.data_length]
    cases h with
    | stop hs =>
      -- an option does not stop the loop
      refine absurd hs ?_
      rw [hcode, hlen]
      rintro (hs | hs | hs)
      · omega
      · exact o.code_ne_end hs
      · omega
    | option hl hle hne hscan =>
      obtain rfl := hl.trans hlen
      obtain ⟨ys, rfl, hys⟩ := ih hscan hrest (by omega)
      refine ⟨ys, rfl, ?_⟩
      rwa [Nat.add_assoc, Nat.sub_sub] at hys

end Scan

/-! ## What a user reads of the array -/

/-- The bytes of an option are those that the loop has found. -/
def OptSpan.Shows (x : OptSpan) (m : Mem) (o : DhcpOption) : Prop :=
  m.u8 x.ptr = .ok o.code ∧ m.u8 (x.ptr + 1) = .ok (UInt8.ofNat o.data.length) ∧
    m.bytes x.dataPtr x.len = .ok o.data

section Reading

variable {q : Property} {m : Mem} {ntop6 : List UInt8 → Text} {items : List Handle}

/-- **What a user reads of an option** is what its span shows. -/
theorem showsOption_iff (ha : q.ArrayAt .dhcpOptions items) {i : Nat} {h : Handle}
    (hi : items[i]? = some h) {x : OptSpan} (hx : q.HasOption x h) (o : DhcpOption) :
    q.ShowsOption ntop6 m i o ↔ x.Shows m o := by
  obtain ⟨-, -, c, j, k, l, ho, ⟨-, cj, ej, hj⟩, ⟨-, ck, ek, hk⟩, -, cl, el, hl⟩ := hx
  have htype := ha.field ntop6 m hi ho "type" rfl hj
    fun v => v.uint64 = .ok o.code.toNat
  have hlength := ha.field ntop6 m hi ho "length" rfl hk
    fun v => v.uint64 = .ok o.data.length
  have hdata := ha.field ntop6 m hi ho "data" rfl hl
    fun v => v.raw = .ok (some o.data)
  have hcode := uint64_byte_iff m cj x.ptr o.code
  have hlen := uint64_byte_iff m ck (x.ptr + 1) (UInt8.ofNat o.data.length)
  rw [toNat_ofNat_length o.data_length] at hlen
  constructor
  · rintro ⟨h1, h2, h3⟩
    exact ⟨hcode.mp (htype.mp h1), hlen.mp (hlength.mp h2), (raw_span_iff ..).mp (hdata.mp h3)⟩
  · rintro ⟨h1, h2, h3⟩
    exact ⟨htype.mpr (hcode.mpr h1), hlength.mpr (hlen.mpr h2), hdata.mpr ((raw_span_iff ..).mpr h3)⟩

/-- **`DHCP.options` holds the options iff the spans show them**, one for each. -/
theorem holdsOptions_iff (ha : q.ArrayAt .dhcpOptions items) {xs : List OptSpan}
    (hall : List.Forall₂ q.HasOption xs items) (opts : List DhcpOption) :
    q.HoldsOptions ntop6 m opts ↔ List.Forall₂ (OptSpan.Shows · m) xs opts := by
  obtain ⟨hlen, hget⟩ := List.forall₂_iff_get.mp hall
  obtain ⟨v, hv, hsize⟩ := ha.size ntop6 m
  have hshow : ∀ i (hi : i < xs.length) (o : DhcpOption),
      q.ShowsOption ntop6 m i o ↔ (xs.get ⟨i, hi⟩).Shows m o := fun i hi o =>
    showsOption_iff ha (List.getElem?_eq_getElem (hlen ▸ hi)) (hget i hi (hlen ▸ hi)) o
  rw [List.forall₂_iff_get]
  constructor
  · rintro ⟨⟨v', hv', hsize'⟩, hopts⟩
    obtain rfl := Option.some.inj (Except.ok.inj (hv.symm.trans hv'))
    refine ⟨hlen.trans (hsize.symm.trans hsize'), fun i hi hi' => ?_⟩
    exact (hshow i hi _).mp (hopts i _ (List.getElem?_eq_getElem hi'))
  · rintro ⟨hlen', hopts⟩
    refine ⟨⟨v, hv, by omega⟩, fun i o ho => ?_⟩
    obtain ⟨hi, rfl⟩ := List.getElem?_eq_some_iff.mp ho
    exact (hshow i (hlen' ▸ hi) _).mpr (hopts i (hlen' ▸ hi) hi)

end Reading

/-! ## The round trip -/

section RoundTrip

variable {m : Mem}

/-- The spans of options show them. -/
theorem optSpans_show {opts : List DhcpOption} {ptr : Nat}
    (hm : m.Holds ptr (opts.flatMap DhcpOption.bytes)) :
    List.Forall₂ (OptSpan.Shows · m) (optSpans ptr opts) opts := by
  induction opts generalizing ptr with
  | nil => exact .nil
  | cons o opts ih =>
    rw [List.flatMap_cons] at hm
    obtain ⟨ho, hrest⟩ := Mem.holds_append.mp hm
    rw [o.length_bytes] at hrest
    refine .cons ⟨?_, ?_, ho.2.2.bytes⟩ (ih hrest)
    · rw [Mem.u8, ho.1]
    · rw [Mem.u8, ho.2.1]

theorem length_optSpans (opts : List DhcpOption) (ptr : Nat) :
    (optSpans ptr opts).length = opts.length := by
  induction opts generalizing ptr with
  | nil => rfl
  | cons o opts ih => rw [optSpans, List.length_cons, List.length_cons, ih]

/-- Items are options up to the first pad. -/
theorem items_split (items : List OptItem) :
    ∃ (opts : List DhcpOption) (rest : List OptItem), items = opts.map .opt ++ rest ∧
      (rest = [] ∨ ∃ later, rest = .pad :: later) := by
  induction items with
  | nil => exact ⟨[], [], rfl, .inl rfl⟩
  | cons item items ih =>
    cases item with
    | pad => exact ⟨[], .pad :: items, rfl, .inr ⟨items, rfl⟩⟩
    | opt o =>
      obtain ⟨opts, rest, rfl, hrest⟩ := ih
      exact ⟨o :: opts, rest, rfl, hrest⟩

/-- What the end stops. -/
theorem Scan.ends {ptr n : Nat} {xs : List OptSpan} (h : Scan m ptr n xs) (hend : m.byte ptr = 0xFF) :
    xs = [] := by
  cases h with
  | stop => rfl
  | option _ _ hcode => exact absurd hend hcode

/-- A pad is taken for an option of type 0, when there are as many bytes behind the next one as that
says, and else it stops the loop. -/
theorem Scan.pad {ptr n : Nat} {xs : List OptSpan} (h : Scan m ptr n xs) (hpad : m.byte ptr = 0)
    (h2 : 2 ≤ n) :
    (xs = [] ∧ n < 2 + (m.byte (ptr + 1)).toNat) ∨
      2 + (m.byte (ptr + 1)).toNat ≤ n ∧ ∃ y ys, xs = y :: ys ∧ y.ptr = ptr := by
  cases h with
  | stop hs =>
    refine .inl ⟨rfl, ?_⟩
    rcases hs with hs | hs | hs
    · omega
    · rw [hpad] at hs
      cases hs
    · exact hs
  | option hlen hn => exact .inr ⟨by omega, _, _, rfl, rfl⟩

/-- **What the loop finds from a pad on** is what was encoded only when the pad is the last item, with
less than 255 bytes behind the end. -/
theorem Scan.pad_iff {ptr n : Nat} {ys : List OptSpan} {later : List OptItem} {trailing : List UInt8}
    (h : Scan m ptr n ys)
    (hm : m.Holds ptr (0 :: (later.flatMap OptItem.bytes ++ 0xFF :: trailing)))
    (hn : n = (later.flatMap OptItem.bytes).length + trailing.length + 2) :
    List.Forall₂ (OptSpan.Shows · m) ys (later.filterMap OptItem.option?) ↔
      later = [] ∧ trailing.length < 255 := by
  have hpad : m.byte ptr = 0 := hm.head
  -- an option that shows the pad would have the code 0
  have hcode : ∀ {y : OptSpan} {o : DhcpOption}, y.ptr = ptr → ¬ y.Shows m o := by
    rintro y o rfl ⟨hy, -⟩
    rw [Mem.u8, hm.1] at hy
    exact o.code_ne_pad (Except.ok.inj hy).symm
  have hfail : ∀ {y : OptSpan} {ys' : List OptSpan}, y.ptr = ptr →
      ¬ List.Forall₂ (OptSpan.Shows · m) (y :: ys') (later.filterMap OptItem.option?) := by
    intro y ys' hy hall
    cases hopts : later.filterMap OptItem.option? with
    | nil =>
      rw [hopts] at hall
      cases hall
    | cons o os =>
      rw [hopts] at hall
      cases hall with
      | cons hshow => exact hcode hy hshow
  rcases h.pad hpad (by omega) with ⟨rfl, hshort⟩ | ⟨hlong, y, ys', rfl, hy⟩
  · cases later with
    | nil =>
      have hend : m.byte (ptr + 1) = 0xFF := hm.2.head
      rw [hend] at hshort
      change n < 2 + 255 at hshort
      refine iff_of_true .nil ⟨rfl, ?_⟩
      simp only [List.flatMap_nil, List.length_nil] at hn
      omega
    | cons item later =>
      cases item with
      | pad =>
        have hzero : m.byte (ptr + 1) = 0 := hm.2.head
        rw [hzero] at hshort
        change n < 2 + 0 at hshort
        omega
      | opt o => exact iff_of_false (by rintro ⟨⟩) (by simp)
  · refine iff_of_false (hfail hy) ?_
    rintro ⟨rfl, htrail⟩
    have hend : m.byte (ptr + 1) = 0xFF := hm.2.head
    rw [hend] at hlong
    change 2 + 255 ≤ n at hlong
    simp only [List.flatMap_nil, List.length_nil] at hn
    omega

/-- The options up to the first pad, and what follows. -/
theorem DhcpMessage.aligned_iff {x : DhcpMessage} {opts : List DhcpOption} {later : List OptItem}
    (hx : x.items = opts.map .opt ++ .pad :: later) :
    x.Aligned ↔ later = [] ∧ x.trailing.length < 255 := by
  have hopts : x.options = opts ++ later.filterMap OptItem.option? := by
    rw [DhcpMessage.options, hx, List.filterMap_append, List.filterMap_map]
    congr 1
    exact List.filterMap_some
  rw [DhcpMessage.Aligned, hx, hopts, List.map_append, List.append_assoc]
  simp only [List.append_cancel_left_eq]
  constructor
  · rintro (h | ⟨h, htrail⟩)
    · cases hl : later.filterMap OptItem.option? <;> simp [hl] at h
    · cases hl : later.filterMap OptItem.option? with
      | nil => exact ⟨by simpa [hl] using h, htrail⟩
      | cons o os => simp [hl] at h
  · rintro ⟨rfl, htrail⟩
    exact .inr ⟨rfl, htrail⟩

theorem flatMap_opts (opts : List DhcpOption) :
    (opts.map OptItem.opt).flatMap OptItem.bytes = opts.flatMap DhcpOption.bytes := by
  rw [List.flatMap_map]
  rfl

/-- **What the loop finds in a message.** -/
theorem DhcpMessage.scan_iff (x : DhcpMessage) {ptr n : Nat} {xs : List OptSpan}
    (h : Scan m ptr n xs) (hm : m.Holds ptr (x.items.flatMap OptItem.bytes ++ 0xFF :: x.trailing))
    (hn : n = (x.items.flatMap OptItem.bytes).length + x.trailing.length + 1) :
    List.Forall₂ (OptSpan.Shows · m) xs x.options ↔ x.Aligned := by
  obtain ⟨opts, rest, hitems, hrest⟩ := items_split x.items
  have hbytes : x.items.flatMap OptItem.bytes
      = opts.flatMap DhcpOption.bytes ++ rest.flatMap OptItem.bytes := by
    rw [hitems, List.flatMap_append, flatMap_opts]
  have hopts : x.options = opts ++ rest.filterMap OptItem.option? := by
    rw [DhcpMessage.options, hitems, List.filterMap_append, List.filterMap_map]
    congr 1
    exact List.filterMap_some
  rw [hbytes, List.append_assoc] at hm
  rw [hbytes, List.length_append] at hn
  obtain ⟨hfirst, hm⟩ := Mem.holds_append.mp hm
  obtain ⟨ys, rfl, hys⟩ := h.options hfirst (by omega)
  have hshow := optSpans_show hfirst
  -- the options in front are found as they are, so that the rest decides
  have hdrop : List.Forall₂ (OptSpan.Shows · m) (optSpans ptr opts ++ ys) x.options ↔
      List.Forall₂ (OptSpan.Shows · m) ys (rest.filterMap OptItem.option?) := by
    rw [hopts]
    constructor
    · intro hall
      have := List.forall₂_drop opts.length hall
      rwa [List.drop_left' (length_optSpans opts ptr), List.drop_left] at this
    · exact fun hall => List.rel_append hshow hall
  rw [hdrop]
  rcases hrest with rfl | ⟨later, rfl⟩
  · rw [hys.ends hm.head]
    refine iff_of_true .nil (.inl ?_)
    rw [hitems, hopts, List.append_nil]
    simp
  · rw [DhcpMessage.aligned_iff hitems]
    refine hys.pad_iff hm ?_
    simp only [List.flatMap_cons, OptItem.bytes, List.length_append, List.length_singleton] at hn
    omega

end RoundTrip

section Decode

variable {m : Mem} {pd : Payload} {q : Property}

/-- The array and its maps, after a message. -/
theorem exec_dhcp (hw : q.WF) (hc : q.count .dhcpOptions = 0) (hdr hwAddrLen : Nat)
    (hostName bootFile : UInt8) (xs : List OptSpan) :
    ∃ items, (q.exec (dhcpHeader hdr hwAddrLen hostName bootFile ++ xs.map OptSpan.op)).ArrayAt
        .dhcpOptions items ∧
      List.Forall₂
        (q.exec (dhcpHeader hdr hwAddrLen hostName bootFile ++ xs.map OptSpan.op)).HasOption xs items := by
  obtain ⟨head, hhead, hnot⟩ : ∃ head : List Op, dhcpHeader hdr hwAddrLen hostName bootFile
      = head ++ [.array .dhcpOptions rfl] ∧ .dhcpOptions ∉ retained head := by
    unfold dhcpHeader
    refine ⟨_, rfl, ?_⟩
    split <;> split <;> simp [retained, Op.retains]
  have hw' := hw.exec head
  have hcount : (q.exec head).count .dhcpOptions = 0 := by
    rw [count_exec hw.sized, hc, List.count_eq_zero_of_not_mem hnot]
  have harr := arrayAt_array hw' (d := .dhcpOptions) rfl hcount
  have hcount' : ((Op.array .dhcpOptions).apply (q.exec head)).count .dhcpOptions = 1 := by
    rw [Op.count_apply hw'.sized, hcount, if_pos (by simp [Op.retains])]
  have hlast : ((Op.array .dhcpOptions).apply (q.exec head)).last .dhcpOptions
      = ⟨.dhcpOptions, 0⟩ := by
    rw [Property.last, hcount']
  obtain ⟨c, hc0⟩ := harr.array
  obtain ⟨new, hnew, hall⟩ := exec_options (hw'.apply _) (hlast ▸ hc0) xs
  rw [hhead, Property.exec_append, Property.exec_append]
  refine ⟨new, ⟨?_, c, ?_⟩, hall⟩
  · change 0 < (((Op.array .dhcpOptions).apply (q.exec head)).exec (xs.map OptSpan.op)).count _
    rw [count_exec (hw'.apply _).sized, hcount']
    omega
  · rw [hlast] at hnew
    exact hnew

/-- **Decoding undoes encoding of DHCP options exactly when there is no pad**, or one alone that comes
last, with less than 255 bytes behind the end. -/
theorem options_round_trip_iff (ntop6 : List UInt8 → Text) (x : DhcpMessage) (h : pd.WF)
    (hm : m.Holds pd.ptr x.bytes) (hl : pd.length = x.bytes.length) (hw : q.WF)
    (hc : q.count .dhcpOptions = 0) :
    ∃ s, dhcpDecode m pd = .ok s ∧
      ((q.exec s.ops).HoldsOptions ntop6 m x.options ↔ x.Aligned) := by
  have hbytes : x.bytes = x.header.toList ++ (x.items.flatMap OptItem.bytes ++ 0xFF :: x.trailing) := by
    rw [DhcpMessage.bytes, List.append_assoc]
  have hheader : x.header.toList.length = 240 := by simp
  have hhas := hm.has
  rw [hbytes] at hm
  have hitems := (Mem.holds_append.mp hm).2
  rw [hheader] at hitems
  have hlen : pd.length = 240 + (x.items.flatMap OptItem.bytes).length + x.trailing.length + 1 := by
    rw [hl, hbytes]
    simp only [List.length_append, List.length_cons, hheader]
    omega
  rw [← hl] at hhas
  have hskip := h.skip (show 240 ≤ pd.length by omega)
  obtain ⟨s, hs, xs, hops, hscan⟩ := dhcpOptionsLoop_scan hhas ((pd.skip 240).length + 1) hskip
    (by simp only [Payload.skip]; omega) (by simp only [Payload.skip]; omega) (Nat.lt_succ_self _)
  have hdecode : dhcpDecode m pd = .ok { s with
      ops := dhcpHeader pd.ptr (m.byte (pd.ptr + 2)).toNat (m.byte (pd.ptr + 44))
        (m.byte (pd.ptr + 108)) ++ xs.map OptSpan.op } := by
    rw [dhcpDecode, withHeader_eq h (by omega), Mem.u8_eq hhas (by omega) (by omega),
      Mem.u8_eq hhas (by omega) (by omega), Mem.u8_eq hhas (by omega) (by omega)]
    simp only [bind, Except.bind, hs, hops]
    rfl
  obtain ⟨items, harr, hall⟩ := exec_dhcp hw hc pd.ptr (m.byte (pd.ptr + 2)).toNat
    (m.byte (pd.ptr + 44)) (m.byte (pd.ptr + 108)) xs
  refine ⟨_, hdecode, ?_⟩
  rw [holdsOptions_iff harr hall]
  refine x.scan_iff hscan hitems ?_
  simp only [Payload.skip]
  omega

end Decode

/-- A DHCP message that says "discover", with the given items in front. -/
def discover (front : List OptItem) : DhcpMessage where
  header := .replicate 240 0
  items := front ++ [.opt ⟨53, [1], by decide, by decide, by decide⟩]
  trailing := []

/-- The message as the whole packet. -/
def discoverPacket : Packet where
  addr := 4096
  data := (discover []).bytes
  tv := ⟨0, 0⟩
  fits := by decide +kernel

/-- A message of one option, without a pad. -/
theorem options_round_trip_discover :
    ∃ s, dhcpDecode discoverPacket.mem (.reset discoverPacket) = .ok s ∧
      ((({} : Property).exec s.ops).HoldsOptions (fun _ => []) discoverPacket.mem
        (discover []).options ↔ (discover []).Aligned) :=
  options_round_trip_iff (fun _ => []) (discover []) (Payload.wf_reset _) discoverPacket.holds rfl
    Property.wf_empty rfl

/-- The same with a pad in front of the option. -/
def paddedPacket : Packet where
  addr := 4096
  data := (discover [.pad]).bytes
  tv := ⟨0, 0⟩
  fits := by decide +kernel

/-- The size of `DHCP.options`. -/
def optionsSize (p : Packet) : Except Fault (Option Nat) := do
  let s ← dhcpDecode p.mem (.reset p)
  let v ← (({} : Property).exec s.ops).observe (fun _ => []) p.mem (.param .dhcpOptions) []
  return v.map Look.size

/-- **The option behind a pad is lost**: its code is taken for the length of the pad. -/
theorem pad_hides_option :
    ¬ ∃ s, dhcpDecode paddedPacket.mem (.reset paddedPacket) = .ok s ∧
      (({} : Property).exec s.ops).HoldsOptions (fun _ => []) paddedPacket.mem
        (discover [.pad]).options := by
  have hsize : optionsSize paddedPacket = .ok (some 0) := by decide +kernel
  rintro ⟨s, hs, ⟨v, hv, hlen⟩, -⟩
  simp only [optionsSize, hs, bind, Except.bind, hv, pure, Except.pure, Option.map_some] at hsize
  have hzero : v.size = 0 := Option.some.inj (Except.ok.inj hsize)
  rw [hzero] at hlen
  cases hlen

end PacketMachine.Decode
