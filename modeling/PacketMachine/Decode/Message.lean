import PacketMachine.Decode.Records
import PacketMachine.Decode.Name
import PacketMachine.Decode.Keys

/-!
# Messages without compression

A message is a header with the numbers of its records, and then the records of the four sections. Here
all names are sent in full. `ns_decode` finds the sections from the four numbers only
(`modules/utils.cc:140-230`): a cursor of a section and of the records taken from it goes along with the
position, and what stands behind a name depends on the number of records taken.

* `NsMessage.left` are the entries that are left at a cursor.
* `Entry.Seen` relates an entry to the record that the loop makes of it.

Results:
* `nextTarget_left`: the section cursor stops at the section of the next entry.
* **`recordLoop_entries`**: the loop makes the calls of one record for each entry, in order.
* **`message_round_trip`**: `ns_decode` returns `true`, and each section shows its entries.
-/

namespace PacketMachine.Decode

open PacketMachine.Lib

/-! ## Messages -/

/-- An entry of the question section. -/
structure Question where
  name : WireName
  type : UInt16
  cls : UInt16

/-- An entry of another section. -/
structure ResourceRecord where
  name : WireName
  type : UInt16
  cls : UInt16
  ttl : UInt32
  rdata : List UInt8
  fits : rdata.length ≤ 65535

inductive Entry where
  | question (x : Question)
  | record (x : ResourceRecord)

structure NsMessage where
  id : UInt16
  flags : UInt16
  questions : List Question
  answers : List ResourceRecord
  authority : List ResourceRecord
  additional : List ResourceRecord
  fits : questions.length ≤ 65535 ∧ answers.length ≤ 65535 ∧ authority.length ≤ 65535 ∧
    additional.length ≤ 65535

def Entry.name : Entry → WireName
  | question x => x.name
  | record x => x.name

def Entry.type : Entry → UInt16
  | question x => x.type
  | record x => x.type

def Entry.rdata? : Entry → Option (List UInt8)
  | question _ => none
  | record x => some x.rdata

/-- The bytes behind the name. -/
def Entry.rest : Entry → List UInt8
  | question x => netU16 x.type ++ netU16 x.cls
  | record x => netU16 x.type ++ netU16 x.cls ++ netU32 x.ttl
      ++ netU16 (UInt16.ofNat x.rdata.length) ++ x.rdata

def Entry.bytes (e : Entry) : List UInt8 := e.name.bytes ++ e.rest

/-- The sections by their numbers. -/
def NsMessage.section (x : NsMessage) : Nat → List Entry
  | 0 => x.questions.map .question
  | 1 => x.answers.map .record
  | 2 => x.authority.map .record
  | _ => x.additional.map .record

def NsMessage.counts (x : NsMessage) : List Nat := (List.range 4).map fun t => (x.section t).length

def NsMessage.header (x : NsMessage) : List UInt8 :=
  netU16 x.id ++ netU16 x.flags ++ netU16 (UInt16.ofNat x.questions.length)
    ++ netU16 (UInt16.ofNat x.answers.length) ++ netU16 (UInt16.ofNat x.authority.length)
    ++ netU16 (UInt16.ofNat x.additional.length)

/-- The message as it is sent. -/
def NsMessage.bytes (x : NsMessage) : List UInt8 :=
  x.header ++ (List.range 4).flatMap fun t => (x.section t).flatMap Entry.bytes

/-! ## The cursors -/

/-- The entries of the `k` sections from `t` on, each with its section. -/
def NsMessage.entries (x : NsMessage) : Nat → Nat → List (Nat × Entry)
  | 0, _ => []
  | k + 1, t => (x.section t).map (t, ·) ++ x.entries k (t + 1)

/-- The entries that are left when `rrC` of the section `target` were taken. -/
def NsMessage.left (x : NsMessage) (target rrC : Nat) : List (Nat × Entry) :=
  ((x.section target).drop rrC).map (target, ·) ++ x.entries (3 - target) (target + 1)

section Cursor

variable {x : NsMessage}

theorem counts_get {t : Nat} (ht : t < 4) : x.counts[t]? = some (x.section t).length := by
  rw [NsMessage.counts, List.getElem?_map, List.getElem?_range ht]
  rfl

/-- Behind the last record of a section the next section starts. -/
theorem left_next {target rrC : Nat} (ht : target + 1 < 4) (h : (x.section target).length ≤ rrC) :
    x.left target rrC = x.left (target + 1) 0 := by
  have hk : 3 - target = (3 - (target + 1)) + 1 := by omega
  rw [NsMessage.left, NsMessage.left, List.drop_of_length_le h, hk, List.drop_zero]
  rfl

/-- **The section cursor stops at the section of the next entry.** -/
theorem nextTarget_left (fuel : Nat) (arr : Bool) {target rrC t : Nat} {e : Entry}
    {rest : List (Nat × Entry)} (hf : 4 - target < fuel) (ht : target < 4)
    (h : x.left target rrC = (t, e) :: rest) :
    ∃ rrC' arr', nextTarget x.counts fuel target rrC arr = .ok (t, rrC', arr') ∧ t < 4 ∧
      (x.section t)[rrC']? = some e ∧ x.left t (rrC' + 1) = rest ∧
      (t = target ∧ rrC' = rrC ∧ arr' = arr ∨
        target < t ∧ (x.section target).length ≤ rrC ∧ rrC' = 0 ∧ arr' = false) := by
  induction fuel generalizing target rrC arr with
  | zero => omega
  | succ fuel ih =>
    unfold nextTarget
    simp only [counts_get ht]
    by_cases hlt : rrC < (x.section target).length
    · rw [if_pos hlt]
      rw [NsMessage.left, List.drop_eq_getElem_cons hlt, List.map_cons, List.cons_append] at h
      obtain ⟨hhead, htail⟩ := List.cons.inj h
      obtain ⟨rfl, rfl⟩ := Prod.mk.inj hhead
      exact ⟨rrC, arr, rfl, ht, List.getElem?_eq_getElem hlt, htail, .inl ⟨rfl, rfl, rfl⟩⟩
    · have hge := Nat.not_lt.mp hlt
      rw [if_neg hlt]
      have hnext : target + 1 < 4 := by
        by_contra hlast
        obtain rfl : target = 3 := by omega
        rw [NsMessage.left, List.drop_of_length_le hge] at h
        cases h
      rw [if_pos hnext]
      rw [left_next hnext hge] at h
      obtain ⟨rrC', arr', hnt, ht', he, hrest, hmove⟩ := ih false (by omega) hnext h
      refine ⟨rrC', arr', hnt, ht', he, hrest, .inr ?_⟩
      rcases hmove with ⟨rfl, rfl, rfl⟩ | ⟨hgt, -, rfl, rfl⟩
      · exact ⟨Nat.lt_succ_self _, hge, rfl, rfl⟩
      · exact ⟨by omega, hge, rfl, rfl⟩

end Cursor

/-! ## One entry -/

/-- The record that the loop makes of an entry. -/
structure Entry.Seen (m : Mem) (base totalLen : Nat) (p : Nat × Entry) (y : RecSpan) : Prop where
  sec : y.sec = p.1
  name : ∃ pos, parseLabel m y.ptr y.remain base totalLen (some []) = .ok (some pos, some p.2.name.text)
  type : ∃ off, y.type = some off ∧ m.u16 off = .ok p.2.type.toNat
  data : match p.2.rdata? with
    | none => y.data = none
    | some bs => ∃ off ty, y.data = some (off, bs.length, ty) ∧ m.bytes off bs.length = .ok bs

section Body

variable {m : Mem} {ns : NameService} {base totalLen p : Nat}

/-- A number that fits in two bytes. -/
theorem Mem.Holds.number {n : Nat} (h : m.Holds p (netU16 (UInt16.ofNat n))) (hn : n ≤ 65535) :
    m.u16 p = .ok n := by
  rw [h.u16, UInt16.toNat_ofNat', Nat.mod_eq_of_lt (by omega)]

/-- **The part of a round behind the name**, for an entry that lies in the message. -/
theorem recordBody_entry (e : Entry) (h : m.Holds p e.rest)
    (hfit : p + e.rest.length ≤ base + 12 + totalLen) :
    ∃ data, recordBody ns m base totalLen e.rdata?.isSome p
        = .ok (RecSpan.body ns base totalLen ⟨0, false, 0, 0, some p, data⟩, .next (p + e.rest.length)) ∧
      m.u16 p = .ok e.type.toNat ∧
      match e.rdata? with
      | none => data = none
      | some bs => ∃ off ty, data = some (off, bs.length, ty) ∧ m.bytes off bs.length = .ok bs := by
  cases e with
  | question x =>
    simp only [Entry.rest, List.length_append, length_netU16] at h hfit ⊢
    obtain ⟨htype, -⟩ := Mem.holds_append.mp h
    refine ⟨none, ?_, htype.u16, rfl⟩
    rw [recordBody]
    simp only [if_neg (show ¬ base + 12 + totalLen ≤ p by omega),
      if_neg (show ¬ base + 12 + totalLen - p < 4 by omega)]
    rfl
  | record x =>
    simp only [Entry.rest, Mem.holds_append, List.length_append, length_netU16, length_netU32]
      at h hfit ⊢
    obtain ⟨⟨⟨⟨htype, -⟩, -⟩, hlen⟩, hdata⟩ := h
    have hrd : m.u16 (p + 4 + 4) = .ok x.rdata.length := hlen.number x.fits
    refine ⟨some (p + 4 + 6, x.rdata.length, x.type.toNat), ?_, htype.u16, p + 4 + 6, x.type.toNat,
      rfl, ?_⟩
    · rw [recordBody]
      simp only [if_neg (show ¬ base + 12 + totalLen ≤ p by omega),
        if_neg (show ¬ base + 12 + totalLen - p < 4 by omega),
        if_neg (show ¬ base + 12 + totalLen - (p + 4) < 6 by omega), hrd, htype.u16, bind, Except.bind,
        if_neg (show ¬ base + 12 + totalLen - (p + 4 + 6) < x.rdata.length by omega)]
      rw [show p + (2 + 2 + 4 + 2 + x.rdata.length) = p + 4 + 6 + x.rdata.length from by omega]
      rfl
    · exact hdata.bytes

end Body

/-! ## The loop -/

section Loop

variable {m : Mem} {base totalLen : Nat} {x : NsMessage}

theorem counts_headD (x : NsMessage) : x.counts.headD 0 = x.questions.length :=
  List.length_map _

/-- The entries with resource data are those behind the questions. -/
theorem section_rdata {t i : Nat} {e : Entry} (h : (x.section t)[i]? = some e) :
    e.rdata?.isSome = decide (0 < t) ∧ (t = 0 → i < x.questions.length) := by
  rcases t with _ | _ | _ | t
  · obtain ⟨hlt, rfl⟩ := List.getElem?_eq_some_iff.mp h
    simp only [NsMessage.section, List.getElem_map, List.length_map] at hlt ⊢
    exact ⟨rfl, fun _ => hlt⟩
  all_goals
    obtain ⟨y, -, rfl⟩ := List.mem_map.mp (List.mem_of_getElem? h)
    exact ⟨by simp [Entry.rdata?], fun h0 => absurd h0 (by omega)⟩

/-- Where the loop is: the number of records taken tells the questions from the other records. -/
structure Cursor (x : NsMessage) (c target rrC : Nat) : Prop where
  lt : target < 4
  questions : target = 0 → c = rrC
  others : 0 < target → x.questions.length ≤ c

/-- The cursor behind the next entry, and what the comparison with the number of questions says of
it. -/
theorem Cursor.step {c target rrC rrC' t : Nat} {arr arr' : Bool} {e : Entry}
    (hc : Cursor x c target rrC) (ht : t < 4) (he : (x.section t)[rrC']? = some e)
    (hmove : t = target ∧ rrC' = rrC ∧ arr' = arr ∨
      target < t ∧ (x.section target).length ≤ rrC ∧ rrC' = 0 ∧ arr' = false) :
    decide (c ≥ x.counts.headD 0) = e.rdata?.isSome ∧ Cursor x (c + 1) t (rrC' + 1) := by
  obtain ⟨hsome, hquestion⟩ := section_rdata he
  have hlen : (x.section 0).length = x.questions.length := List.length_map _
  obtain ⟨-, hq, ho⟩ := hc
  have hcount : c ≥ x.counts.headD 0 ↔ 0 < t := by
    rw [counts_headD]
    rcases hmove with ⟨rfl, rfl, -⟩ | ⟨hgt, hge, -, -⟩
    · omega
    · rcases Nat.eq_zero_or_pos target with rfl | h0
      · omega
      · exact iff_of_true (ho h0) (by omega)
  refine ⟨by rw [hsome, decide_eq_decide, hcount], ht, fun h0 => ?_, fun h0 => ?_⟩
  · rcases hmove with ⟨rfl, rfl, -⟩ | ⟨hgt, -⟩ <;> omega
  · rw [counts_headD] at hcount
    omega

/-- **The loop makes the calls of one record for each entry that is left**, in their order, and returns
`true`. The entries fill the message up to its end. -/
theorem recordLoop_entries (ns : NameService) (hm : m.Has base (12 + totalLen))
    {rest : List (Nat × Entry)} {c target rrC p : Nat} (hleft : x.left target rrC = rest) (arr : Bool)
    (hc : Cursor x c target rrC)
    (hb : m.Holds p (rest.flatMap (·.2.bytes))) (hp : base ≤ p)
    (hend : p + (rest.flatMap (·.2.bytes)).length = base + 12 + totalLen) :
    ∃ ys, recordLoop ns m base totalLen x.counts rest.length c target rrC arr p
        = .ok (ys.flatMap (RecSpan.ops ns base totalLen), true) ∧
      Chain target arr ys ∧ List.Forall₂ (Entry.Seen m base totalLen) rest ys := by
  induction rest generalizing c target rrC p arr with
  | nil => exact ⟨[], rfl, .nil, .nil⟩
  | cons te rest ih =>
    obtain ⟨t, e⟩ := te
    obtain ⟨rrC', arr', hnt, ht, he, hrest, hmove⟩ := nextTarget_left 5 arr (by omega) hc.lt hleft
    obtain ⟨hhas, hc'⟩ := hc.step ht he hmove
    have hmove' : t = target ∧ arr' = arr ∨ target < t ∧ arr' = false :=
      hmove.imp (fun h => ⟨h.1, h.2.2⟩) (fun h => ⟨h.1, h.2.2.2⟩)
    rw [List.flatMap_cons, Mem.holds_append] at hb
    rw [List.flatMap_cons, List.length_append] at hend
    dsimp only at hb hend
    obtain ⟨hentry, hb⟩ := hb
    obtain ⟨hname, hbody⟩ := Mem.holds_append.mp hentry
    have hlen : e.bytes.length = e.name.bytes.length + e.rest.length := List.length_append
    have hpos : 0 < e.name.bytes.length := by
      rw [WireName.bytes, ← size_tree]
      exact DomainName.size_pos _
    have hsp : m.Has base totalLen := hm.sub (Nat.le_refl base) (by omega)
    have hparse := e.name.parsed hname (show _ ≤ base + 12 + totalLen - p by omega)
      (hm.sub hp (by omega)) hsp
    obtain ⟨data, hrun, htype, hdata⟩ : ∃ data, recordBody ns m base totalLen e.rdata?.isSome
        (p + e.name.bytes.length) = _ ∧ _ := recordBody_entry e hbody (by omega)
    obtain ⟨ys, hys, hchain', hseen⟩ := ih hrest true hc' hb (by omega) (by omega)
    refine ⟨⟨t, !arr', p, base + 12 + totalLen - p, some (p + e.name.bytes.length), data⟩ :: ys, ?_,
      hchain'.next ht hmove' rfl rfl, .cons ⟨rfl, ⟨_, hparse (some [])⟩, ⟨_, rfl, htype⟩, hdata⟩ hseen⟩
    rw [List.length_cons, recordLoop, hnt]
    simp only [bind, Except.bind, if_neg (show ¬ base + 12 + totalLen ≤ p by omega), sectionArray_eq,
      hparse none, hhas, hrun, Option.map_none]
    rw [Nat.add_assoc, ← hlen, hys]
    simp [RecSpan.ops, RecSpan.body, pure, Except.pure]

end Loop

/-! ## The whole message -/

section Whole

variable {m : Mem} {x : NsMessage} {base totalLen t : Nat}

theorem length_header (x : NsMessage) : x.header.length = 12 := rfl

/-- The header carries the numbers of the entries. -/
theorem readCounts_header (h : m.Holds base x.header) : readCounts m base = .ok x.counts := by
  obtain ⟨hq, ha, hu, hd⟩ := x.fits
  simp only [NsMessage.header, Mem.holds_append, List.length_append, length_netU16] at h
  obtain ⟨⟨⟨⟨⟨-, -⟩, hqd⟩, han⟩, hns⟩, har⟩ := h
  rw [readCounts, hqd.number hq, han.number ha, hns.number hu, har.number hd]
  simp [NsMessage.counts, NsMessage.section, List.range_succ, bind, Except.bind, pure, Except.pure]

theorem bytes_entries (x : NsMessage) :
    x.bytes = x.header ++ (x.entries 4 0).flatMap (·.2.bytes) := by
  simp [NsMessage.bytes, NsMessage.entries, List.range_succ, List.flatMap_map]

theorem length_entries (x : NsMessage) : (x.entries 4 0).length = x.counts.sum := by
  simp [NsMessage.counts, NsMessage.entries, List.range_succ]

theorem filter_entries (ht : t < 4) :
    (x.entries 4 0).filter (·.1 = t) = (x.section t).map (t, ·) := by
  have hmap : ∀ u, ((x.section u).map (u, ·)).filter (·.1 = t)
      = if u = t then (x.section u).map (u, ·) else [] := by
    intro u
    rw [List.filter_map]
    split
    · rename_i he
      simp [he, Function.comp_def]
    · rename_i hne
      simp [hne, Function.comp_def]
  simp only [NsMessage.entries, List.filter_append, hmap, List.filter_nil]
  interval_cases t <;> simp

/-- The records of a section are those of its entries. -/
theorem section_seen {ys : List RecSpan}
    (h : List.Forall₂ (Entry.Seen m base totalLen) (x.entries 4 0) ys) (ht : t < 4) :
    List.Forall₂ (fun e y => Entry.Seen m base totalLen (t, e) y) (x.section t)
      (ys.filter (·.sec = t)) := by
  have hfilter : List.Forall₂ (Entry.Seen m base totalLen) ((x.entries 4 0).filter (·.1 = t))
      (ys.filter (·.sec = t)) := by
    refine List.rel_filter (fun p y hy => ?_) h
    show decide (p.1 = t) = true ↔ decide (y.sec = t) = true
    rw [hy.sec]
  rw [filter_entries ht] at hfilter
  exact List.forall₂_map_left_iff.mp hfilter

/-- **The calls for a message without compression.** -/
theorem nsDecode_message (ns : NameService) (x : NsMessage) (y : NsPayload)
    (hm : y.mem.Holds y.pd.ptr x.bytes) (hl : y.pd.length = x.bytes.length) :
    ∃ pd ys, ns.nsDecode y.mem y.pd = .ok (pd, ns.headCalls y.pd.ptr (!y.ra)
        ++ ys.flatMap (RecSpan.ops ns y.pd.ptr (y.pd.length - 12)), true) ∧
      Chain 0 false ys ∧
      List.Forall₂ (Entry.Seen y.mem y.pd.ptr (y.pd.length - 12)) (x.entries 4 0) ys := by
  have hhas : y.mem.Has y.pd.ptr y.pd.length := hl ▸ hm.has
  have h12 := y.header
  rw [bytes_entries] at hm hl
  obtain ⟨hhead, hentries⟩ := Mem.holds_append.mp hm
  rw [List.length_append, length_header] at hl
  rw [length_header] at hentries
  obtain ⟨pd, counts, ops, ok, hcounts, -, hloop, hdecode⟩ := nsDecode_loop ns y
  obtain rfl := Except.ok.inj ((readCounts_header hhead).symm.trans hcounts)
  have hmsg : y.mem.Has y.pd.ptr (12 + (y.pd.length - 12)) := hhas.sub (Nat.le_refl _) (by omega)
  have hstart : Cursor x 0 0 0 := ⟨by omega, fun _ => rfl, fun h => by omega⟩
  have hleft : x.left 0 0 = x.entries 4 0 := rfl
  obtain ⟨ys, hys, hchain, hseen⟩ := recordLoop_entries ns hmsg hleft false hstart hentries (by omega)
    (by omega)
  rw [length_entries, hloop] at hys
  obtain ⟨rfl, rfl⟩ := Prod.mk.inj (Except.ok.inj hys)
  exact ⟨pd, ys, hdecode, hchain, hseen⟩

/-- **What a user finds of an entry**: its name, its type, and its data when it has some. -/
structure Property.ShowsEntry (q : Property) (ntop6 : List UInt8 → Text) (m : Mem) (ns : NameService)
    (t i : Nat) (e : Entry) : Prop where
  name : ∃ v, q.observe ntop6 m (.param (ns.record t)) [.get i, .find "name"] = .ok (some v) ∧
    v.repr = .ok e.name.text
  type : ∃ v, q.observe ntop6 m (.param (ns.record t)) [.get i, .find "type"] = .ok (some v) ∧
    v.uint64 = .ok e.type.toNat
  data : match e.rdata? with
    | none => q.observe ntop6 m (.param (ns.record t)) [.get i, .find "data"]
        = .ok (some (noneLook ntop6 m))
    | some bs => ∃ v, q.observe ntop6 m (.param (ns.record t)) [.get i, .find "data"] = .ok (some v) ∧
        v.raw = .ok (some bs)

/-- **What a user finds of a section.** -/
structure Property.ShowsSection (q : Property) (ntop6 : List UInt8 → Text) (m : Mem)
    (ns : NameService) (t : Nat) (es : List Entry) : Prop where
  has : q.hasValueKey (some (.param (ns.record t))) = .ok (decide (es ≠ []))
  size : ∃ v, q.observe ntop6 m (.param (ns.record t)) [] = .ok (some v) ∧ v.size = es.length
  entry : ∀ i e, es[i]? = some e → q.ShowsEntry ntop6 m ns t i e

/-- A section shows its entries. -/
theorem Property.SectionHolds.shows {q : Property} {ns : NameService} {es : List Entry}
    {ys : List RecSpan} (h : q.SectionHolds ns base totalLen t ys)
    (hlt : (ns.record t).id < q.paramIdx.length)
    (hall : List.Forall₂ (fun e y => Entry.Seen m base totalLen (t, e) y) es ys)
    (ntop6 : List UInt8 → Text) : q.ShowsSection ntop6 m ns t es := by
  refine ⟨?_, ?_, fun i e hi => ?_⟩
  · have hcount : 0 < q.count (ns.record t) ↔ es ≠ [] := by
      cases h with
      | absent hc =>
        cases hall
        simp [hc]
      | present hne hc =>
        refine iff_of_true (by omega) fun hnil => ?_
        rw [hnil] at hall
        cases hall
        exact hne rfl
    rw [hasValueKey_eq (show (Key.param (ns.record t)).pool.id < _ from hlt)]
    exact congrArg Except.ok (decide_eq_decide.mpr hcount)
  · obtain ⟨v, hv, hsize⟩ := h.size ntop6 m
    exact ⟨v, hv, hsize.trans hall.length_eq.symm⟩
  · obtain ⟨hlen, hget⟩ := List.forall₂_iff_get.mp hall
    obtain ⟨hi', rfl⟩ := List.getElem?_eq_some_iff.mp hi
    have hy : ys[i]? = some ys[i] := List.getElem?_eq_getElem (hlen ▸ hi')
    obtain ⟨-, ⟨pos, hname⟩, ⟨off, hoff, htype⟩, hdata⟩ := hget i hi' (hlen ▸ hi')
    refine ⟨h.name ntop6 m hy hname, (h.type_iff ntop6 m hy hoff _).mpr htype, ?_⟩
    rw [List.get_eq_getElem] at hdata
    rcases hr : es[i].rdata? with _ | bs
    · rw [hr] at hdata
      exact h.no_data ntop6 m hy hdata
    · rw [hr] at hdata
      obtain ⟨off', ty, hspan, hbytes⟩ := hdata
      obtain ⟨c, hlook⟩ := h.data_iff ntop6 m hy hspan
      exact (hlook fun v => v.raw = .ok (some bs)).mpr ((raw_span_iff m c off' bs.length bs).mpr hbytes)

end Whole

/-- **A message without compression is decoded in full**, DNS or mDNS, with any entries in any of the four
sections: `ns_decode` returns `true`, and each section shows its entries in their order. The payload is
any that holds the message, and the arrays of the sections were not yet retained. -/
theorem message_round_trip {ns : NameService} (hns : ns = dns ∨ ns = mdns)
    (ntop6 : List UInt8 → Text) (x : NsMessage) (y : NsPayload) (hm : y.mem.Holds y.pd.ptr x.bytes)
    (hl : y.pd.length = x.bytes.length) {q : Property} (hw : q.WF)
    (hc : ∀ t < 4, q.count (ns.record t) = 0) :
    ∃ pd ops, ns.nsDecode y.mem y.pd = .ok (pd, ops, true) ∧
      ∀ t < 4, (q.exec ops).ShowsSection ntop6 y.mem ns t (x.section t) := by
  obtain ⟨mod, hin, -, -, -, hid⟩ := service_in hns
  obtain ⟨pd, ys, hdecode, hchain, hseen⟩ := nsDecode_message ns x y hm hl
  refine ⟨pd, _, hdecode, fun t ht => ?_⟩
  have hlt : (ns.record t).id < (q.exec (ns.headCalls y.pd.ptr (!y.ra)
      ++ ys.flatMap (RecSpan.ops ns y.pd.ptr (y.pd.length - 12)))).paramIdx.length := by
    refine (lt_length_exec hw.sized _ _).mpr (.inr ⟨ns.txId, ?_, hid t ht⟩)
    simp [retained, NameService.headCalls, Op.retains]
  exact (sections_decode hin hw hc hchain _ _ ht).shows hlt (section_seen hseen ht) ntop6

/-- A reply to a question for "a.", with one additional record and two empty sections before it. -/
def replyMessage : NsMessage where
  id := 1
  flags := 0x8180
  questions := [⟨⟨[[0x61]], by decide, by decide⟩, 1, 1⟩]
  answers := []
  authority := []
  additional := [⟨⟨[], by decide, by decide⟩, 41, 4096, 0, [0, 10], by decide⟩]
  fits := by decide

/-- The message as the whole packet. -/
def replyPacket : Packet where
  addr := 4096
  data := replyMessage.bytes
  tv := ⟨0, 0⟩
  fits := by decide +kernel

def replyPayload : NsPayload where
  mem := replyPacket.mem
  pd := .reset replyPacket
  wf := Payload.wf_reset _
  has := replyPacket.has_all
  header := by decide +kernel

theorem message_round_trip_reply :
    ∃ pd ops, dns.nsDecode replyPayload.mem replyPayload.pd = .ok (pd, ops, true) ∧
      ∀ t < 4, (({} : Property).exec ops).ShowsSection (fun _ => []) replyPayload.mem dns t
        (replyMessage.section t) :=
  message_round_trip (.inl rfl) _ replyMessage replyPayload replyPacket.holds rfl Property.wf_empty
    fun _ _ => rfl

end PacketMachine.Decode
