import PacketMachine.Decode.Arrays
import PacketMachine.Decode.Classify

/-!
# The records of a message in the pool

`ns_decode` goes through the records of the four sections and makes the same few calls for each: the
array of its section when it is the first, a map with its name and type, and the data when there are any
(`modules/utils.cc:140-230`).

* A `RecSpan` is a record as the loop sees it. `Chain` says in which order the sections come, and which
  records are the first of theirs.
* `Property.RecordAt` is the map of a record with its values, and `Property.SectionHolds` what a section
  holds after some records.

Results:
* **`sections_run`**: after the calls for a list of records, each section holds its own, in order, and
  no array was retained for a section without any.
* **`recordLoop_scan`**: the loop makes such calls on any input, and the data of a record come
  with the type at its position.
-/

namespace PacketMachine.Decode

open PacketMachine.Lib

/-! ## Records as the loop sees them -/

/-- A record: its section, whether that is new, its name with the bytes left, the position of its type,
and the range of its data with their type. -/
structure RecSpan where
  sec : Nat
  first : Bool
  ptr : Nat
  remain : Nat
  type : Option Nat
  data : Option (Nat × Nat × Nat)

/-- The calls behind the name. -/
def RecSpan.body (ns : NameService) (base totalLen : Nat) (x : RecSpan) : List Op :=
  x.type.toList.map (fun p => .type ns p 2) ++
    x.data.toList.map fun d => .data ns d.1 d.2.1 d.2.2 base totalLen

/-- The calls for a record. -/
def RecSpan.ops (ns : NameService) (base totalLen : Nat) (x : RecSpan) : List Op :=
  (if x.first then [Op.array (ns.record x.sec) (ns.record_kind x.sec)] else []) ++
    .record ns x.sec x.ptr x.remain base totalLen :: x.body ns base totalLen

/-- **The order of the sections**, from the section `target` on; `arr` says that it has its array. -/
inductive Chain : Nat → Bool → List RecSpan → Prop
  | nil {target : Nat} {arr : Bool} : Chain target arr []
  | cons {target : Nat} {arr : Bool} {x : RecSpan} {xs : List RecSpan} (h4 : x.sec < 4)
    (hx : x.sec = target ∧ x.first = !arr ∨ target < x.sec ∧ x.first = true)
    (hxs : Chain x.sec true xs) : Chain target arr (x :: xs)

/-- A record where the section cursor stops. -/
theorem Chain.next {target t : Nat} {arr arr' : Bool} {x : RecSpan} {xs : List RecSpan}
    (hxs : Chain t true xs) (ht : t < 4)
    (hmove : t = target ∧ arr' = arr ∨ target < t ∧ arr' = false) (hsec : x.sec = t)
    (hfirst : x.first = !arr') : Chain target arr (x :: xs) := by
  subst hsec
  refine .cons ht ?_ hxs
  rcases hmove with ⟨hsec, rfl⟩ | ⟨hlt, rfl⟩
  · exact .inl ⟨hsec, hfirst⟩
  · exact .inr ⟨hlt, hfirst⟩

/-! ## What calls leave alone -/

section Frames

variable {q : Property} {ns : NameService} {h : Handle} {base totalLen : Nat}

theorem NameService.data_ne (ns : NameService) :
    ns.data ≠ ns.name ∧ ns.data ≠ ns.type ∧ ∀ i, ns.record i ≠ ns.data := by
  have hk : ∀ {d d' : Param}, d.kind ≠ d'.kind → d ≠ d' := fun h e => h (congrArg Param.kind e)
  refine ⟨hk ?_, hk ?_, fun i => hk ?_⟩ <;>
    simp [ns.data_kind, ns.name_kind, ns.type_kind, ns.record_kind]

theorem last_apply (hs : q.Sized) {op : Op} {d : Param} (hd : d ∈ op.retains) :
    (op.apply q).last d = q.next d := by
  rw [Property.last, Op.count_apply hs, if_pos hd]
  rfl

theorem last_keep (hs : q.Sized) {op : Op} {d : Param} (hd : d ∉ op.retains) :
    (op.apply q).last d = q.last d := by
  rw [Property.last, Op.count_apply hs, if_neg hd]
  rfl

theorem ne_last {d : Param} (hp : h.param ≠ d) : h ≠ q.last d := by
  rintro rfl
  exact hp rfl

theorem array_untouched (hl : q.Live h) (d : Param) (hd : d.kind = .array) :
    (Op.array d hd).touch q h = none :=
  if_neg (hl.ne_next d)

theorem record_untouched (hl : q.Live h) {t : Nat} (hp : h.param ≠ ns.record t) (ptr remain : Nat) :
    (Op.record ns t ptr remain base totalLen).touch q h = none := by
  simp only [Op.touch, hl.ne_next, ne_last hp, if_false]

/-- The calls behind the name touch the record retained last, its type and new values. -/
theorem body_keeps (ns : NameService) (base totalLen : Nat) (hw : q.WF) (x : RecSpan)
    (hl : q.Live h) (ht : h ≠ q.last ns.type) (hr : h ≠ q.last ns.records) :
    (q.exec (x.body ns base totalLen)).Live h ∧
      (q.exec (x.body ns base totalLen)).obj? h = q.obj? h := by
  obtain ⟨sec, first, ptr, remain, type, data⟩ := x
  have hdata : ∀ {q : Property}, q.WF → q.Live h → h ≠ q.last ns.records →
      (q.exec (data.toList.map fun d => .data ns d.1 d.2.1 d.2.2 base totalLen)).Live h ∧
        (q.exec (data.toList.map fun d => .data ns d.1 d.2.1 d.2.2 base totalLen)).obj? h
          = q.obj? h := by
    intro q hw hl hr
    rcases data with _ | ⟨p, len, ty⟩
    · exact ⟨hl, rfl⟩
    · have hno : (Op.data ns p len ty base totalLen).touch q h = none := by
        simp only [Op.touch, hl.ne_next, hr, if_false]
      exact ⟨hl.apply hw.sized (.data ns p len ty base totalLen), Op.obj?_of_untouched hw.sized hno⟩
  rcases type with _ | p
  · exact hdata hw hl hr
  · have htouch : (Op.type ns p 2).touch q h = none := if_neg ht
    have hlast : ((Op.type ns p 2).apply q).last ns.records = q.last ns.records :=
      last_keep hw.sized (by simp [Op.retains])
    obtain ⟨hl', ho⟩ := hdata (hw.apply (.type ns p 2)) (hl.apply hw.sized _) (by rwa [hlast])
    exact ⟨hl', ho.trans (Op.obj?_of_untouched hw.sized htouch)⟩

/-- **The calls for a record leave the values alone that are there**, but for the array of its section. -/
theorem RecSpan.keeps (ns : NameService) (base totalLen : Nat) (hw : q.WF) (x : RecSpan)
    (hl : q.Live h) (hp : h.param ≠ ns.record x.sec) :
    (q.exec (x.ops ns base totalLen)).Live h ∧
      (q.exec (x.ops ns base totalLen)).obj? h = q.obj? h := by
  have hrec : ∀ {q : Property}, q.WF → q.Live h →
      (q.exec (.record ns x.sec x.ptr x.remain base totalLen :: x.body ns base totalLen)).Live h ∧
        (q.exec (.record ns x.sec x.ptr x.remain base totalLen :: x.body ns base totalLen)).obj? h
          = q.obj? h := by
    intro q hw hl
    have hs := hw.sized
    obtain ⟨hl', ho⟩ := body_keeps ns base totalLen
      (hw.apply (.record ns x.sec x.ptr x.remain base totalLen)) x (hl.apply hs _)
      (by rw [last_apply (d := ns.type) hs (by simp [Op.retains])]; exact hl.ne_next ns.type)
      (by rw [last_apply (d := ns.records) hs (by simp [Op.retains])]; exact hl.ne_next ns.records)
    exact ⟨hl', ho.trans (Op.obj?_of_untouched hs (record_untouched hl hp _ _))⟩
  unfold RecSpan.ops
  split
  · obtain ⟨hl', ho⟩ := hrec (hw.apply (.array (ns.record x.sec) (ns.record_kind x.sec)))
      (hl.apply hw.sized _)
    exact ⟨hl', ho.trans (Op.obj?_of_untouched hw.sized (array_untouched hl _ _))⟩
  · exact hrec hw hl

end Frames

/-! ## The map of a record -/

/-- The data of a record behind a reference. -/
def Property.DataAt (q : Property) (ns : NameService) (base totalLen : Nat) :
    Option (Nat × Nat × Nat) → Ref → Prop
  | none, r => r = .none
  | some (p, len, ty), r => ∃ (h : Handle) (c : Cell), r = .obj h ∧ h.param = ns.data ∧ q.Live h ∧
      q.obj? h = some ⟨c.set (.pkt p) len, .nsData ty base totalLen⟩

/-- The map of a record, with its name and its type. -/
structure Property.RecordAt (q : Property) (ns : NameService) (base totalLen : Nat) (x : RecSpan)
    (h hn ht : Handle) : Prop where
  params : h.param = ns.records ∧ hn.param = ns.name ∧ ht.param = ns.type
  live : q.Live h ∧ q.Live hn ∧ q.Live ht
  map : ∃ (c : Cell) (r : Ref), q.obj? h = some ⟨c, .nsRecord (.obj hn) (.obj ht) r⟩ ∧
    q.DataAt ns base totalLen x.data r
  name : ∃ c : Cell, q.obj? hn = some ⟨c.set (.pkt x.ptr) x.remain, .nsName base totalLen⟩
  type : ∃ o : Obj, q.obj? ht = some o ∧
    ∀ p, x.type = some p → ∃ c : Cell, o.cell = c.set (.pkt p) 2

section Record

variable {q q' : Property} {ns : NameService} {x : RecSpan} {h hn ht : Handle} {base totalLen : Nat}

/-- What keeps the values of the record classes keeps a record. -/
theorem Property.RecordAt.keep (hx : q.RecordAt ns base totalLen x h hn ht)
    (hkeep : ∀ i, q.Live i → i.param ∈ [ns.records, ns.name, ns.type, ns.data] →
      q'.Live i ∧ q'.obj? i = q.obj? i) : q'.RecordAt ns base totalLen x h hn ht := by
  obtain ⟨⟨hp, hpn, hpt⟩, ⟨hl, hln, hlt⟩, ⟨c, r, ho, hdata⟩, ⟨cn, hcn⟩, o, hot, htype⟩ := hx
  obtain ⟨hl', ho'⟩ := hkeep h hl (by simp [hp])
  obtain ⟨hln', hon'⟩ := hkeep hn hln (by simp [hpn])
  obtain ⟨hlt', hot'⟩ := hkeep ht hlt (by simp [hpt])
  refine ⟨⟨hp, hpn, hpt⟩, ⟨hl', hln', hlt'⟩, ⟨c, r, ho'.trans ho, ?_⟩, ⟨cn, hon'.trans hcn⟩, o,
    hot'.trans hot, htype⟩
  cases hd : x.data with
  | none =>
    rw [hd] at hdata
    exact hdata
  | some d =>
    rw [hd] at hdata
    obtain ⟨hd', cd, hr, hpd, hld, hod⟩ := hdata
    obtain ⟨hld', hod'⟩ := hkeep hd' hld (by simp [hpd])
    exact ⟨hd', cd, hr, hpd, hld', hod'.trans hod⟩

/-- A new record, before its type and its data are set. -/
theorem recordAt_new (hw : q.WF) (x : RecSpan) :
    ((Op.record ns x.sec x.ptr x.remain base totalLen).apply q).RecordAt ns base totalLen
      { x with type := none, data := none } (q.next ns.records) (q.next ns.name) (q.next ns.type) := by
  have hs := hw.sized
  obtain ⟨name, type, hfresh⟩ := (hw.fresh ns.records).nsRecord ns.records_kind
  have hlive : ∀ d ∈ [ns.records, ns.name, ns.type],
      ((Op.record ns x.sec x.ptr x.remain base totalLen).apply q).Live (q.next d) :=
    fun d hd => Property.Live.next hs hd
  refine ⟨⟨rfl, rfl, rfl⟩, ⟨hlive _ (by simp), hlive _ (by simp), hlive _ (by simp)⟩,
    ⟨(q.fresh ns.records).cell, .none, ?_, rfl⟩, ⟨(q.fresh ns.name).cell, ?_⟩, q.fresh ns.type, ?_,
    fun p hp => by cases hp⟩
  · rw [Touch.obj?_apply hs (.recordMap ns), Obj.recName, hfresh]
    rfl
  · exact Touch.obj?_apply hs (.recordName ns)
  · exact Touch.obj?_apply hs (.recordType ns)

/-- The type of the record is set. -/
theorem Property.RecordAt.setType (hw : q.WF) (hx : q.RecordAt ns base totalLen x h hn ht)
    (hlast : ht = q.last ns.type) (p : Nat) :
    ((Op.type ns p 2).apply q).RecordAt ns base totalLen { x with type := some p } h hn ht := by
  have hs := hw.sized
  have hkeep : ∀ i, q.Live i → i.param ≠ ns.type →
      ((Op.type ns p 2).apply q).obj? i = q.obj? i := fun i hl hp =>
    Op.obj?_of_untouched hs (if_neg (ne_last hp))
  obtain ⟨hrn, hrt, hnt, hdr, -⟩ := ns.ne
  obtain ⟨⟨hp, hpn, hpt⟩, ⟨hl, hln, hlt⟩, ⟨c, r, ho, hdata⟩, ⟨cn, hcn⟩, o, hot, -⟩ := hx
  refine ⟨⟨hp, hpn, hpt⟩, ⟨hl.apply hs _, hln.apply hs _, hlt.apply hs _⟩, ⟨c, r, ?_, ?_⟩, ⟨cn, ?_⟩,
    o.set (.pkt p) 2, ?_, ?_⟩
  · rw [hkeep h hl (by rw [hp]; exact hrt), ho]
  · cases hd : x.data with
    | none =>
      rw [hd] at hdata
      exact hdata
    | some d =>
      rw [hd] at hdata
      obtain ⟨hd', cd, hr, hpd, hld, hod⟩ := hdata
      refine ⟨hd', cd, hr, hpd, hld.apply hs _, ?_⟩
      rw [hkeep hd' hld (by rw [hpd]; exact ns.data_ne.2.1), hod]
  · rw [hkeep hn hln (by rw [hpn]; exact hnt), hcn]
  · rw [hlast]
    exact Touch.obj?_apply hs (.type ns (hlast ▸ hot))
  · rintro p' ⟨⟩
    exact ⟨o.cell, rfl⟩

/-- The data of the record are set. -/
theorem Property.RecordAt.setData (hw : q.WF) (hx : q.RecordAt ns base totalLen x h hn ht)
    (hlast : h = q.last ns.records) (p len ty : Nat) :
    ((Op.data ns p len ty base totalLen).apply q).RecordAt ns base totalLen
      { x with data := some (p, len, ty) } h hn ht := by
  have hs := hw.sized
  have hkeep : ∀ i, q.Live i → i.param ≠ ns.records →
      ((Op.data ns p len ty base totalLen).apply q).obj? i = q.obj? i := fun i hl hp =>
    Op.obj?_of_untouched hs (by simp only [Op.touch, hl.ne_next, ne_last hp, if_false])
  obtain ⟨hrn, hrt, hnt, hdr, -⟩ := ns.ne
  obtain ⟨⟨hp, hpn, hpt⟩, ⟨hl, hln, hlt⟩, ⟨c, r, ho, hdata⟩, ⟨cn, hcn⟩, o, hot, htype⟩ := hx
  refine ⟨⟨hp, hpn, hpt⟩, ⟨hl.apply hs _, hln.apply hs _, hlt.apply hs _⟩,
    ⟨c, .obj (q.next ns.data), ?_, q.next ns.data, (q.fresh ns.data).cell, rfl, rfl,
      Property.Live.next hs (by simp [Op.retains]), ?_⟩, ⟨cn, ?_⟩, o, ?_, htype⟩
  · rw [hlast]
    exact Touch.obj?_apply hs (.dataMap ns (hlast ▸ ho))
  · exact Touch.obj?_apply hs (.data ns)
  · rw [hkeep hn hln (by rw [hpn]; exact hrn.symm), hcn]
  · rw [hkeep ht hlt (by rw [hpt]; exact hrt.symm), hot]

/-- **A new record is complete behind its calls.** -/
theorem RecSpan.recordAt (hw : q.WF) (x : RecSpan) :
    (q.exec (.record ns x.sec x.ptr x.remain base totalLen :: x.body ns base totalLen)).RecordAt ns
      base totalLen x (q.next ns.records) (q.next ns.name) (q.next ns.type) := by
  obtain ⟨sec, first, ptr, remain, type, data⟩ := x
  have hdata : ∀ {q' : Property} {type : Option Nat}, q'.WF → q'.last ns.records = q.next ns.records →
      q'.RecordAt ns base totalLen ⟨sec, first, ptr, remain, type, none⟩ (q.next ns.records)
        (q.next ns.name) (q.next ns.type) →
      (q'.exec (data.toList.map fun d => .data ns d.1 d.2.1 d.2.2 base totalLen)).RecordAt ns base
        totalLen ⟨sec, first, ptr, remain, type, data⟩ (q.next ns.records) (q.next ns.name)
        (q.next ns.type) := by
    intro q' type hw' hlast hx
    rcases data with _ | ⟨p, len, ty⟩
    · exact hx
    · exact hx.setData hw' hlast.symm p len ty
  have hs := hw.sized
  have hw1 := hw.apply (.record ns sec ptr remain base totalLen)
  have hnew : ((Op.record ns sec ptr remain base totalLen).apply q).RecordAt ns base totalLen
      ⟨sec, first, ptr, remain, none, none⟩ (q.next ns.records) (q.next ns.name) (q.next ns.type) :=
    recordAt_new hw ⟨sec, first, ptr, remain, type, data⟩
  have hrec : ((Op.record ns sec ptr remain base totalLen).apply q).last ns.records
      = q.next ns.records := last_apply hs (by simp [Op.retains])
  have htype : ((Op.record ns sec ptr remain base totalLen).apply q).last ns.type
      = q.next ns.type := last_apply hs (by simp [Op.retains])
  rcases type with _ | p
  · exact hdata hw1 hrec hnew
  · refine hdata (hw1.apply (.type ns p 2)) ?_ (hnew.setType hw1 htype.symm p)
    rw [last_keep hw1.sized (by simp [Op.retains]), hrec]

end Record

/-! ## The sections -/

/-- Some values of a record. -/
def Property.HasRecord (q : Property) (ns : NameService) (base totalLen : Nat) (x : RecSpan)
    (h : Handle) : Prop :=
  ∃ hn ht, q.RecordAt ns base totalLen x h hn ht

/-- **What a section holds**: no array for no records, and else one with the maps of its records. -/
inductive Property.SectionHolds (q : Property) (ns : NameService) (base totalLen t : Nat) :
    List RecSpan → Prop
  | absent (hc : q.count (ns.record t) = 0) : SectionHolds q ns base totalLen t []
  | present {xs : List RecSpan} {items : List Handle} (hne : xs ≠ []) (hc : q.count (ns.record t) = 1)
    (harr : q.ArrayAt (ns.record t) items)
    (hall : List.Forall₂ (q.HasRecord ns base totalLen) xs items) : SectionHolds q ns base totalLen t xs

section Sections

variable {q : Property} {ns : NameService} {mod : Mod} {x : RecSpan} {xs : List RecSpan}
  {base totalLen t : Nat}

/-- The calls for a record retain its array when it is the first. -/
theorem RecSpan.count (base totalLen : Nat) (hns : ns.In mod) (hs : q.Sized) (hx : x.sec < 4)
    (ht : t < 4) :
    (q.exec (x.ops ns base totalLen)).count (ns.record t)
      = q.count (ns.record t) + if x.first = true ∧ x.sec = t then 1 else 0 := by
  obtain ⟨-, -, -, -, hrec⟩ := ns.ne
  obtain ⟨-, -, hdata⟩ := ns.data_ne
  have hbody : (retained (.record ns x.sec x.ptr x.remain base totalLen
      :: x.body ns base totalLen)).count (ns.record t) = 0 := by
    refine List.count_eq_zero_of_not_mem ?_
    obtain ⟨sec, first, ptr, remain, type, data⟩ := x
    obtain ⟨h1, h2, h3⟩ := hrec t
    rcases type with _ | p <;> rcases data with _ | d <;>
      simp [retained, RecSpan.body, Op.retains, h1, h2, h3, hdata t]
  rw [count_exec hs, RecSpan.ops, retained_append, List.count_append, hbody]
  congr 1
  cases hf : x.first with
  | false => simp [retained]
  | true =>
    by_cases hsec : x.sec = t
    · simp [retained, Op.retains, hsec]
    · have hne : ns.record x.sec ≠ ns.record t := fun he => hsec (hns.record_inj _ hx _ ht he)
      simp [retained, Op.retains, hsec, hne]

/-- The calls for a record keep the records that are there. -/
theorem RecSpan.keeps_records (hw : q.WF) (x : RecSpan) {items : List Handle}
    (hall : List.Forall₂ (q.HasRecord ns base totalLen) xs items) :
    List.Forall₂ ((q.exec (x.ops ns base totalLen)).HasRecord ns base totalLen) xs items := by
  refine hall.imp fun y h => ?_
  rintro ⟨hn, ht, hy⟩
  refine ⟨hn, ht, hy.keep fun i hl hi => x.keeps ns base totalLen hw hl ?_⟩
  obtain ⟨-, -, -, -, hrec⟩ := ns.ne
  obtain ⟨-, -, hdata⟩ := ns.data_ne
  obtain ⟨h1, h2, h3⟩ := hrec x.sec
  simp only [List.mem_cons, List.not_mem_nil, or_false] at hi
  rcases hi with hi | hi | hi | hi <;> rw [hi]
  · exact h1.symm
  · exact h2.symm
  · exact h3.symm
  · exact (hdata x.sec).symm

/-- A record of another section leaves a section as it is. -/
theorem Property.SectionHolds.other (hns : ns.In mod) (hw : q.WF) (hx : x.sec < 4) (ht : t < 4)
    (hne : x.sec ≠ t) (h : q.SectionHolds ns base totalLen t xs) :
    (q.exec (x.ops ns base totalLen)).SectionHolds ns base totalLen t xs := by
  have hcount : (q.exec (x.ops ns base totalLen)).count (ns.record t) = q.count (ns.record t) := by
    rw [RecSpan.count base totalLen hns hw.sized hx ht, if_neg (fun hc => hne hc.2), Nat.add_zero]
  cases h with
  | absent hc => exact .absent (hcount.trans hc)
  | present hxs hc harr hall =>
    obtain ⟨hpos, c, ho⟩ := harr
    have hparam : ns.record t ≠ ns.record x.sec := fun he => hne (hns.record_inj _ hx _ ht he.symm)
    obtain ⟨-, ho'⟩ := x.keeps ns base totalLen hw (h := ⟨ns.record t, 0⟩) hpos hparam
    exact .present hxs (hcount.trans hc) ⟨hcount ▸ hpos, c, ho'.trans ho⟩ (x.keeps_records hw hall)

/-- The map of a record is pushed to the array of its section. -/
theorem RecSpan.push (hw : q.WF) (x : RecSpan) {items : List Handle}
    (harr : q.ArrayAt (ns.record x.sec) items) (hone : q.count (ns.record x.sec) = 1) :
    (q.exec (.record ns x.sec x.ptr x.remain base totalLen :: x.body ns base totalLen)).ArrayAt
      (ns.record x.sec) (items ++ [q.next ns.records]) := by
  have hs := hw.sized
  obtain ⟨hpos, c, ho⟩ := harr
  obtain ⟨-, -, -, -, hrec⟩ := ns.ne
  obtain ⟨h1, h2, h3⟩ := hrec x.sec
  have hlast : q.last (ns.record x.sec) = ⟨ns.record x.sec, 0⟩ := by
    rw [Property.last, hone]
  have hpush : ((Op.record ns x.sec x.ptr x.remain base totalLen).apply q).obj? ⟨ns.record x.sec, 0⟩
      = some (Obj.push (q.next ns.records) ⟨c, .array items⟩) := by
    have ht : Touch q (.record ns x.sec x.ptr x.remain base totalLen) (q.last (ns.record x.sec)) _ :=
      .recordArray ns (hlast ▸ ho)
    rw [hlast] at ht
    exact Touch.obj?_apply hs ht
  have hlive : q.Live ⟨ns.record x.sec, 0⟩ := hpos
  obtain ⟨hl, hkeep⟩ := body_keeps ns base totalLen
    (hw.apply (.record ns x.sec x.ptr x.remain base totalLen)) x (hlive.apply hs _)
    (ne_last h3) (ne_last h1)
  exact ⟨hl, c, hkeep.trans hpush⟩

/-- **A record of the section itself is pushed to its array**, which is new when it is the first. -/
theorem Property.SectionHolds.own (hns : ns.In mod) (hw : q.WF) (hx : x.sec < 4)
    (hfirst : x.first = true ↔ xs = []) (h : q.SectionHolds ns base totalLen x.sec xs) :
    (q.exec (x.ops ns base totalLen)).SectionHolds ns base totalLen x.sec (xs ++ [x]) := by
  have hcount := RecSpan.count base totalLen hns hw.sized hx hx
  -- from the array on, the calls are the same for a first record and a further one
  obtain ⟨q0, items, hw0, hops, harr, hone, hall, hone'⟩ : ∃ (q0 : Property) (items : List Handle),
      q0.WF ∧ q.exec (x.ops ns base totalLen) = q0.exec
        (.record ns x.sec x.ptr x.remain base totalLen :: x.body ns base totalLen) ∧
      q0.ArrayAt (ns.record x.sec) items ∧ q0.count (ns.record x.sec) = 1 ∧
      List.Forall₂ ((q.exec (x.ops ns base totalLen)).HasRecord ns base totalLen) xs items ∧
      (q.exec (x.ops ns base totalLen)).count (ns.record x.sec) = 1 := by
    cases hf : x.first with
    | true =>
      obtain rfl := hfirst.mp hf
      have hc : q.count (ns.record x.sec) = 0 := by
        cases h with
        | absent hc => exact hc
        | present hxs => exact absurd rfl hxs
      refine ⟨(Op.array (ns.record x.sec) (ns.record_kind x.sec)).apply q, [], hw.apply _, ?_,
        arrayAt_array hw (ns.record_kind x.sec) hc, ?_, .nil, ?_⟩
      · rw [RecSpan.ops, if_pos hf]
        rfl
      · rw [Op.count_apply hw.sized, if_pos (by simp [Op.retains]), hc]
      · rw [hcount, hc, if_pos ⟨hf, rfl⟩]
    | false =>
      have hne : xs ≠ [] := fun he => by
        rw [hfirst.mpr he] at hf
        cases hf
      cases h with
      | absent => exact absurd rfl hne
      | present hxs hc harr hall =>
        refine ⟨q, _, hw, ?_, harr, hc, x.keeps_records hw hall, ?_⟩
        · rw [RecSpan.ops, if_neg (by simp [hf])]
          rfl
        · rw [hcount, hc, if_neg (by simp [hf])]
  have hnew : (q.exec (x.ops ns base totalLen)).HasRecord ns base totalLen x (q0.next ns.records) := by
    rw [hops]
    exact ⟨_, _, x.recordAt hw0⟩
  exact .present (by simp) hone' (hops ▸ x.push hw0 harr hone)
    (List.rel_append hall (.cons hnew .nil))

/-- The records so far are those of the sections up to `target`, and of this one some iff it has its
array. -/
structure Behind (xs : List RecSpan) (target : Nat) (arr : Bool) : Prop where
  le : ∀ x ∈ xs, x.sec ≤ target
  arr : arr = true ↔ ∃ x ∈ xs, x.sec = target

/-- **What the sections hold after the calls for further records.** -/
theorem sections_run (hns : ns.In mod) {target : Nat} {arr : Bool} {ys : List RecSpan} (hw : q.WF)
    (hb : Behind xs target arr) (hc : Chain target arr ys)
    (h : ∀ t < 4, q.SectionHolds ns base totalLen t (xs.filter (·.sec = t))) :
    ∀ t < 4, (q.exec (ys.flatMap (RecSpan.ops ns base totalLen))).SectionHolds ns base totalLen t
      ((xs ++ ys).filter (·.sec = t)) := by
  induction hc generalizing q xs with
  | nil => simpa [Property.exec] using h
  | @cons target arr x ys h4 hx hxs ih =>
    have hfirst : x.first = true ↔ xs.filter (·.sec = x.sec) = [] := by
      simp only [List.filter_eq_nil_iff, decide_eq_true_eq]
      rcases hx with ⟨hsec, hf⟩ | ⟨hlt, hf⟩
      · rw [hf, hsec, Bool.not_eq_true', Bool.eq_false_iff, ne_eq, hb.arr]
        simp only [not_exists, not_and]
      · refine iff_of_true hf fun y hy he => ?_
        have := hb.le y hy
        omega
    have hbehind : Behind (xs ++ [x]) x.sec true := by
      refine ⟨?_, iff_of_true rfl ⟨x, by simp, rfl⟩⟩
      intro y hy
      rcases List.mem_append.mp hy with hy | hy
      · have := hb.le y hy
        rcases hx with ⟨hsec, -⟩ | ⟨hlt, -⟩ <;> omega
      · obtain rfl := List.mem_singleton.mp hy
        exact Nat.le_refl _
    have hstep : ∀ t < 4, (q.exec (x.ops ns base totalLen)).SectionHolds ns base totalLen t
        ((xs ++ [x]).filter (·.sec = t)) := by
      intro t ht
      rw [List.filter_append]
      by_cases hsec : x.sec = t
      · subst hsec
        simpa using (h _ h4).own hns hw h4 hfirst
      · simpa [hsec] using (h t ht).other hns hw h4 ht hsec
    intro t ht
    have hrun := ih (hw.exec _) hbehind hstep t ht
    rw [List.append_assoc] at hrun
    rw [List.flatMap_cons, Property.exec_append]
    exact hrun

/-- The sections after all records of a message, for a property without an array. -/
theorem sections_message (hns : ns.In mod) (hw : q.WF) (hc : ∀ t < 4, q.count (ns.record t) = 0)
    (hxs : Chain 0 false xs) {t : Nat} (ht : t < 4) :
    (q.exec (xs.flatMap (RecSpan.ops ns base totalLen))).SectionHolds ns base totalLen t
      (xs.filter (·.sec = t)) := by
  have hb : Behind [] 0 false := ⟨by simp, by simp⟩
  exact sections_run hns hw hb hxs (fun t ht => .absent (hc t ht)) t ht

/-- The calls for the header retain no array. -/
theorem count_head (hs : q.Sized) (t p : Nat) (isQ : Bool) :
    (q.exec (ns.headCalls p isQ)).count (ns.record t) = q.count (ns.record t) := by
  have hne : ns.txId ≠ ns.record t ∧ ns.isQuery ≠ ns.record t := by
    refine ⟨fun he => ?_, fun he => ?_⟩
    · have hk := ns.txId_kind
      rw [he, ns.record_kind] at hk
      cases hk
    · have hk := ns.isQuery_kind
      rw [he, ns.record_kind] at hk
      cases hk
  rw [count_exec hs, List.count_eq_zero_of_not_mem (by
    simp [NameService.headCalls, retained, Op.retains, hne.1.symm, hne.2.symm]), Nat.add_zero]

/-- The sections after all calls of a message. -/
theorem sections_decode (hns : ns.In mod) (hw : q.WF) (hc : ∀ t < 4, q.count (ns.record t) = 0)
    (hxs : Chain 0 false xs) (p : Nat) (isQ : Bool) {t : Nat} (ht : t < 4) :
    (q.exec (ns.headCalls p isQ ++ xs.flatMap (RecSpan.ops ns base totalLen))).SectionHolds ns base
      totalLen t (xs.filter (·.sec = t)) := by
  rw [Property.exec_append]
  have hcount : ∀ u < 4, (q.exec (ns.headCalls p isQ)).count (ns.record u) = 0 := fun u hu =>
    (count_head hw.sized u p isQ).trans (hc u hu)
  exact sections_message hns (hw.exec _) hcount hxs ht

end Sections

/-! ## The loop -/

section Scan

variable {m : Mem} {ns : NameService} {base totalLen : Nat} {counts : List Nat}

/-- The data of a record lie in the message, and their type is the one of the record. -/
def Typed (m : Mem) (base totalLen : Nat) (type : Option Nat) (data : Option (Nat × Nat × Nat)) :
    Prop :=
  ∀ p len ty, data = some (p, len, ty) → p + len ≤ base + 12 + totalLen ∧
    ∃ p', type = some p' ∧ m.u16 p' = .ok ty

theorem typed_none (type : Option Nat) : Typed m base totalLen type none := by
  rintro p len ty ⟨⟩

/-- What the part of a round behind the name finds. -/
theorem recordBody_scan {hasData : Bool} {ptr : Nat} :
    Ensures (recordBody ns m base totalLen hasData ptr) fun r => ∃ type data,
      (∀ sec first p remain, r.1 = RecSpan.body ns base totalLen ⟨sec, first, p, remain, type, data⟩) ∧
        Typed m base totalLen type data := by
  unfold recordBody
  dsimp only
  split
  · exact ensures_pure ⟨none, none, fun _ _ _ _ => rfl, typed_none _⟩
  · split
    · exact ensures_pure ⟨none, none, fun _ _ _ _ => rfl, typed_none _⟩
    · split
      · exact ensures_pure ⟨some ptr, none, fun _ _ _ _ => rfl, typed_none _⟩
      · split
        · exact ensures_pure ⟨some ptr, none, fun _ _ _ _ => rfl, typed_none _⟩
        · refine ensures_bind fun rdLen => ?_
          split
          · exact ensures_pure ⟨some ptr, none, fun _ _ _ _ => rfl, typed_none _⟩
          · rename_i hrd
            refine Ensures.bind (P := fun ty => m.u16 ptr = .ok ty) (fun _ h => h) fun ty hty => ?_
            refine ensures_pure
              ⟨some ptr, some (ptr + 4 + 6, rdLen, ty), fun _ _ _ _ => rfl, ?_⟩
            rintro p' len ty' ⟨⟩
            exact ⟨by omega, ptr, rfl, hty⟩

/-- The calls for the array of a section. -/
theorem sectionArray_eq (t : Nat) (arr : Bool) :
    sectionArray ns t arr
      = .ok (if !arr then [Op.array (ns.record t) (ns.record_kind t)] else []) := by
  unfold sectionArray
  cases arr with
  | true => rfl
  | false => exact dif_pos (ns.record_kind t)

/-- **The loop makes the calls of some records, in the order of the sections.** -/
theorem recordLoop_scan (hc : counts.length = 4) (left : Nat) {c target rrC ptr : Nat} {arr : Bool} :
    Ensures (recordLoop ns m base totalLen counts left c target rrC arr ptr) fun r =>
      ∃ xs, r.1 = xs.flatMap (RecSpan.ops ns base totalLen) ∧ Chain target arr xs ∧
        ∀ x ∈ xs, Typed m base totalLen x.type x.data := by
  induction left generalizing c target rrC ptr arr with
  | zero => exact ensures_ok ⟨[], rfl, .nil, by simp⟩
  | succ left ih =>
    unfold recordLoop
    refine (nextTarget_moves 5).bind ?_
    rintro ⟨t, rrC', arr'⟩ ⟨hlt, hm⟩
    dsimp only at hlt hm ⊢
    split
    · exact ensures_pure ⟨[], rfl, .nil, by simp⟩
    · have hchain : ∀ type data {xs}, Chain t true xs → Chain target arr
          (⟨t, !arr', ptr, base + 12 + totalLen - ptr, type, data⟩ :: xs) :=
        fun type data xs hxs => hxs.next (hc ▸ hlt) hm rfl rfl
      rw [sectionArray_eq]
      refine Ensures.bind (ensures_ok rfl) fun arrOps harr => ?_
      subst harr
      refine ensures_bind fun label => ?_
      split
      · refine ensures_pure ⟨[⟨t, !arr', ptr, base + 12 + totalLen - ptr, none, none⟩], ?_,
          hchain none none .nil, by simpa using typed_none _⟩
        simp [RecSpan.ops, RecSpan.body]
      · refine recordBody_scan.bind ?_
        rintro ⟨body, ok | ptr'⟩ ⟨type, data, hbody, htyped⟩
        · refine ensures_pure ⟨[⟨t, !arr', ptr, base + 12 + totalLen - ptr, type, data⟩], ?_,
            hchain type data .nil, by simpa using htyped⟩
          simp [RecSpan.ops, ← hbody]
        · refine ih.bind ?_
          rintro ⟨rest, ok⟩ ⟨xs, rfl, hxs, hall⟩
          refine ensures_pure ⟨⟨t, !arr', ptr, base + 12 + totalLen - ptr, type, data⟩ :: xs, ?_,
            hchain type data hxs, List.forall_mem_cons.mpr ⟨htyped, hall⟩⟩
          simp [RecSpan.ops, ← hbody]

end Scan

/-! ## What a user reads of a record -/

section Reading

variable {q : Property} {ns : NameService} (ntop6 : List UInt8 → Text) (m : Mem) {x : RecSpan}
  {xs : List RecSpan} {items : List Handle} {base totalLen t i : Nat}

/-- What a user sees of `value::NONE` and of `Property::null_`. -/
def noneLook : Look := Cell.look ntop6 m {} (.ok []) 0

/-- The number of records of a section. -/
theorem Property.SectionHolds.size (h : q.SectionHolds ns base totalLen t xs) :
    ∃ v, q.observe ntop6 m (.param (ns.record t)) [] = .ok (some v) ∧ v.size = xs.length := by
  cases h with
  | absent hc =>
    refine ⟨noneLook ntop6 m, ?_, rfl⟩
    rw [Property.observe, Property.value, if_neg (by omega)]
    rfl
  | present hne hc harr hall =>
    obtain ⟨v, hv, hsize⟩ := harr.size ntop6 m
    exact ⟨v, hv, hsize.trans hall.length_eq.symm⟩

/-- A section with a record has its array. -/
theorem Property.SectionHolds.get (h : q.SectionHolds ns base totalLen t xs) (hi : xs[i]? = some x) :
    ∃ items h, q.ArrayAt (ns.record t) items ∧ items[i]? = some h ∧
      q.HasRecord ns base totalLen x h := by
  cases h with
  | absent => cases hi
  | @present _ items hne hc harr hall =>
    obtain ⟨hlen, hget⟩ := List.forall₂_iff_get.mp hall
    obtain ⟨hlt, rfl⟩ := List.getElem?_eq_some_iff.mp hi
    exact ⟨items, _, harr, List.getElem?_eq_getElem (hlen ▸ hlt), hget i hlt (hlen ▸ hlt)⟩

/-- Where a user finds a value, the section has a record. -/
theorem Property.SectionHolds.of_find (h : q.SectionHolds ns base totalLen t xs) {key : String}
    {v : Look}
    (hv : q.observe ntop6 m (.param (ns.record t)) [.get i, .find key] = .ok (some v)) :
    ∃ x, xs[i]? = some x := by
  cases h with
  | absent hc =>
    rw [Property.observe, Property.value, if_neg (by omega)] at hv
    cases hv
  | @present _ items hne hc harr hall =>
    have hlt := harr.lt_length ntop6 m hv
    rw [← hall.length_eq] at hlt
    exact ⟨_, List.getElem?_eq_getElem hlt⟩

/-- **The name of a record** is the text that is parsed at its position. -/
theorem Property.SectionHolds.name (h : q.SectionHolds ns base totalLen t xs) (hi : xs[i]? = some x)
    {pos : Nat} {text : Text}
    (htext : parseLabel m x.ptr x.remain base totalLen (some []) = .ok (some pos, some text)) :
    ∃ v, q.observe ntop6 m (.param (ns.record t)) [.get i, .find "name"] = .ok (some v) ∧
      v.repr = .ok text := by
  obtain ⟨items, h, harr, hitem, hn, ht, hx⟩ := h.get hi
  obtain ⟨c, r, ho, -⟩ := hx.map
  obtain ⟨cn, hcn⟩ := hx.name
  refine (harr.field ntop6 m hitem ho "name" rfl hcn _).mpr ?_
  show q.repr ntop6 m 3 (.obj hn) = .ok text
  simp only [Property.repr, hcn, Obj.leafRepr, nsNameRepr, Cell.start, Cell.set, bind, Except.bind,
    htext]
  rfl

/-- **The type of a record** is the number at its position. -/
theorem Property.SectionHolds.type_iff (h : q.SectionHolds ns base totalLen t xs) (hi : xs[i]? = some x)
    {p : Nat} (hp : x.type = some p) (n : Nat) :
    (∃ v, q.observe ntop6 m (.param (ns.record t)) [.get i, .find "type"] = .ok (some v) ∧
      v.uint64 = .ok n) ↔ m.u16 p = .ok n := by
  obtain ⟨items, h, harr, hitem, hn, ht, hx⟩ := h.get hi
  obtain ⟨c, r, ho, -⟩ := hx.map
  obtain ⟨o, hot, htype⟩ := hx.type
  obtain ⟨ct, hct⟩ := htype p hp
  rw [harr.field ntop6 m hitem ho "type" rfl hot, ← uint64_word_iff m ct, ← hct]
  rfl

/-- A record without data shows `value::NONE`. -/
theorem Property.SectionHolds.no_data (h : q.SectionHolds ns base totalLen t xs) (hi : xs[i]? = some x)
    (hd : x.data = none) :
    q.observe ntop6 m (.param (ns.record t)) [.get i, .find "data"]
      = .ok (some (noneLook ntop6 m)) := by
  obtain ⟨items, h, harr, hitem, hn, ht, hx⟩ := h.get hi
  obtain ⟨c, r, ho, hdata⟩ := hx.map
  rw [hd] at hdata
  obtain rfl : r = .none := hdata
  exact harr.find ntop6 m hitem ho "data" rfl (by simp)

/-- **The data of a record** are the range that was set. -/
theorem Property.SectionHolds.data_iff (h : q.SectionHolds ns base totalLen t xs) (hi : xs[i]? = some x)
    {p len ty : Nat} (hd : x.data = some (p, len, ty)) :
    ∃ c : Cell, ∀ P : Look → Prop,
      (∃ v, q.observe ntop6 m (.param (ns.record t)) [.get i, .find "data"] = .ok (some v) ∧ P v) ↔
        P ((c.set (.pkt p) len).look ntop6 m
          (nsDataRepr ntop6 m (c.set (.pkt p) len) ty base totalLen) 0) := by
  obtain ⟨items, h, harr, hitem, hn, ht, hx⟩ := h.get hi
  obtain ⟨c, r, ho, hdata⟩ := hx.map
  rw [hd] at hdata
  obtain ⟨hd', cd, rfl, -, -, hcd⟩ := hdata
  refine ⟨cd, fun P => ?_⟩
  rw [harr.field ntop6 m hitem ho "data" rfl hcd]
  have hrepr : q.repr ntop6 m 3 (.obj hd')
      = nsDataRepr ntop6 m (cd.set (.pkt p) len) ty base totalLen := by
    simp only [Property.repr, hcd, Obj.leafRepr]
    rfl
  rw [hrepr]
  rfl

/-- The range of the data of a record. -/
theorem Property.SectionHolds.data_span (h : q.SectionHolds ns base totalLen t xs)
    (hi : xs[i]? = some x) {hd : Handle} {off len : Nat}
    (hwalk : q.walk (.obj ⟨ns.record t, 0⟩) [.get i, .find "data"] = .ok (some (.obj hd)))
    (hset : q.SetTo hd off len) : ∃ ty, x.data = some (off, len, ty) := by
  obtain ⟨items, h, harr, hitem, hn, ht, hx⟩ := h.get hi
  obtain ⟨c, r, ho, hdata⟩ := hx.map
  rcases hd' : x.data with _ | ⟨p, len', ty⟩
  · rw [hd'] at hdata
    obtain rfl := hdata
    cases (harr.walk hitem ho "data" rfl (by simp)).symm.trans hwalk
  · rw [hd'] at hdata
    obtain ⟨i', cd, rfl, -, -, hcd⟩ := hdata
    cases (harr.walk hitem ho "data" rfl (by simp)).symm.trans hwalk
    obtain ⟨c', e, hce⟩ := hset
    have hcell : cd.set (.pkt p) len' = c'.set (.pkt off) len :=
      congrArg Obj.cell (Option.some.inj (hcd.symm.trans hce))
    obtain rfl : p = off := Ptr.pkt.inj (congrArg Cell.ptr hcell)
    obtain rfl : len' = len := congrArg Cell.len hcell
    exact ⟨ty, rfl⟩

end Reading

end PacketMachine.Decode
