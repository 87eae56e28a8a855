import PacketMachine.Decode.Records
import PacketMachine.Decode.Name

/-!
# Names in the data of a record

`NSData::repr` has one branch for NS, CNAME, SOA, PTR, MX and SRV: it runs `parse_label` over the data
from their first byte on (`modules/utils.cc:371-391`). The name of an MX record stands behind a
preference, though, and the one of an SRV record behind three numbers, so that the first byte of these
is taken for the first byte of a name.

* `nameOffset` says where the name stands in the data, and `Property.ShowsRecord` what identifies a
  decoded record: the type that is shown, and the range of its data.
* `Coincides` are the data that are rendered as their name all the same.

Results:
* `nsDataRepr_iff`: the text for one of these types is that of the tree read from the first byte of the
  data on, and empty when there is none.
* **`rdata_name_iff`**: the name is rendered exactly for NS, CNAME and PTR, or by coincidence.
-/

namespace PacketMachine.Decode

open PacketMachine.Lib

/-! ## The calls of a message -/

/-- **The calls of a message** are those for its header and those for some records, in the order of the
sections. -/
theorem decode_scan (ns : NameService) (x : NsPayload) :
    ∃ s xs, ns.decode x.mem x.pd = .ok s ∧
      s.ops = ns.headCalls x.pd.ptr (!x.ra)
        ++ xs.flatMap (RecSpan.ops ns x.pd.ptr (x.pd.length - 12)) ∧
      Chain 0 false xs ∧ ∀ y ∈ xs, Typed x.mem x.pd.ptr (x.pd.length - 12) y.type y.data := by
  obtain ⟨pd, counts, ops, ok, -, hc, hloop, hdecode⟩ := nsDecode_loop ns x
  obtain ⟨xs, rfl, hchain, hall⟩ := recordLoop_scan hc _ _ hloop
  exact ⟨⟨pd, _, none⟩, xs, by rw [NameService.decode, hdecode]; rfl, rfl, hchain, hall⟩

/-- **A decoded record**: what is found under `type`, and the range that is found under `data`. -/
structure Property.ShowsRecord (q : Property) (ntop6 : List UInt8 → Text) (m : Mem) (ns : NameService)
    (t i type p : Nat) (rdata : List UInt8) : Prop where
  type : ∃ v, q.observe ntop6 m (.param (ns.record t)) [.get i, .find "type"] = .ok (some v) ∧
    v.uint64 = .ok type
  data : ∃ h, q.walk (.obj ⟨ns.record t, 0⟩) [.get i, .find "data"] = .ok (some (.obj h)) ∧
    q.SetTo h p rdata.length
  bytes : m.Holds p rdata

/-! ## The text of the data -/

/-- Where the name stands in the data of a record of a type. -/
def nameOffset : Nat → Option Nat
  | 2 => some 0
  | 5 => some 0
  | 12 => some 0
  | 15 => some 2
  | 33 => some 6
  | _ => none

/-- A tree that `parse_label` reads from a position on, within its bounds. -/
structure DomainName.Fits (m : Mem) (sp totalLen p len : Nat) (n : DomainName) : Prop where
  read : n.Read m sp p false
  size : n.size ≤ len
  bounds : n.InBounds totalLen
  weight : n.weight < 256

/-- **The data are rendered as the name by coincidence**: the name is the root, and they start with a zero
byte or with no name; or they start with another name, which has the same text. -/
inductive Coincides (m : Mem) (sp totalLen p : Nat) (front : List UInt8) (n : WireName) : Prop
  | root (hn : n.labels = [])
    (h : front.head? = some 0 ∨
      ∀ n', ¬ DomainName.Fits m sp totalLen p (front ++ n.bytes).length n')
  | other {n' : DomainName} (h0 : front.head? ≠ some 0)
    (h : n'.Fits m sp totalLen p (front ++ n.bytes).length) (htext : n'.text = n.text)

section Text

variable {m : Mem} {sp totalLen p len : Nat}

/-- The types whose data hold a name have it rendered by `parse_label`. -/
theorem nameOffset_cases {type k : Nat} (h : nameOffset type = some k) :
    ((type = 2 ∨ type = 5 ∨ type = 12) ∧ k = 0) ∨ ((type = 15 ∨ type = 33) ∧ 0 < k) := by
  unfold nameOffset at h
  split at h <;> cases h <;> simp

theorem WireName.text_eq_nil {n : WireName} : n.text = [] ↔ n.labels = [] := by
  rcases n with ⟨_ | ⟨l, ls⟩, hlabel, htotal⟩ <;> simp [WireName.text]

/-- **The text of data with a name** is that of the tree from their first byte on. -/
theorem nsDataRepr_iff (hsp : m.Has sp totalLen) (hp : m.Has p len) (ntop6 : List UInt8 → Text)
    (c : Cell) {type k : Nat} (hk : nameOffset type = some k) (text : Text) :
    nsDataRepr ntop6 m (c.set (.pkt p) len) type sp totalLen = .ok text ↔
      (∃ n : DomainName, n.Fits m sp totalLen p len ∧ n.text = text) ∨
        (text = [] ∧ ∀ n : DomainName, ¬ n.Fits m sp totalLen p len) := by
  obtain ⟨⟨pos, s⟩, hparse, -⟩ := parseLabel_returns hsp hp (some [])
  have hrepr : nsDataRepr ntop6 m (c.set (.pkt p) len) type sp totalLen
      = .ok (pos.elim [] fun _ => s.getD []) := by
    have ht := nameOffset_cases hk
    rw [nsDataRepr, if_neg (by omega), if_neg (by omega), if_pos (by omega)]
    simp only [Cell.start, Cell.set, bind, Except.bind, hparse]
    cases pos <;> rfl
  rw [hrepr]
  rcases pos with _ | pos
  · have hnone : ∀ n : DomainName, ¬ n.Fits m sp totalLen p len := by
      intro n hn
      have hsome : parseLabel m p len sp totalLen (some []) = .ok (some (p + n.size), some n.text) :=
        (parseLabel_iff hsp hp).mpr ⟨n, hn.read, hn.size, hn.bounds, hn.weight, rfl, rfl⟩
      rw [hparse] at hsome
      cases hsome
    constructor
    · intro h
      exact .inr ⟨(Except.ok.inj h).symm, hnone⟩
    · rintro (⟨n, hn, -⟩ | ⟨rfl, -⟩)
      · exact absurd hn (hnone n)
      · rfl
  · obtain ⟨n, hread, hsize, hbounds, hw, -, rfl⟩ := (parseLabel_iff hsp hp).mp hparse
    have hn : n.Fits m sp totalLen p len := ⟨hread, hsize, hbounds, hw⟩
    constructor
    · intro h
      exact .inl ⟨n, hn, Except.ok.inj h⟩
    · rintro (⟨n', hn', rfl⟩ | ⟨-, hnone⟩)
      · rw [hn'.read.unique hread]
        rfl
      · exact absurd hn (hnone n)

/-- A zero byte is read as the root. -/
theorem fits_root {front rest : List UInt8} (h : m.Holds p (front ++ rest))
    (h0 : front.head? = some 0) :
    DomainName.root.Fits m sp totalLen p (front ++ rest).length := by
  rcases front with _ | ⟨b, front⟩
  · cases h0
  · obtain rfl := Option.some.inj h0
    refine ⟨?_, ?_, trivial, by decide⟩
    · show m.u8 p = .ok 0
      rw [Mem.u8, h.1]
    · simp [DomainName.size]

/-- **When data with a name are rendered as the name.** -/
theorem nsDataRepr_name (hsp : m.Has sp totalLen) {front : List UInt8} {n : WireName}
    (hp : m.Holds p (front ++ n.bytes)) (ntop6 : List UInt8 → Text) (c : Cell) {type : Nat}
    (hk : nameOffset type = some front.length) :
    nsDataRepr ntop6 m (c.set (.pkt p) (front ++ n.bytes).length) type sp totalLen = .ok n.text ↔
      (type = 2 ∨ type = 5 ∨ type = 12) ∨ Coincides m sp totalLen p front n := by
  rw [nsDataRepr_iff hsp hp.has ntop6 c hk]
  rcases nameOffset_cases hk with ⟨htype, hfront⟩ | ⟨htype, hfront⟩
  · refine iff_of_true (.inl ?_) (.inl htype)
    obtain rfl := List.length_eq_zero_iff.mp hfront
    rw [List.nil_append] at hp ⊢
    obtain ⟨n', hread, hsize, hbounds, hw, -, htext⟩ := (parseLabel_iff hsp hp.has).mp
      (n.parsed hp (Nat.le_refl _) hp.has hsp (some []))
    exact ⟨n', ⟨hread, hsize, hbounds, hw⟩, (Option.some.inj htext).symm⟩
  · have hnot : ¬ (type = 2 ∨ type = 5 ∨ type = 12) := by omega
    rw [or_iff_right hnot]
    constructor
    · rintro (⟨n', hn', htext⟩ | ⟨htext, hnone⟩)
      · by_cases h0 : front.head? = some 0
        · have hroot : DomainName.root.Fits m sp totalLen p _ := fits_root hp h0
          rw [hn'.read.unique hroot.read] at htext
          exact .root (WireName.text_eq_nil.mp htext.symm) (.inl h0)
        · exact .other h0 hn' htext
      · exact .root (WireName.text_eq_nil.mp htext) (.inr hnone)
    · rintro (⟨hn, h0 | hnone⟩ | ⟨-, hn', htext⟩)
      · exact .inl ⟨.root, fits_root hp h0, (WireName.text_eq_nil.mpr hn).symm⟩
      · exact .inr ⟨WireName.text_eq_nil.mpr hn, hnone⟩
      · exact .inl ⟨_, hn', htext⟩

end Text

/-- **The name in the data of a decoded record is rendered exactly for NS, CNAME and PTR, or by
coincidence.** The payload is any that holds a message of DNS or mDNS, the record any of its records, and
the arrays of the sections were not yet retained. -/
theorem rdata_name_iff {ns : NameService} (hns : ns = dns ∨ ns = mdns) (ntop6 : List UInt8 → Text)
    (x : NsPayload) {q : Property} (hw : q.WF) (hc : ∀ t < 4, q.count (ns.record t) = 0) {s : Step}
    (hs : ns.decode x.mem x.pd = .ok s) {t i type p : Nat} (ht : t < 4) {front : List UInt8}
    {n : WireName} (hk : nameOffset type = some front.length)
    (hr : (q.exec s.ops).ShowsRecord ntop6 x.mem ns t i type p (front ++ n.bytes)) :
    (∃ v, (q.exec s.ops).observe ntop6 x.mem (.param (ns.record t)) [.get i, .find "data"]
        = .ok (some v) ∧ v.repr = .ok n.text) ↔
      (type = 2 ∨ type = 5 ∨ type = 12) ∨
        Coincides x.mem x.pd.ptr (x.pd.length - 12) p front n := by
  obtain ⟨mod, hin, -⟩ := service_in hns
  obtain ⟨s', xs, hs', hops, hchain, htyped⟩ := decode_scan ns x
  obtain rfl := Except.ok.inj (hs.symm.trans hs')
  have hsec : (q.exec s.ops).SectionHolds ns x.pd.ptr (x.pd.length - 12) t (xs.filter (·.sec = t)) := by
    rw [hops]
    exact sections_decode hin hw hc hchain _ _ ht
  obtain ⟨⟨v, hv, htype⟩, ⟨hd, hwalk, hset⟩, hbytes⟩ := hr
  -- the record that the loop has seen, and its type
  obtain ⟨y, hi⟩ := hsec.of_find ntop6 x.mem hv
  obtain ⟨ty, hdata⟩ := hsec.data_span hi hwalk hset
  obtain ⟨-, p', hp', hty⟩ := htyped y (List.mem_of_mem_filter (List.mem_of_getElem? hi)) _ _ _ hdata
  have hshown := (hsec.type_iff ntop6 x.mem hi hp' type).mp ⟨v, hv, htype⟩
  obtain rfl := Except.ok.inj (hty.symm.trans hshown)
  obtain ⟨c, hlook⟩ := hsec.data_iff ntop6 x.mem hi hdata
  have hwin := x.wf.window
  have hsp : x.mem.Has x.pd.ptr (x.pd.length - 12) := x.has.sub (Nat.zero_le _) (by omega)
  rw [hlook fun v => v.repr = .ok n.text]
  exact nsDataRepr_name hsp hbytes ntop6 c hk

/-- A message with one answer for "a.", of the given type, in front of its data. -/
def answerHead (type : UInt8) (rdata : List UInt8) : List UInt8 :=
  [0, 1, 0x84, 0, 0, 0, 0, 1, 0, 0, 0, 0, 1, 0x61, 0, 0, type, 0, 1, 0, 0, 0, 60, 0,
    UInt8.ofNat rdata.length]

/-- The message as the whole packet. -/
def answerPacket (type : UInt8) (rdata : List UInt8) (h : rdata.length < 256) : Packet where
  addr := 4096
  data := answerHead type rdata ++ rdata
  tv := ⟨0, 0⟩
  fits := by
    simp only [answerHead, List.length_append, List.length_cons, List.length_nil]
    omega

def answerPayload (type : UInt8) (rdata : List UInt8) (h : rdata.length < 256) : NsPayload where
  mem := (answerPacket type rdata h).mem
  pd := .reset (answerPacket type rdata h)
  wf := Payload.wf_reset _
  has := (answerPacket type rdata h).has_all
  header := by
    show 12 ≤ (answerHead type rdata ++ rdata).length
    simp only [answerHead, List.length_append, List.length_cons, List.length_nil]
    omega

theorem answer_holds (type : UInt8) (rdata : List UInt8) (h : rdata.length < 256) :
    (answerPayload type rdata h).mem.Holds 25 rdata :=
  (Mem.holds_append.mp (answerPacket type rdata h).holds).2

/-- The property after the message was decoded. -/
def answered (x : NsPayload) : Property :=
  match dns.decode x.mem x.pd with
  | .ok s => ({} : Property).exec s.ops
  | .error _ => {}

theorem answered_eq (x : NsPayload) :
    ∃ s, dns.decode x.mem x.pd = .ok s ∧ answered x = ({} : Property).exec s.ops := by
  obtain ⟨s, -, hs, -⟩ := decode_scan dns x
  exact ⟨s, hs, by rw [answered, hs]⟩

/-- The name "b.". -/
def nameB : WireName := ⟨[[0x62]], by decide, by decide⟩

/-- An alias for "b.". -/
def aliasAnswer : NsPayload := answerPayload 5 nameB.bytes (by decide)

theorem rdata_name_alias : ∃ s, dns.decode aliasAnswer.mem aliasAnswer.pd = .ok s ∧
    ((∃ v, (({} : Property).exec s.ops).observe (fun _ => []) aliasAnswer.mem (.param (dns.record 1))
        [.get 0, .find "data"] = .ok (some v) ∧ v.repr = .ok nameB.text) ↔
      (5 = 2 ∨ 5 = 5 ∨ 5 = 12) ∨
        Coincides aliasAnswer.mem aliasAnswer.pd.ptr (aliasAnswer.pd.length - 12) 25 [] nameB) := by
  obtain ⟨s, hs, hq⟩ := answered_eq aliasAnswer
  have hr : (answered aliasAnswer).ShowsRecord (fun _ => []) aliasAnswer.mem dns 1 0 5 25
      ([] ++ nameB.bytes) :=
    ⟨⟨_, rfl, rfl⟩, ⟨⟨.dnsData, 0⟩, by decide +kernel, {}, .nsData 5 0 16, by decide +kernel⟩,
      answer_holds 5 nameB.bytes (by decide)⟩
  rw [hq] at hr
  exact ⟨s, hs, rdata_name_iff (.inl rfl) _ aliasAnswer Property.wf_empty (fun _ _ => rfl) hs
    (by decide) rfl hr⟩

/-- A mail server "b." with the preference 10. -/
def mailAnswer : NsPayload := answerPayload 15 ([0, 10] ++ nameB.bytes) (by decide)

/-- **The name of a mail server is rendered as the empty string**: the first byte of its preference ends
the name. -/
theorem mail_name_empty : ∃ s, dns.decode mailAnswer.mem mailAnswer.pd = .ok s ∧
    (({} : Property).exec s.ops).ShowsRecord (fun _ => []) mailAnswer.mem dns 1 0 15 25
      ([0, 10] ++ nameB.bytes) ∧
    ¬ ∃ v, (({} : Property).exec s.ops).observe (fun _ => []) mailAnswer.mem (.param (dns.record 1))
      [.get 0, .find "data"] = .ok (some v) ∧ v.repr = .ok nameB.text := by
  obtain ⟨s, hs, hq⟩ := answered_eq mailAnswer
  have hempty : ∃ v, (answered mailAnswer).observe (fun _ => []) mailAnswer.mem
      (.param (dns.record 1)) [.get 0, .find "data"] = .ok (some v) ∧ v.repr = .ok [] :=
    ⟨_, rfl, by decide +kernel⟩
  have hr : (answered mailAnswer).ShowsRecord (fun _ => []) mailAnswer.mem dns 1 0 15 25
      ([0, 10] ++ nameB.bytes) :=
    ⟨⟨_, rfl, rfl⟩, ⟨⟨.dnsData, 0⟩, by decide +kernel, {}, .nsData 15 0 18, by decide +kernel⟩,
      answer_holds 15 ([0, 10] ++ nameB.bytes) (by decide)⟩
  rw [hq] at hr hempty
  refine ⟨s, hs, hr, ?_⟩
  rintro ⟨v, hv, hrepr⟩
  obtain ⟨v', hv', hrepr'⟩ := hempty
  obtain rfl := Option.some.inj (Except.ok.inj (hv.symm.trans hv'))
  rw [hrepr] at hrepr'
  cases hrepr'

end PacketMachine.Decode
