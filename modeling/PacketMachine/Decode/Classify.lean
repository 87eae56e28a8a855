import PacketMachine.Decode.Header

/-!
# Queries and replies

`ns_decode` masks the flags of the header, in host order, with `NS_FLAG_MASK_QUERY`, which is 0x0080
(`modules/utils.hpp:54`, `modules/utils.cc:130-139`). In a DNS header the QR bit is the top bit of the
third byte; bit 7 of the flags in host order is the top bit of the fourth byte, the RA bit. So a
message is classified by RA, whatever its records are.

Results:
* `nsDecode_loop`: the calls of a message are those for its header, then those of the loop.
* `nsDecode_calls`: the ones for the records push no event.
* **`classified_iff`**: the event and `is_query` follow QR exactly when RA is equal to QR.
-/

namespace PacketMachine.Decode

open PacketMachine.Lib

/-- A payload of a name service with its header, anywhere in a packet. -/
structure NsPayload where
  mem : Mem
  pd : Payload
  wf : pd.WF
  has : mem.Has 0 pd.stop
  header : 12 ≤ pd.length

/-- The QR bit: the most significant bit of the third byte. -/
def NsPayload.qr (x : NsPayload) : Bool := (x.mem.byte (x.pd.ptr + 2)).toNat.testBit 7

/-- The most significant bit of the fourth byte. -/
def NsPayload.ra (x : NsPayload) : Bool := (x.mem.byte (x.pd.ptr + 3)).toNat.testBit 7

/-- The events that decoding pushes. -/
def NameService.pushed (ns : NameService) (x : NsPayload) : Except Fault (List Event) := do
  let s ← ns.decode x.mem x.pd
  return s.ops.filterMap Op.event?

/-- **The classification follows the QR bit**: one of the two events is pushed to the property, the
one for a reply iff QR is set, and `is_query` is 1 iff it was the other. -/
def NameService.Classified (ns : NameService) (x : NsPayload) (q : Property) : Prop :=
  ∃ s ev, ns.decode x.mem x.pd = .ok s ∧ s.ops.filterMap Op.event? = [ev] ∧
    (q.exec s.ops).events = q.events ++ [ev] ∧ (ev = ns.evQuery ∨ ev = ns.evReply) ∧
    (ev = ns.evReply ↔ x.qr = true) ∧
    ∃ n, (q.exec s.ops).uint64 x.mem (.param ns.isQuery) = .ok n ∧ (n = 1 ↔ ev = ns.evQuery)

/-- The calls for the header of a message. -/
def NameService.headCalls (ns : NameService) (base : Nat) (isQ : Bool) : List Op :=
  [.set ns.txId (.pkt base) 2 .big ns.txId_kind, .event (if isQ then ns.evQuery else ns.evReply),
    .cpy ns.isQuery (hostInt isQ) .little ns.isQuery_kind]

section Calls

variable {ns : NameService} {mod : Mod}

/-- The mask of the flags leaves the top bit of the second byte of the word. -/
theorem flags_masked (hi lo : UInt8) :
    (hi.toNat * 256 + lo.toNat) &&& 0x0080 = 0 ↔ lo.toNat.testBit 7 = false := by
  have hbit : (hi.toNat * 256 + lo.toNat).testBit 7 = lo.toNat.testBit 7 := by
    rw [show hi.toNat * 256 = 2 ^ 8 * hi.toNat by omega,
      Nat.testBit_two_pow_mul_add hi.toNat lo.toNat_lt, if_pos (by omega)]
  rw [← hbit, show (0x0080 : Nat) = 2 ^ 7 from rfl, Nat.and_two_pow]
  cases (hi.toNat * 256 + lo.toNat).testBit 7 <;> simp

/-- **The calls of a message**: the header as a query or a reply by RA, then those of the loop. -/
theorem nsDecode_loop (ns : NameService) (x : NsPayload) :
    ∃ pd counts ops ok, readCounts x.mem x.pd.ptr = .ok counts ∧ counts.length = 4 ∧
      recordLoop ns x.mem x.pd.ptr (x.pd.length - 12) counts counts.sum 0 0 0 false (x.pd.ptr + 12)
        = .ok (ops, ok) ∧
      ns.nsDecode x.mem x.pd = .ok (pd, ns.headCalls x.pd.ptr (!x.ra) ++ ops, ok) := by
  have hw := x.wf.window
  have hlen := x.header
  obtain ⟨counts, hcounts, hc⟩ := readCounts_returns (x.has.sub (Nat.zero_le x.pd.ptr) (by omega))
  obtain ⟨⟨ops, ok⟩, hloop, -⟩ : Returns (recordLoop ns x.mem x.pd.ptr (x.pd.length - 12) counts
      counts.sum 0 0 0 false (x.pd.ptr + 12)) (fun r => InMessage ns x.pd.ptr (x.pd.length - 12) r.1) :=
    recordLoop_returns (x.has.sub (Nat.zero_le _) (by omega)) hc counts.sum (Nat.zero_le _) (by simp)
      (by omega)
  refine ⟨(x.pd.skip 12).skip (x.pd.skip 12).length, counts, ops, ok, hcounts, hc, hloop, ?_⟩
  have hra : x.mem.word (x.pd.ptr + 2) &&& 0x0080 = 0 ↔ x.ra = false := flags_masked _ _
  have hw12 := x.wf.skip hlen
  have hskip : (x.pd.skip 12).length = x.pd.length - 12 := rfl
  unfold NameService.nsDecode
  rw [Payload.retain_eq x.wf, if_pos x.header]
  simp only [hcounts, bind, Except.bind, Payload.retain_eq hw12, Nat.le_refl, if_true]
  rw [Mem.u16_eq x.has (j := x.pd.ptr + 2) (by omega) (by omega)]
  simp only [hskip]
  rw [show (x.pd.skip 12).ptr = x.pd.ptr + 12 from rfl, hloop]
  by_cases hq : x.mem.word (x.pd.ptr + 2) &&& 0x0080 = 0
  · simp only [hq, NameService.headCalls, hra.mp hq]
    rfl
  · have htrue : x.ra = true := by simpa [hra] using hq
    simp only [hq, NameService.headCalls, htrue]
    rfl

/-- The loop retains the array of each section at most once. -/
theorem nsDecode_calls (hns : ns.In mod) (x : NsPayload) :
    ∃ s ops ts, ns.decode x.mem x.pd = .ok s ∧ s.ops = ns.headCalls x.pd.ptr (!x.ra) ++ ops ∧
      Sections ns 4 0 false ts ops := by
  obtain ⟨pd, counts, ops, ok, -, hc, hloop, hdecode⟩ := nsDecode_loop ns x
  obtain ⟨ts, hts⟩ := recordLoop_sections hns _ _ hloop
  rw [hc] at hts
  exact ⟨⟨pd, _, none⟩, ops, ts, by rw [NameService.decode, hdecode]; rfl, rfl, hts⟩

/-- The calls for the records leave `is_query` alone. -/
theorem Sections.setCalls_isQuery {n target : Nat} {arr : Bool} {ts : List Nat} {ops : List Op}
    (h : Sections ns n target arr ts ops) (hns : ns.In mod) (hq : ns.isQuery ∉ perRecord) :
    setCalls ns.isQuery ops = [] := by
  refine setCalls_eq_nil fun hmem => ?_
  obtain ⟨op, hop, hd⟩ := List.mem_flatMap.mp hmem
  rcases (h.calls op hop).2 _ hd with hrec | ⟨t, ht⟩
  · exact hq (hns.perRecord _ hrec)
  · have hkind := ns.isQuery_kind
    rw [ht, ns.record_kind] at hkind
    cases hkind

theorem Sections.events {n target : Nat} {arr : Bool} {ts : List Nat} {ops : List Op}
    (h : Sections ns n target arr ts ops) : ops.filterMap Op.event? = [] :=
  List.filterMap_eq_nil_iff.mpr fun op hop => (h.calls op hop).1.1

end Calls

/-! ## The classification -/

section Classify

variable {ns : NameService} {mod : Mod} {q : Property}

/-- The one event that is pushed. -/
theorem pushed_eq (hns : ns.In mod) (x : NsPayload) :
    ns.pushed x = .ok [if x.ra then ns.evReply else ns.evQuery] := by
  obtain ⟨s, ops, ts, hs, hops, hts⟩ := nsDecode_calls hns x
  rw [NameService.pushed, hs]
  show Except.ok (s.ops.filterMap Op.event?) = _
  rw [hops, List.filterMap_append, hts.events]
  cases x.ra <;> rfl

/-- `is_query` is what the event says. -/
theorem isQuery_reads (hns : ns.In mod) (hq : ns.isQuery ∉ perRecord)
    (hd : ns.isQuery.direct = true) (hw : q.WF) (hc : q.count ns.isQuery = 0) (x : NsPayload)
    {s : Step} (hs : ns.decode x.mem x.pd = .ok s) :
    (q.exec s.ops).uint64 x.mem (.param ns.isQuery) = .ok (if x.ra then 0 else 1) := by
  obtain ⟨s', ops, ts, hs', hops, hts⟩ := nsDecode_calls hns x
  obtain rfl := Except.ok.inj (hs.symm.trans hs')
  have hcalls : setCalls ns.isQuery s.ops = [fun c => c.cpy (hostInt (!x.ra)) .little] := by
    rw [hops, setCalls_append, hts.setCalls_isQuery hns hq]
    simp only [setCalls, NameService.headCalls, List.filterMap_cons, Op.call?, hns.head, if_false,
      if_true, List.filterMap_nil, List.append_nil]
  rw [(shows_call hd hw hc hcalls fun c => Cell.same_cpy _ _).uint64_eq]
  cases x.ra <;> rfl

/-- **A message is classified by QR exactly when RA is equal to QR.** -/
theorem classified_alone (hns : ns.In mod) (hne : ns.evQuery ≠ ns.evReply)
    (hq : ns.isQuery ∉ perRecord) (hd : ns.isQuery.direct = true) (hw : q.WF)
    (hc : q.count ns.isQuery = 0) (x : NsPayload) : ns.Classified x q ↔ x.ra = x.qr := by
  have hpushed := pushed_eq hns x
  have hdecode : ∃ s, ns.decode x.mem x.pd = .ok s := by
    obtain ⟨s, -, -, hs, -⟩ := nsDecode_calls hns x
    exact ⟨s, hs⟩
  have hevs : ∀ {s}, ns.decode x.mem x.pd = .ok s →
      s.ops.filterMap Op.event? = [if x.ra then ns.evReply else ns.evQuery] := by
    intro s hs
    rw [NameService.pushed, hs] at hpushed
    exact Except.ok.inj hpushed
  constructor
  · rintro ⟨s, ev, hs, hev, -, -, hreply, -⟩
    obtain rfl := List.singleton_inj.mp ((hevs hs).symm.trans hev)
    cases hra : x.ra with
    | true =>
      rw [hra] at hreply
      exact (hreply.mp rfl).symm
    | false =>
      rw [hra] at hreply
      refine (Bool.eq_false_iff.mpr fun hqr => hne (hreply.mpr hqr)).symm
  · intro hbits
    obtain ⟨s, hs⟩ := hdecode
    have hev := hevs hs
    refine ⟨s, _, hs, hev, ?_, ?_, ?_, _, isQuery_reads hns hq hd hw hc x hs, ?_⟩
    · rw [events_exec hw.events, hev]
    · cases x.ra <;> simp
    · rw [← hbits]
      cases x.ra <;> simp [hne]
    · cases x.ra <;> simp [hne.symm]

end Classify

/-- What holds of the parameters and events of both modules. -/
theorem service_in {ns : NameService} (hns : ns = dns ∨ ns = mdns) :
    ∃ mod, ns.In mod ∧ ns.evQuery ≠ ns.evReply ∧ ns.isQuery ∉ perRecord ∧ ns.isQuery.direct = true ∧
      ∀ t < 4, (ns.record t).id ≤ ns.txId.id := by
  rcases hns with rfl | rfl
  · exact ⟨.dns, dns_in, by decide, by decide, by decide, by decide⟩
  · exact ⟨.mdns, mdns_in, by decide, by decide, by decide, by decide⟩

/-- **The classification of DNS and mDNS messages follows QR only exactly when the top bit of the
fourth byte is equal to QR.** Two messages `x` and `x'` of any length and content are decoded, each for a
property on which `is_query` was not yet retained. -/
theorem classified_iff {ns : NameService} (hns : ns = dns ∨ ns = mdns) (x x' : NsPayload)
    {q q' : Property} (hw : q.WF) (hw' : q'.WF) (hc : q.count ns.isQuery = 0)
    (hc' : q'.count ns.isQuery = 0) :
    (ns.Classified x q ∧ ns.Classified x' q' ∧ (x.qr = x'.qr → ns.pushed x = ns.pushed x')) ↔
      x.ra = x.qr ∧ x'.ra = x'.qr := by
  obtain ⟨mod, hin, hne, hq, hd, -⟩ := service_in hns
  rw [classified_alone hin hne hq hd hw hc, classified_alone hin hne hq hd hw' hc', pushed_eq hin,
    pushed_eq hin]
  constructor
  · rintro ⟨h, h', -⟩
    exact ⟨h, h'⟩
  · rintro ⟨h, h'⟩
    refine ⟨h, h', fun hqr => ?_⟩
    rw [h, h', hqr]

/-- A header with the given flags and no record, as the whole packet. -/
def flagsPacket (hi lo : UInt8) : Packet where
  addr := 4096
  data := [0, 1, hi, lo, 0, 0, 0, 0, 0, 0, 0, 0]
  tv := ⟨0, 0⟩
  fits := by
    simp only [List.length_cons, List.length_nil]
    omega

def flagsPayload (hi lo : UInt8) : NsPayload where
  mem := (flagsPacket hi lo).mem
  pd := .reset (flagsPacket hi lo)
  wf := Payload.wf_reset _
  has := (flagsPacket hi lo).has_all
  header := Nat.le_refl 12

/-- A plain query and a reply of a recursive server. -/
theorem classified_recursive :
    (dns.Classified (flagsPayload 0x01 0x00) {} ∧ dns.Classified (flagsPayload 0x81 0x80) {} ∧
      ((flagsPayload 0x01 0x00).qr = (flagsPayload 0x81 0x80).qr →
        dns.pushed (flagsPayload 0x01 0x00) = dns.pushed (flagsPayload 0x81 0x80))) ↔
      (flagsPayload 0x01 0x00).ra = (flagsPayload 0x01 0x00).qr ∧
        (flagsPayload 0x81 0x80).ra = (flagsPayload 0x81 0x80).qr :=
  classified_iff (.inl rfl) _ _ Property.wf_empty Property.wf_empty rfl rfl

/-- **An authoritative reply without recursion counts as a query.** -/
theorem reply_counts_as_query : (flagsPayload 0x84 0x00).qr = true ∧
    mdns.pushed (flagsPayload 0x84 0x00) = .ok [.mdnsQuery] := by
  decide +kernel

end PacketMachine.Decode
