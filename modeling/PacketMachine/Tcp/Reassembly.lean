import PacketMachine.Tcp.LifeCycle

/-!
# Reassembly of one direction

The segments of a byte stream reach `Session::decode` in any order. Segment `i` has the relative
sequence number `off i`, the sum of the lengths before it plus one for the `SYN`, and these numbers
do not wrap while the stream is shorter than `2^32 - 2`. So `seg_map_` keeps at any time, under the
keys `off i`, the segments that have arrived and are not yet contiguous (`Stored`), and nothing
else.

Results:
* `phase_run`: the first `m` segments have been accepted, in stream order, and segment `m` has not
  arrived yet.
* **`reassembly_complete`**: whatever the order of arrival, all the segments are accepted, each once
  and in stream order, `seg_map_` is empty at the end, and the stream stands behind the last byte
  and the `FIN`.
-/

namespace PacketMachine.Tcp

/-! ## The cut of a stream -/

/-- The packets carry contiguous, non-empty pieces of a stream that starts at `seq`. -/
def Contiguous : UInt32 → List Packet → Prop
  | _, [] => True
  | seq, p :: ps => p.seq = seq ∧ p.data ≠ [] ∧ Contiguous (seq + UInt32.ofNat p.data.length) ps

/-- The length of a stream. -/
def total (ps : List Packet) : Nat := (ps.map (·.data.length)).sum

/-- The relative sequence number of segment `i`. -/
def off (ps : List Packet) (i : Nat) : Nat := 1 + total (ps.take i)

/-- The sequence number that a `FIN` on the last segment takes. -/
def finBit (ps : List Packet) : Nat :=
  match ps.getLast? with
  | some p => if 0 < p.flags &&& FIN then 1 else 0
  | none => 0

/-- Where the stream stands after `m` segments. -/
def nextAt (ps : List Packet) (m : Nat) : Nat := off ps m + if m = ps.length then finBit ps else 0

section Cut

variable {ps : List Packet}

theorem total_append (ps qs : List Packet) : total (ps ++ qs) = total ps + total qs := by
  simp [total]

theorem off_succ {i : Nat} {p : Packet} (h : ps[i]? = some p) :
    off ps (i + 1) = off ps i + p.data.length := by
  unfold off
  rw [List.take_add_one, total_append, h]
  simp [total, Nat.add_assoc]

theorem off_mono {i j : Nat} (h : i ≤ j) : off ps i ≤ off ps j := by
  have hpre : ps.take j = ps.take i ++ (ps.take j).drop i := by
    conv_lhs => rw [← List.take_append_drop i (ps.take j), List.take_take, Nat.min_eq_left h]
  unfold off
  rw [hpre, total_append]
  omega

theorem off_le (ps : List Packet) (i : Nat) : off ps i ≤ 1 + total ps := by
  have h : total ps = total (ps.take i) + total (ps.drop i) := by
    rw [← total_append, List.take_append_drop]
  unfold off
  omega

theorem off_length : off ps ps.length = 1 + total ps := by
  rw [off, List.take_length]

theorem nextAt_of_lt {m : Nat} (h : m < ps.length) : nextAt ps m = off ps m := by
  rw [nextAt, if_neg (Nat.ne_of_lt h), Nat.add_zero]

theorem Contiguous.data_ne_nil {seq : UInt32} (h : Contiguous seq ps) : ∀ p ∈ ps, p.data ≠ [] := by
  induction ps generalizing seq with
  | nil => intro p hp; cases hp
  | cons q ps ih =>
    intro p hp
    rcases List.mem_cons.mp hp with rfl | hp
    · exact h.2.1
    · exact ih h.2.2 p hp

theorem Contiguous.seq_eq {isn : UInt32} (h : Contiguous (isn + 1) ps) {i : Nat} {p : Packet}
    (hp : ps[i]? = some p) : p.seq = isn + UInt32.ofNat (off ps i) := by
  suffices key : ∀ (ps : List Packet) (seq : UInt32) (i : Nat), Contiguous seq ps →
      ps[i]? = some p → p.seq = seq + UInt32.ofNat (total (ps.take i)) by
    rw [key ps _ i h hp, off, UInt32.ofNat_add, ← UInt32.add_assoc]
    rfl
  intro ps
  induction ps with
  | nil => intro seq i _ hp; simp at hp
  | cons q ps ih =>
    intro seq i h hp
    cases i with
    | zero =>
      obtain rfl : q = p := by simpa using hp
      rw [h.1]
      simp [total]
    | succ i =>
      rw [ih _ i h.2.2 (by simpa using hp), UInt32.add_assoc, ← UInt32.ofNat_add]
      simp [total]

theorem ofNat_inj {a b : Nat} (ha : a < 2 ^ 32) (hb : b < 2 ^ 32)
    (h : UInt32.ofNat a = UInt32.ofNat b) : a = b := by
  have := congrArg UInt32.toNat h
  rwa [UInt32.toNat_ofNat', UInt32.toNat_ofNat', Nat.mod_eq_of_lt ha, Nat.mod_eq_of_lt hb] at this

end Cut

/-- A stream of the client that starts behind its `SYN`, cut into packets. Only the last packet may
have flags other than `ACK`. -/
structure Cut (src : Endpoint) (isn : UInt32) (ps : List Packet) : Prop where
  src : ∀ p ∈ ps, p.src = src
  contiguous : Contiguous (isn + 1) ps
  flags : ∀ p ∈ ps.dropLast, p.flags = ACK
  short : total ps < 2 ^ 32 - 2

section Cut

variable {src : Endpoint} {isn : UInt32} {ps : List Packet}

theorem Cut.off_lt (h : Cut src isn ps) {i j : Nat} {p : Packet} (hp : ps[i]? = some p)
    (hij : i < j) : off ps i < off ps j := by
  have hlen : 0 < p.data.length :=
    List.length_pos_iff.mpr (h.contiguous.data_ne_nil p (List.mem_of_getElem? hp))
  have hle : off ps (i + 1) ≤ off ps j := off_mono hij
  rw [off_succ hp] at hle
  omega

theorem Cut.off_lt_u32 (h : Cut src isn ps) (i : Nat) : off ps i < 2 ^ 32 := by
  have h1 := off_le ps i
  have h2 := h.short
  omega

/-- Distinct segments have distinct keys. -/
theorem Cut.off_inj (h : Cut src isn ps) {i j : Nat} {p q : Packet} (hi : ps[i]? = some p)
    (hj : ps[j]? = some q) (e : UInt32.ofNat (off ps i) = UInt32.ofNat (off ps j)) : i = j := by
  have he := ofNat_inj (h.off_lt_u32 i) (h.off_lt_u32 j) e
  rcases Nat.lt_trichotomy i j with hlt | rfl | hlt
  · have := h.off_lt hi hlt
    omega
  · rfl
  · have := h.off_lt hj hlt
    omega

theorem Cut.rel_seq (h : Cut src isn ps) {i : Nat} {p : Packet} (hp : ps[i]? = some p) :
    p.seq - isn = UInt32.ofNat (off ps i) := by
  rw [h.contiguous.seq_eq hp, UInt32.add_comm, UInt32.add_sub_cancel]

theorem Cut.index_inj (h : Cut src isn ps) {i j : Nat} {p : Packet} (hi : ps[i]? = some p)
    (hj : ps[j]? = some p) : i = j :=
  h.off_inj hi hj (by rw [← h.rel_seq hi, ← h.rel_seq hj])

theorem Cut.nodup (h : Cut src isn ps) : ps.Nodup := by
  rw [List.nodup_iff_getElem?_ne_getElem?]
  intro i j hij hj he
  have hp := List.getElem?_eq_getElem hj
  exact Nat.ne_of_lt hij (h.index_inj (he.trans hp) hp)

/-- A segment that is not the last one carries no `FIN`. -/
theorem Cut.no_fin (h : Cut src isn ps) {i : Nat} {p : Packet} (hp : ps[i]? = some p)
    (hi : i + 1 < ps.length) : ¬ 0 < p.flags &&& FIN := by
  have hmem : p ∈ ps.dropLast := by
    rw [List.dropLast_eq_take]
    refine List.mem_of_getElem? (i := i) ?_
    rw [List.getElem?_take_of_lt (by omega), hp]
  rw [h.flags p hmem]
  decide

theorem finBit_eq {i : Nat} {p : Packet} (hp : ps[i]? = some p) (hi : i + 1 = ps.length) :
    finBit ps = if 0 < p.flags &&& FIN then 1 else 0 := by
  have hlast : ps.getLast? = some p := by
    rw [List.getLast?_eq_getElem?, ← hp]
    congr 1
    omega
  unfold finBit
  rw [hlast]

end Cut

/-! ## One step -/

/-- `m` segments have been accepted, in stream order, and exactly the segments in `S` are stored,
each in a chain of its own. -/
structure Stored (src : Endpoint) (isn : UInt32) (ps : List Packet) (m : Nat) (S : Nat → Prop)
    (st : State) : Prop where
  le : m ≤ ps.length
  endpoint : st.ssn.client.endpoint = src
  base : st.ssn.client.hasBaseSeq = true ∧ st.ssn.client.baseSeq = isn
  next : st.ssn.client.nextSeq = UInt32.ofNat (nextAt ps m)
  status : m < ps.length → st.ssn.status = .established
  accepted : acceptedLog st.out = (ps.take m).map fun p => (.client, p.segment .client)
  stored : ∀ k ch, st.ssn.segMap.lookup k = some ch ↔
    ∃ i p, S i ∧ ps[i]? = some p ∧ k = UInt32.ofNat (off ps i) ∧ ch = [p.segment .client]

section Step

variable {src : Endpoint} {isn : UInt32} {ps : List Packet} {m : Nat} {S S' : Nat → Prop}
  {st : State} {c : Call} {i : Nat} {p : Packet}

theorem Stored.congr (h : Stored src isn ps m S st) (hS : ∀ i, i < ps.length → (S i ↔ S' i)) :
    Stored src isn ps m S' st := by
  refine ⟨h.le, h.endpoint, h.base, h.next, h.status, h.accepted, fun k ch => ?_⟩
  rw [h.stored]
  constructor
  · rintro ⟨i, p, hi, hp, hk⟩
    exact ⟨i, p, (hS i (List.getElem?_eq_some_iff.mp hp).1).mp hi, hp, hk⟩
  · rintro ⟨i, p, hi, hp, hk⟩
    exact ⟨i, p, (hS i (List.getElem?_eq_some_iff.mp hp).1).mpr hi, hp, hk⟩

/-- `Stream::send` accepts segment `m` and no later one. -/
theorem Stored.send_eq (h : Stored src isn ps m S st) (hcut : Cut src isn ps)
    (hp : ps[i]? = some p) (hmi : m ≤ i) :
    (st.ssn.client.send p.seq p.data.length).2 = decide (i = m) := by
  have hi : i < ps.length := (List.getElem?_eq_some_iff.mp hp).1
  have hnext : st.ssn.client.nextSeq = UInt32.ofNat (off ps m) := by
    rw [h.next, nextAt_of_lt (by omega)]
  have hrel : p.seq - st.ssn.client.baseSeq = UInt32.ofNat (off ps i) := by
    rw [h.base.2, hcut.rel_seq hp]
  by_cases him : i = m
  · subst him
    rw [Stream.send_of_eq h.base.1 (by rw [hnext, hrel])]
    simp
  · have hne : st.ssn.client.nextSeq ≠ p.seq - st.ssn.client.baseSeq := by
      rw [hnext, hrel]
      intro e
      have he := ofNat_inj (hcut.off_lt_u32 m) (hcut.off_lt_u32 i) e
      have hlt := hcut.off_lt (List.getElem?_eq_getElem (show m < ps.length by omega))
        (show m < i by omega)
      omega
    rw [Stream.send_of_ne h.base.1 hne]
    simp [him]

/-- A later segment is stored under its key. -/
theorem Stored.keep (h : Stored src isn ps m S st) (hcut : Cut src isn ps) (hc : c.sender = .client)
    (hp : ps[i]? = some p) (hS : ¬ S i) :
    Stored src isn ps m (fun j => S j ∨ j = i) (keep c (p.segment .client) st) := by
  refine ⟨h.le, h.endpoint, h.base, h.next, h.status, h.accepted, fun k ch => ?_⟩
  have hkey : (st.ssn.stream c.sender).toRelSeq p.seq = UInt32.ofNat (off ps i) := by
    rw [hc]
    exact (congrArg (p.seq - ·) h.base.2).trans (hcut.rel_seq hp)
  have hnone : st.ssn.segMap.lookup (UInt32.ofNat (off ps i)) = none := by
    cases hl : st.ssn.segMap.lookup (UInt32.ofNat (off ps i)) with
    | none => rfl
    | some ch =>
      obtain ⟨j, q, hj, hq, hk, -⟩ := (h.stored _ _).mp hl
      exact absurd (hcut.off_inj hp hq hk ▸ hj) hS
  simp only [Tcp.keep, Stream.inWindow, if_true, Packet.segment, hkey, SegMap.lookup_store,
    SegMap.chain, hnone, Option.getD_none, List.nil_append]
  split
  · rename_i hk
    subst hk
    constructor
    · intro e
      exact ⟨i, p, .inr rfl, hp, rfl, (Option.some.inj e).symm⟩
    · rintro ⟨j, q, -, hq, hk, rfl⟩
      obtain rfl := hcut.off_inj hp hq hk
      obtain rfl : p = q := Option.some.inj (hp.symm.trans hq)
      rfl
  · rename_i hk
    rw [h.stored]
    constructor
    · rintro ⟨j, q, hj, hq, hkj, hch⟩
      exact ⟨j, q, .inl hj, hq, hkj, hch⟩
    · rintro ⟨j, q, hj | rfl, hq, hkj, hch⟩
      · exact ⟨j, q, hj, hq, hkj, hch⟩
      · exact absurd hkj hk

/-- Segment `m` is accepted. -/
theorem Stored.accept (h : Stored src isn ps m S st) (hcut : Cut src isn ps)
    (hc : c.sender = .client) (hp : ps[m]? = some p) :
    Stored src isn ps (m + 1) S (accept c (p.segment .client) st) := by
  have hm : m < ps.length := (List.getElem?_eq_some_iff.mp hp).1
  have hstat := h.status hm
  have hseq : st.ssn.client.nextSeq = p.seq - st.ssn.client.baseSeq := by
    rw [h.next, nextAt_of_lt hm, h.base.2, hcut.rel_seq hp]
  have hsend := Stream.send_of_eq h.base.1 hseq p.data.length
  have hnext : st.ssn.client.nextSeq + UInt32.ofNat p.data.length
      = UInt32.ofNat (off ps (m + 1)) := by
    rw [h.next, nextAt_of_lt hm, off_succ hp, UInt32.ofNat_add]
  have hmoves : st.ssn.Moves p.flags .client ↔ 0 < p.flags &&& FIN := by
    rw [Session.Moves, hstat]
  -- what follows from the stream and the status that `accept` leaves
  have build : ∀ {st' : State}, st'.ssn.segMap = st.ssn.segMap →
      acceptedLog st'.out = acceptedLog st.out ++ [(.client, p.segment .client)] →
      st'.ssn.client.endpoint = src →
      st'.ssn.client.hasBaseSeq = true ∧ st'.ssn.client.baseSeq = isn →
      st'.ssn.client.nextSeq = UInt32.ofNat (nextAt ps (m + 1)) →
      (m + 1 < ps.length → st'.ssn.status = .established) → Stored src isn ps (m + 1) S st' := by
    intro st' hmap hlog hep hbase hnx hst
    refine ⟨hm, hep, hbase, hnx, hst, ?_, fun k ch => ?_⟩
    · rw [hlog, h.accepted, List.take_add_one, hp]
      simp
    · rw [hmap]
      exact h.stored k ch
  have hlog := acceptedLog_accept c (p.segment .client) st
  rw [hc] at hlog
  have hep := (accept_endpoint c (p.segment .client) st .client).trans h.endpoint
  by_cases hfin : 0 < p.flags &&& FIN
  · have hlast : m + 1 = ps.length := by
      by_contra hne
      exact hcut.no_fin hp (by omega) hfin
    obtain ⟨us, ha⟩ : ∃ us, Accepted c (p.segment .client) st _ _ _ _
        (_ ++ Status.moveEvents us _) := accept_move (by rw [hc]; exact hmoves.mpr hfin)
    have hx : (Tcp.accept c (p.segment .client) st).ssn.client
        = { st.ssn.client with nextSeq := UInt32.ofNat (off ps (m + 1)) + 1 } := by
      have := ha.stream
      rw [hc, hstat] at this
      refine this.trans ?_
      simp [Status.moveStream, Stream.incSeq, Session.stream, Packet.segment, hsend, hnext]
    refine build ha.segMap hlog hep ?_ ?_ (by omega)
    · rw [hx]
      exact h.base
    · rw [hx, nextAt, if_pos hlast, finBit_eq hp hlast, if_pos hfin, UInt32.ofNat_add]
      rfl
  · have ha : Accepted c (p.segment .client) st _ _ _ _ _ :=
      accept_stay (by rw [hc]; exact fun e => hfin (hmoves.mp e))
    have hx : (Tcp.accept c (p.segment .client) st).ssn.client
        = { st.ssn.client with nextSeq := UInt32.ofNat (off ps (m + 1)) } := by
      have := ha.stream
      rw [hc] at this
      refine this.trans ?_
      simp [Session.stream, Packet.segment, hsend, hnext]
    refine build ha.segMap hlog hep ?_ ?_ (fun _ => by rw [ha.status, hstat])
    · rw [hx]
      exact h.base
    · rw [hx, nextAt]
      split
      · rename_i hlast
        rw [finBit_eq hp hlast, if_neg hfin]
        rfl
      · rfl

/-- The chain of segment `m` is taken out of `seg_map_`. -/
theorem Stored.take (h : Stored src isn ps m S st) (hcut : Cut src isn ps) (hp : ps[m]? = some p)
    (seg : Segment) :
    Stored src isn ps m (fun j => S j ∧ j ≠ m) (takeChain (UInt32.ofNat (off ps m)) seg st) := by
  refine ⟨h.le, h.endpoint, h.base, h.next, h.status, h.accepted, fun k ch => ?_⟩
  simp only [takeChain]
  by_cases hk : k = UInt32.ofNat (off ps m)
  · rw [hk, AList.lookup_erase]
    constructor
    · intro e
      cases e
    · rintro ⟨j, q, ⟨-, hj⟩, hq, hkj, -⟩
      exact absurd (hcut.off_inj hp hq hkj).symm hj
  · rw [AList.lookup_erase_ne hk, h.stored]
    constructor
    · rintro ⟨j, q, hj, hq, hkj, hch⟩
      exact ⟨j, q, ⟨hj, fun e => hk (e ▸ hkj)⟩, hq, hkj, hch⟩
    · rintro ⟨j, q, ⟨hj, -⟩, hq, hkj, hch⟩
      exact ⟨j, q, hj, hq, hkj, hch⟩

end Step

/-! ## The run -/

/-- Segment `i` is among the packets `qs`. -/
def Arrived (ps qs : List Packet) (i : Nat) : Prop := ∃ p, ps[i]? = some p ∧ p ∈ qs

/-- Where the machine stands after the packets `qs`. -/
inductive Phase (src : Endpoint) (isn : UInt32) (ps qs : List Packet) : Config → Prop where
  /-- Nothing more is contiguous. -/
  | rest {st : State} {w : List Job} {m : Nat} (hw : w = [] ∨ w = [.finish])
      (h : Stored src isn ps m (fun i => m ≤ i ∧ Arrived ps qs i) st)
      (first : ∀ i < m, Arrived ps qs i) (hm : ¬ Arrived ps qs m) : Phase src isn ps qs ⟨st, w⟩
  /-- Segment `i` is on its way. -/
  | deliver {st : State} {m i : Nat} {p : Packet} {c : Call} (hc : c.sender = .client)
      (hp : ps[i]? = some p) (hi : m ≤ i) (arrived : p ∈ qs)
      (h : Stored src isn ps m (fun j => (m ≤ j ∧ Arrived ps qs j) ∧ j ≠ i) st)
      (first : ∀ i < m, Arrived ps qs i) (hm : i ≠ m → ¬ Arrived ps qs m) :
      Phase src isn ps qs ⟨st, [.deliver c (p.segment .client), .finish]⟩
  /-- A segment has been accepted, and the next one may be stored. -/
  | drain {st : State} {m : Nat} {c : Call} {seg : Segment} (hc : c.sender = .client)
      (h : Stored src isn ps m (fun i => m ≤ i ∧ Arrived ps qs i) st)
      (first : ∀ i < m, Arrived ps qs i) : Phase src isn ps qs ⟨st, [.drain c seg, .finish]⟩

section Run

variable {src : Endpoint} {isn : UInt32} {ps qs : List Packet}

theorem Arrived.append {i : Nat} (h : Arrived ps qs i) (p : Packet) : Arrived ps (qs ++ [p]) i := by
  obtain ⟨q, hq, hm⟩ := h
  exact ⟨q, hq, List.mem_append_left _ hm⟩

/-- One more packet makes one more segment arrive. -/
theorem Cut.arrived_append (hcut : Cut src isn ps) {i j : Nat} {p : Packet} (hp : ps[i]? = some p) :
    Arrived ps (qs ++ [p]) j ↔ Arrived ps qs j ∨ j = i := by
  constructor
  · rintro ⟨q, hq, hm⟩
    rcases List.mem_append.mp hm with hm | hm
    · exact .inl ⟨q, hq, hm⟩
    · rw [List.mem_singleton.mp hm] at hq
      exact .inr (hcut.index_inj hq hp)
  · rintro (h | rfl)
    · exact h.append p
    · exact ⟨p, hp, by simp⟩

theorem phase_packet (hcut : Cut src isn ps) {st : State} {p : Packet} (hp : p ∈ ps) (hq : p ∉ qs)
    (h : Phase src isn ps qs ⟨st, []⟩) :
    Phase src isn ps (qs ++ [p]) ⟨dropBuf st, st.jobs p⟩ := by
  cases h with
  | @rest _ _ m _ hst first hm =>
    obtain ⟨i, hi⟩ := List.mem_iff_getElem?.mp hp
    have hnew : ¬ Arrived ps qs i := by
      rintro ⟨q, hq', hmem⟩
      rw [hi, Option.some.injEq] at hq'
      exact hq (hq' ▸ hmem)
    have hmi : m ≤ i := Nat.le_of_not_lt fun hlt => hnew (first i hlt)
    have hside : st.ssn.sideOf p = .client := by
      rw [Session.sideOf, hst.endpoint, hcut.src p hp, if_pos rfl]
    rw [State.jobs, hside]
    refine .deliver rfl hi hmi (by simp) ?_ (fun j hj => (first j hj).append p) fun hne => ?_
    · have hd : Stored src isn ps m _ (dropBuf st) :=
        ⟨hst.le, hst.endpoint, hst.base, hst.next, hst.status, hst.accepted, hst.stored⟩
      refine hd.congr fun j _ => ?_
      rw [hcut.arrived_append hi]
      constructor
      · rintro ⟨hj, ha⟩
        exact ⟨⟨hj, .inl ha⟩, fun e => hnew (e ▸ ha)⟩
      · rintro ⟨⟨hj, ha | rfl⟩, hne⟩
        · exact ⟨hj, ha⟩
        · exact absurd rfl hne
    · rw [hcut.arrived_append hi]
      rintro (ha | rfl)
      · exact hm ha
      · exact hne rfl

theorem phase_work (hcut : Cut src isn ps) {st : State} {j : Job} {w : List Job}
    (h : Phase src isn ps qs ⟨st, j :: w⟩) :
    Phase src isn ps qs ⟨(j.perform st).1, (j.perform st).2 ++ w⟩ := by
  cases h with
  | rest hw hst first hm =>
    obtain ⟨rfl, rfl⟩ : j = .finish ∧ w = [] := by simpa using hw
    refine .rest (.inl rfl) ⟨hst.le, hst.endpoint, hst.base, hst.next, hst.status, ?_, hst.stored⟩
      first hm
    rw [← hst.accepted]
    simp [Job.perform, txCounters, State.emit, acceptedLog]
  | @deliver _ m i p c hc hp hi arrived hst first hm =>
    have hsend := hst.send_eq hcut hp hi
    have hstream : st.ssn.stream c.sender = st.ssn.client := by rw [hc]; rfl
    by_cases him : i = m
    · -- the segment is the next one
      subst him
      rw [perform_deliver_accepted (by simp [hstream, Packet.segment, hsend])]
      refine .drain hc ((hst.accept hcut hc hp).congr fun j _ => ?_) fun j hj => ?_
      · constructor
        · rintro ⟨⟨hj, ha⟩, hne⟩
          exact ⟨by omega, ha⟩
        · rintro ⟨hj, ha⟩
          exact ⟨⟨by omega, ha⟩, by omega⟩
      · by_cases hji : j = i
        · exact ⟨p, hji ▸ hp, arrived⟩
        · exact first j (by omega)
    · -- it is early
      rw [perform_deliver_refused (by simp [hstream, Packet.segment, hsend, him])]
      refine .rest (.inr rfl) ((hst.keep hcut hc hp (by simp)).congr fun j _ => ?_) first (hm him)
      constructor
      · rintro (⟨h, -⟩ | rfl)
        · exact h
        · exact ⟨hi, p, hp, arrived⟩
      · intro h
        by_cases hji : j = i
        · exact .inr hji
        · exact .inl ⟨h, hji⟩
  | @drain _ m c seg hc hst first =>
    have hstream : st.ssn.stream c.sender = st.ssn.client := by rw [hc]; rfl
    cases hl : st.ssn.segMap.lookup (st.ssn.stream c.sender).nextSeq with
    | none =>
      rw [perform_drain_none hl]
      refine .rest (.inr rfl) hst first ?_
      -- segment `m` would be stored under the key that was looked up
      rintro ⟨p, hp, hmem⟩
      have hm : m < ps.length := (List.getElem?_eq_some_iff.mp hp).1
      rw [hstream, hst.next, nextAt_of_lt hm] at hl
      have := (hst.stored _ [p.segment .client]).mpr
        ⟨m, p, ⟨Nat.le_refl m, p, hp, hmem⟩, hp, rfl, rfl⟩
      rw [hl] at this
      cases this
    | some chain =>
      rw [perform_drain_some hl]
      rw [hstream, hst.next] at hl ⊢
      obtain ⟨i, p, ⟨hmi, q, hq, hmem⟩, hp, hk, rfl⟩ := (hst.stored _ _).mp hl
      have hm : m < ps.length := Nat.lt_of_le_of_lt hmi (List.getElem?_eq_some_iff.mp hp).1
      rw [nextAt_of_lt hm] at hk ⊢
      obtain rfl : m = i := hcut.off_inj (List.getElem?_eq_getElem hm) hp hk
      obtain rfl : q = p := Option.some.inj (hq.symm.trans hp)
      exact .deliver hc hp (Nat.le_refl m) hmem (hst.take hcut hp seg) first
        fun hne => absurd rfl hne

/-- **The invariant of the run**, for every order of arrival. -/
theorem phase_run (hcut : Cut src isn ps) {arr : List Packet} (hperm : arr.Perm ps) {s : Session}
    (ho : Opened src isn s) {st : State} (h : run ⟨s, []⟩ arr = some st) :
    Phase src isn ps arr ⟨st, []⟩ := by
  refine run_induct (P := fun _ => True) (J := fun qs c => Phase src isn ps qs c)
    (fun _ _ => trivial) ?_ ?_ (fun qs st j w _ hJ => phase_work hcut hJ) h
  · refine .rest (m := 0) (.inl rfl) ⟨Nat.zero_le _, ho.endpoint, ho.clientBase, ?_,
      fun _ => ho.status, rfl, fun k ch => ?_⟩ (fun i hi => absurd hi (Nat.not_lt_zero i)) ?_
    · rw [ho.clientNext, nextAt]
      cases ps <;> rfl
    · rw [ho.segMap]
      simp [Arrived]
    · simp [Arrived]
  · intro qs st p hpre _ hJ
    have hnd : (qs ++ [p]).Nodup := (hperm.nodup_iff.mpr hcut.nodup).sublist hpre.sublist
    refine phase_packet hcut (hperm.subset (hpre.subset (by simp))) ?_ hJ
    intro hmem
    exact (List.nodup_append.mp hnd).2.2 p hmem p (by simp) rfl

end Run

theorem segMap_eq_empty {m : SegMap} (h : ∀ k, m.lookup k = none) : m = ∅ := by
  refine AList.ext ?_
  cases hm : m.entries with
  | nil => rfl
  | cons e l =>
    have hmem : e.1 ∈ m := by
      rw [AList.mem_keys, AList.keys, hm]
      simp
    exact absurd (h e.1) (by rw [AList.lookup_eq_none]; exact fun hn => hn hmem)

/-- **Reassembly is complete and ordered.** After a clean handshake, the packets `ps` of a cut stream
of the client, in any order `arr`, are all accepted, each once and in stream order. -/
theorem reassembly_complete {src dst : Endpoint} {ssnId : UInt64} {syn synack ack : Packet}
    (hhs : Handshake src dst syn synack ack) {s : Session} {out : List Eff}
    (hs : run (State.new src dst ssnId) [syn, synack, ack] = some ⟨s, out⟩)
    {ps arr : List Packet} (hcut : Cut src syn.seq ps) (hperm : arr.Perm ps) :
    ∃ st, run ⟨s, []⟩ arr = some st ∧
      acceptedLog st.out = ps.map (fun p => (.client, p.segment .client)) ∧
      st.ssn.segMap = ∅ ∧
      st.ssn.client.nextSeq = UInt32.ofNat (1 + total ps + finBit ps) := by
  have ho : Opened src syn.seq s := by
    obtain ⟨st, hst, ho⟩ := run_handshake hhs ssnId
    rw [hs, Option.some.injEq] at hst
    subst hst
    exact ho
  obtain ⟨st, hst⟩ := run_isSome ⟨s, []⟩ arr
  refine ⟨st, hst, ?_⟩
  have hphase := phase_run hcut hperm ho hst
  cases hphase with
  | @rest _ _ m _ h _ hm =>
    -- every segment has arrived, so none is missing
    have hall : m = ps.length := by
      refine Nat.le_antisymm h.le (Nat.le_of_not_lt fun hlt => hm ?_)
      have hp := List.getElem?_eq_getElem hlt
      exact ⟨_, hp, hperm.symm.subset (List.mem_of_getElem? hp)⟩
    subst hall
    refine ⟨by rw [h.accepted, List.take_length], segMap_eq_empty fun k => ?_, ?_⟩
    · cases hl : st.ssn.segMap.lookup k with
      | none => rfl
      | some ch =>
        obtain ⟨i, p, ⟨hi, -⟩, hp, -⟩ := (h.stored k ch).mp hl
        have := (List.getElem?_eq_some_iff.mp hp).1
        omega
    · rw [h.next, nextAt, if_pos rfl, off_length]

/-- Three segments, the last one with `FIN`. -/
def cutThree : List Packet :=
  [⟨⟨[10, 0, 0, 1], 40000⟩, ACK, 0xffffffff + 1, 0, [1, 2], 0, ⟨0, 0⟩⟩,
    ⟨⟨[10, 0, 0, 1], 40000⟩, ACK, 2, 0, [3, 4, 5], 0, ⟨0, 0⟩⟩,
    ⟨⟨[10, 0, 0, 1], 40000⟩, FIN ||| ACK, 5, 0, [6], 0, ⟨0, 0⟩⟩]

theorem reassembly_complete_cutThree :
    ∃ s st, run ⟨s, []⟩ cutThree.reverse = some st ∧
      acceptedLog st.out = cutThree.map (fun p => (.client, p.segment .client)) ∧
      st.ssn.segMap = ∅ ∧ st.ssn.client.nextSeq = 8 := by
  have hhs : Handshake ⟨[10, 0, 0, 1], 40000⟩ ⟨[10, 0, 0, 2], 80⟩
      ⟨⟨[10, 0, 0, 1], 40000⟩, SYN, 0xffffffff, 0, [], 0, ⟨0, 0⟩⟩
      ⟨⟨[10, 0, 0, 2], 80⟩, SYN ||| ACK, 500, 0, [], 0, ⟨0, 0⟩⟩
      ⟨⟨[10, 0, 0, 1], 40000⟩, ACK, 0, 0, [], 0, ⟨0, 0⟩⟩ := by
    constructor <;> decide
  have hcut : Cut ⟨[10, 0, 0, 1], 40000⟩ 0xffffffff cutThree := by
    refine ⟨by decide, ?_, by decide, by decide⟩
    simp [Contiguous, cutThree]
  obtain ⟨⟨s, out⟩, hs, -⟩ := run_handshake hhs 1
  obtain ⟨st, h⟩ := reassembly_complete hhs hs hcut (List.reverse_perm cutThree)
  exact ⟨s, st, h⟩

end PacketMachine.Tcp
