import PacketMachine.Decode.Cursor
import PacketMachine.Decode.Header
import PacketMachine.Decode.PairKey

/-!
# When `TCP::decode` touches the session table

`TCP::decode` checks the header, then lets the clock of the table run, and then looks for the session
(`modules/tcp.cc:575-684`).

* A data offset below five words makes `optlen`, a `size_t`, wrap. `Payload::retain` refuses it, as it
  is greater than any length.
* A table that is `logged` also writes down the amounts that `step` is given. The decoder does not see
  the difference (`tcpDecode_unlogged`).

Results:
* **`tcpDecode_malformed`**: a malformed header leaves the members of the module alone.
* **`clock_tracks_iff`**: the amounts add up to the time since the first packet exactly when this packet
  has a time stamp above 0, or no packet has. `init_ts_` is not set by a packet at time 0.
-/

namespace PacketMachine.Decode

open PacketMachine.Lib

variable {τ : Type}

/-! ## Malformed headers -/

/-- The data offset of a TCP header, in words. -/
def tcpOffset (m : Mem) (pd : Payload) : Nat := (m.byte (pd.ptr + 12)).toNat / 16

/-- The header is cut off, or its data offset is too small, or too large for the payload. -/
def MalformedTcp (m : Mem) (pd : Payload) : Prop :=
  pd.length < 20 ∨ tcpOffset m pd < 5 ∨ pd.length < 4 * tcpOffset m pd

instance (m : Mem) (pd : Payload) : Decidable (MalformedTcp m pd) :=
  inferInstanceAs (Decidable (_ ∨ _ ∨ _))

/-- Calls that push no event. -/
def NoEvent (ops : List Op) : Prop := ∀ ev, .event ev ∉ ops

section Malformed

variable {m : Mem} {pd : Payload} {cfg : TcpConfig τ} {st : TcpState τ} {e : Endpoints}
  {tv : Tcp.Timeval}

/-- `optlen` wraps when the offset is below five words. -/
theorem tcpOptLen_eq (b : UInt8) : tcpOptLen b =
    if b.toNat / 16 < 5 then 2 ^ 64 + 4 * (b.toNat / 16) - 20 else 4 * (b.toNat / 16) - 20 := by
  have hall : ∀ n : Fin 256, tcpOptLen (UInt8.ofNat n) =
      if n.val / 16 < 5 then 2 ^ 64 + 4 * (n.val / 16) - 20 else 4 * (n.val / 16) - 20 := by
    decide +kernel
  have hb := hall ⟨b.toNat, b.toNat_lt⟩
  rwa [UInt8.ofNat_toNat] at hb

/-- A header with an offset that is too small asks for more than any payload has. -/
theorem span_of_malformed (h : pd.WF) (hbad : MalformedTcp m pd) (h20 : 20 ≤ pd.length) :
    pd.length < tcpSpan m pd := by
  have hw := h.window
  have hf := h.fits
  unfold tcpSpan
  rw [tcpOptLen_eq]
  unfold MalformedTcp tcpOffset at hbad
  split <;> omega

theorem setProperties_refuses (h : pd.WF) (hm : m.Has 0 pd.stop) (h20 : 20 ≤ pd.length)
    (hs : pd.length < tcpSpan m pd) :
    Returns (setProperties m pd.ptr (pd.skip 20)) fun r => r.2.2 = false ∧ NoEvent r.2.1 := by
  have hw := h.window
  have hlen : (pd.skip 20).length = pd.length - 20 := rfl
  unfold tcpSpan at hs
  unfold setProperties
  refine .bind_ok (Mem.u16_eq hm (by omega) (by omega)) ?_
  refine .bind_ok (Mem.u16_eq hm (by omega) (by omega)) ?_
  refine .bind_ok (Mem.u8_eq hm (by omega) (by omega)) ?_
  generalize tcpOptLen (m.byte (pd.ptr + 12)) = n at hs
  dsimp only
  rw [if_pos (show n > 0 by omega), Payload.retain_eq (h.skip h20), if_neg (by omega)]
  exact returns_pure.mpr ⟨rfl, by simp [NoEvent]⟩

/-- **A malformed header is refused before the session management.** -/
theorem tcpDecode_refuses (h : pd.WF) (hm : m.Has 0 pd.stop) (hbad : MalformedTcp m pd) :
    Returns (tcpDecode cfg st e tv m pd) fun r => r.1 = st ∧ r.2.next = none ∧ NoEvent r.2.ops := by
  unfold tcpDecode
  rw [Payload.retain_eq h]
  by_cases h20 : 20 ≤ pd.length
  · rw [if_pos h20]
    refine (setProperties_refuses h hm h20 (span_of_malformed h hbad h20)).bind ?_
    rintro ⟨pd', ops, ok⟩ ⟨rfl, hops⟩
    exact returns_pure.mpr ⟨rfl, rfl, hops⟩
  · rw [if_neg h20]
    exact returns_ok.mpr ⟨rfl, rfl, by simp [NoEvent]⟩

end Malformed

/-- **A malformed TCP header never touches the session table**, whatever the decoders before have done to
the payload of the packet: the members of the module stay, no event is pushed, and `decode` returns
`NONE`. -/
theorem tcpDecode_malformed (cfg : TcpConfig τ) (st : TcpState τ) (e : Endpoints) (p : Packet)
    (calls : List PayloadCall)
    (hbad : MalformedTcp p.mem ((history p calls).cursor.payload p)) :
    Returns (tcpDecode cfg st e p.tv p.mem ((history p calls).cursor.payload p)) fun r =>
      r.1 = st ∧ r.2.next = none ∧ NoEvent r.2.ops := by
  obtain ⟨hwf, hstop⟩ := (inside_history p calls).wf
  exact tcpDecode_refuses hwf (hstop ▸ p.has_all) hbad

/-- A TCP segment of 20 bytes with a data offset of four words. -/
def shortOffset : Packet where
  addr := 4096
  data := List.replicate 20 0x40
  tv := ⟨1, 0⟩
  fits := by rw [List.length_replicate]; omega

/-- It opens no session. -/
theorem tcpDecode_malformed_short :
    Returns (tcpDecode ⟨true, 300, listHash⟩ { table := [] } ⟨[10, 0, 0, 1], [10, 0, 0, 2], 0, 0⟩
      shortOffset.tv shortOffset.mem ((history shortOffset []).cursor.payload shortOffset))
      fun r => r.1 = { table := [] } ∧ r.2.next = none ∧ NoEvent r.2.ops :=
  tcpDecode_malformed _ _ _ shortOffset [] (by decide +kernel)

/-! ## The clock of the table -/

/-- A table that also writes down what `step` is given. -/
def LruHash.logged (lru : LruHash τ) : LruHash (τ × List Int) where
  step t tick := (lru.step t.1 tick, t.2 ++ [tick])
  expire t := (lru.expire t.1, t.2)
  get t key := lru.get t.1 key
  put t tick key ssn := (lru.put t.1 tick key ssn, t.2)
  set t key ssn := (lru.set t.1 key ssn, t.2)

/-- The module with such a table. -/
def TcpConfig.logged (cfg : TcpConfig τ) : TcpConfig (τ × List Int) where
  enableSsnMgmt := cfg.enableSsnMgmt
  ssnTimeout := cfg.ssnTimeout
  lru := cfg.lru.logged

/-- The members without what was written down. -/
def TcpState.unlogged (st : TcpState (τ × List Int)) : TcpState τ where
  table := st.table.1
  ssnCount := st.ssnCount
  currTs := st.currTs
  initTs := st.initTs

section Unlogged

variable (cfg : TcpConfig τ) (st : TcpState (τ × List Int)) (e : Endpoints) (tv : Tcp.Timeval) (m : Mem)

theorem advance_unlogged (ts : Int) :
    (st.advance cfg.logged ts).unlogged = st.unlogged.advance cfg ts := by
  unfold TcpState.advance
  by_cases h : st.currTs < ts
  · rw [if_pos h, if_pos (show st.unlogged.currTs < ts from h)]
    cases hi : st.initTs <;> simp [TcpState.unlogged, TcpConfig.logged, LruHash.logged, hi]
  · rw [if_neg h, if_neg (show ¬ st.unlogged.currTs < ts from h)]

theorem searchSession_unlogged (key : List UInt8) : searchSession cfg st.unlogged e key =
    ((searchSession cfg.logged st e key).1.unlogged, (searchSession cfg.logged st e key).2) := by
  have hget : cfg.logged.lru.get st.table key = cfg.lru.get st.unlogged.table key := rfl
  unfold searchSession
  rw [hget]
  cases cfg.lru.get st.unlogged.table key <;> rfl

theorem sessionMgmt_unlogged (hdr segOff segLen : Nat) :
    sessionMgmt cfg st.unlogged e tv m hdr segOff segLen =
      (sessionMgmt cfg.logged st e tv m hdr segOff segLen).map fun r => (r.1.unlogged, r.2) := by
  have hst : { st.unlogged.advance cfg tv.sec with
      table := cfg.lru.expire (st.unlogged.advance cfg tv.sec).table } =
      TcpState.unlogged { st.advance cfg.logged tv.sec with
        table := cfg.logged.lru.expire (st.advance cfg.logged tv.sec).table } := by
    rw [← advance_unlogged]
    rfl
  unfold sessionMgmt
  dsimp only
  rw [hst]
  cases makeKey e with
  | error f => rfl
  | ok key =>
    simp only [bind, Except.bind, searchSession_unlogged]
    cases m.u8 (hdr + 13) with
    | error f => rfl
    | ok flags =>
      cases m.u32 (hdr + 4) with
      | error f => rfl
      | ok seq =>
        cases m.u32 (hdr + 8) with
        | error f => rfl
        | ok ack =>
          cases m.u16 (hdr + 14) with
          | error f => rfl
          | ok win =>
            cases m.bytes segOff segLen with
            | error f => rfl
            | ok data =>
              generalize searchSession cfg.logged _ e key = found
              dsimp only
              generalize Tcp.decode _ _ = out
              cases out <;> rfl

/-- **The decoder does not see that the table is logged.** -/
theorem tcpDecode_unlogged (pd : Payload) : tcpDecode cfg st.unlogged e tv m pd =
    (tcpDecode cfg.logged st e tv m pd).map fun r => (r.1.unlogged, r.2) := by
  unfold tcpDecode
  cases pd.retain 20 with
  | none => rfl
  | some r =>
    obtain ⟨hdr, pd'⟩ := r
    dsimp only
    cases setProperties m hdr pd' with
    | error f => rfl
    | ok r' =>
      obtain ⟨pd1, ops, ok⟩ := r'
      have hon : cfg.logged.enableSsnMgmt = cfg.enableSsnMgmt := rfl
      simp only [bind, Except.bind, hon, sessionMgmt_unlogged]
      cases ok with
      | false => rfl
      | true =>
        cases cfg.enableSsnMgmt with
        | false => rfl
        | true =>
          cases m.u16 hdr with
          | error f => rfl
          | ok sport =>
            cases m.u16 (hdr + 2) with
            | error f => rfl
            | ok dport =>
              simp only [not_true_eq_false, if_false, if_true]
              generalize sessionMgmt cfg.logged _ _ _ _ _ _ _ = out
              cases out <;> rfl

end Unlogged

/-! ### What a packet does to the clock -/

/-- `curr_ts_`, `init_ts_` and the amounts that `step` was given. -/
structure Clock where
  currTs : Int := 0
  initTs : Bool := false
  steps : List Int := []
  deriving DecidableEq, Repr

/-- The clock of the module. -/
def TcpState.clock (st : TcpState (τ × List Int)) : Clock := ⟨st.currTs, st.initTs, st.table.2⟩

/-- A packet with the time stamp `ts`. -/
def Clock.tick (c : Clock) (ts : Int) : Clock :=
  if c.currTs < ts then
    { currTs := ts
      initTs := true
      steps := if c.initTs then c.steps ++ [ts - c.currTs] else c.steps }
  else c

/-- A well-formed TCP packet as `TCP::decode` gets it. -/
structure TcpArrival where
  m : Mem
  pd : Payload
  e : Endpoints
  tv : Tcp.Timeval
  wf : pd.WF
  has : m.Has 0 pd.stop
  whole : tcpSpan m pd ≤ pd.length
  paired : e.srcAddr.length = e.dstAddr.length
  nonneg : 0 ≤ tv.sec

/-- `prop->ts()`. -/
def TcpArrival.ts (a : TcpArrival) : Int := a.tv.sec

/-- `TCP::decode` of a packet. -/
def TcpState.arrive (cfg : TcpConfig τ) (st : TcpState τ) (a : TcpArrival) :
    Except Fault (TcpState τ) := do
  let r ← tcpDecode cfg st a.e a.tv a.m a.pd
  return r.1

section Tick

variable {cfg : TcpConfig τ} {st : TcpState (τ × List Int)}

theorem clock_advance (ts : Int) : (st.advance cfg.logged ts).clock = st.clock.tick ts := by
  unfold TcpState.advance Clock.tick
  by_cases h : st.currTs < ts
  · rw [if_pos h, if_pos (show st.clock.currTs < ts from h)]
    cases hi : st.initTs <;> simp [TcpState.clock, TcpConfig.logged, LruHash.logged, hi]
  · rw [if_neg h, if_neg (show ¬ st.clock.currTs < ts from h)]

theorem clock_searchSession (e : Endpoints) (key : List UInt8) :
    (searchSession cfg.logged st e key).1.clock = st.clock := by
  unfold searchSession
  split <;> rfl

/-- **A packet lets the clock tick once.** -/
theorem arrive_clock (hon : cfg.enableSsnMgmt = true) (a : TcpArrival) :
    Returns (st.arrive cfg.logged a) fun st' => st'.clock = st.clock.tick a.ts := by
  obtain ⟨m, pd, e, tv, hwf, hm, hs, he, -⟩ := a
  obtain ⟨⟨key, hkey⟩, -⟩ := makeKey_canonical (p := tcpEnds m pd e) (q := tcpEnds m pd e) he he
  obtain ⟨r, -, hr⟩ := @sessionMgmt_eq _ m pd cfg.logged st (tcpEnds m pd e) tv hwf hm hs key hkey _ rfl
  have hon : cfg.logged.enableSsnMgmt = true := hon
  have hdec : Returns (tcpDecode cfg.logged st e tv m pd) fun r => r.1.clock = st.clock.tick tv.sec := by
    rw [tcpDecode_eq hwf hm hs, if_pos hon, hr]
    refine returns_pure.mpr ?_
    change (searchSession cfg.logged (st.upTo cfg.logged tv.sec) (tcpEnds m pd e) key).1.clock = _
    rw [clock_searchSession, ← @clock_advance _ cfg]
    rfl
  exact hdec.bind fun r hr => returns_pure.mpr hr

end Tick

/-! ### Every sequence of packets -/

/-- `TCP::decode` of the packets, one after the other. -/
def TcpState.arriveAll (cfg : TcpConfig τ) (st : TcpState τ) (as : List TcpArrival) :
    Except Fault (TcpState τ) :=
  as.foldlM (TcpState.arrive cfg) st

/-- The clock was moved forward only, from the first time stamp to the greatest. -/
def Clock.Tracks (first : Int) (seen : List Int) (c : Clock) : Prop :=
  (∀ d ∈ c.steps, 0 < d) ∧ c.steps.sum = seen.foldl max first - first

section Runs

variable {cfg : TcpConfig τ} {c : Clock}

theorem arriveAll_clock (hon : cfg.enableSsnMgmt = true) (as : List TcpArrival)
    (st : TcpState (τ × List Int)) : Returns (st.arriveAll cfg.logged as) fun st' =>
      st'.clock = (as.map TcpArrival.ts).foldl Clock.tick st.clock := by
  induction as generalizing st with
  | nil => exact returns_pure.mpr rfl
  | cons a as ih =>
    unfold TcpState.arriveAll
    rw [List.foldlM_cons]
    refine (arrive_clock hon a).bind fun st' hst => ?_
    rw [List.map_cons, List.foldl_cons, ← hst]
    exact ih st'

/-- **`step` is never given 0 or less.** -/
theorem steps_pos (ts : List Int) (h : ∀ d ∈ c.steps, 0 < d) :
    ∀ d ∈ (ts.foldl Clock.tick c).steps, 0 < d := by
  induction ts generalizing c with
  | nil => exact h
  | cons t ts ih =>
    refine ih fun d hd => ?_
    unfold Clock.tick at hd
    split at hd
    · rename_i hlt
      dsimp only at hd
      split at hd
      · rcases List.mem_append.mp hd with hd | hd
        · exact h d hd
        · obtain rfl := List.mem_singleton.mp hd
          omega
      · exact h d hd
    · exact h d hd

/-- Once `init_ts_` is set the amounts add up. -/
theorem run_init (ts : List Int) (h : c.initTs = true) :
    (ts.foldl Clock.tick c).steps.sum = c.steps.sum + (ts.foldl max c.currTs - c.currTs) := by
  induction ts generalizing c with
  | nil => simp
  | cons t ts ih =>
    rw [List.foldl_cons, List.foldl_cons]
    by_cases hlt : c.currTs < t
    · have htick : c.tick t = ⟨t, true, c.steps ++ [t - c.currTs]⟩ := by
        simp [Clock.tick, hlt, h]
      rw [htick, ih rfl, Int.max_eq_right (Int.le_of_lt hlt), List.sum_append, List.sum_singleton]
      dsimp only
      omega
    · rw [Clock.tick, if_neg hlt, ih h, Int.max_eq_left (Int.not_lt.mp hlt)]

/-- Packets at time 0 leave a new clock as it is. -/
theorem tick_zero : Clock.tick {} 0 = {} := rfl

theorem run_zero {ts : List Int} (h : ∀ t ∈ ts, t = 0) :
    ts.foldl Clock.tick {} = {} ∧ ts.foldl max 0 = 0 := by
  induction ts with
  | nil => exact ⟨rfl, rfl⟩
  | cons t ts ih =>
    obtain ⟨rfl, hts⟩ := List.forall_mem_cons.mp h
    exact ih hts

/-- The first packet after time 0 sets `init_ts_` and is not stepped to. -/
theorem zero_of_tracks {ts : List Int} (hn : ∀ t ∈ ts, 0 ≤ t)
    (h : ∀ us, us <+: ts → (us.foldl Clock.tick {}).Tracks 0 us) : ∀ t ∈ ts, t = 0 := by
  induction ts with
  | nil => simp
  | cons t ts ih =>
    obtain ⟨ht, hts⟩ := List.forall_mem_cons.mp hn
    have hzero : t = 0 := by
      by_contra hne
      have hlt : 0 < t := by omega
      obtain ⟨-, hsum⟩ := h [t] (by simp)
      have hno : Clock.tick {} t = ⟨t, true, []⟩ := by simp [Clock.tick, hlt]
      rw [List.foldl_cons, List.foldl_nil, hno, List.foldl_cons, List.foldl_nil,
        Int.max_eq_right (Int.le_of_lt hlt)] at hsum
      simp only [List.sum_nil] at hsum
      omega
    subst hzero
    refine List.forall_mem_cons.mpr ⟨rfl, ih hts fun us hus => ?_⟩
    exact h (0 :: us) (List.cons_prefix_cons.mpr ⟨rfl, hus⟩)

/-- The clock alone tracks the time in the same cases. -/
theorem tracks_iff {first : Int} {ts : List Int} (h0 : 0 ≤ first) (hn : ∀ t ∈ ts, 0 ≤ t) :
    (∀ us, us <+: ts → ((first :: us).foldl Clock.tick {}).Tracks first us) ↔
      0 < first ∨ ∀ t ∈ ts, t = 0 := by
  constructor
  · intro h
    by_cases hpos : 0 < first
    · exact .inl hpos
    · obtain rfl : first = 0 := by omega
      exact .inr (zero_of_tracks hn h)
  · intro h us hus
    refine ⟨steps_pos _ (by simp), ?_⟩
    by_cases hpos : 0 < first
    · have hfirst : Clock.tick {} first = ⟨first, true, []⟩ := by simp [Clock.tick, hpos]
      rw [List.foldl_cons, hfirst, run_init us rfl]
      simp
    · obtain rfl : first = 0 := by omega
      have hzero := h.resolve_left hpos
      obtain ⟨hrun, hmax⟩ := run_zero fun t ht => hzero t (hus.subset ht)
      rw [List.foldl_cons, tick_zero, hrun, hmax]
      rfl

/-- **The clock of the session table tracks the time of the packets exactly when the first packet comes
after time 0, or no packet does.** -/
theorem clock_tracks_iff (hon : cfg.enableSsnMgmt = true) (table : τ) (a : TcpArrival)
    (as : List TcpArrival) :
    (∀ bs, bs <+: as → Returns (TcpState.arriveAll cfg.logged { table := (table, []) } (a :: bs)) fun st =>
        st.clock.Tracks a.ts (bs.map TcpArrival.ts)) ↔
      0 < a.ts ∨ ∀ b ∈ as, b.ts = 0 := by
  have hrun : ∀ bs, Returns (TcpState.arriveAll cfg.logged { table := (table, []) } (a :: bs)) (fun st =>
      st.clock.Tracks a.ts (bs.map TcpArrival.ts)) ↔
      ((a.ts :: bs.map TcpArrival.ts).foldl Clock.tick {}).Tracks a.ts (bs.map TcpArrival.ts) := by
    intro bs
    obtain ⟨st, hst, hclock⟩ := arriveAll_clock hon (a :: bs) { table := (table, []) }
    rw [hst, returns_ok, hclock]
    rfl
  have hn : ∀ t ∈ as.map TcpArrival.ts, 0 ≤ t := by
    intro t ht
    obtain ⟨b, -, rfl⟩ := List.mem_map.mp ht
    exact b.nonneg
  have hiff := tracks_iff (show 0 ≤ a.ts from a.nonneg) hn
  simp only [List.forall_mem_map] at hiff
  rw [← hiff]
  constructor
  · intro h us hus
    obtain ⟨bs, hbs, rfl⟩ := List.prefix_map_iff.mp hus
    exact (hrun bs).mp (h bs hbs)
  · intro h bs hbs
    exact (hrun bs).mpr (h _ (hbs.map _))

end Runs

/-- A TCP header without options at a time. -/
def headerAt (sec : Nat) : TcpArrival where
  m i := (List.replicate 20 (0x50 : UInt8))[i]?
  pd := ⟨0, 0, 20, 20⟩
  e := ⟨[10, 0, 0, 1], [10, 0, 0, 2], 0, 0⟩
  tv := ⟨sec, 0⟩
  wf := ⟨Nat.le_refl 20, by simp⟩
  has k _ hk := by simp_all
  whole := by decide +kernel
  paired := rfl
  nonneg := Int.natCast_nonneg sec

/-- **A capture that starts at time 0 loses the time to the next packet.** -/
theorem clock_loses_start :
    ¬ ∀ bs, bs <+: [headerAt 5] →
      Returns (TcpState.arriveAll (TcpConfig.logged ⟨true, 300, listHash⟩) { table := ([], []) }
        (headerAt 0 :: bs)) fun st => st.clock.Tracks (headerAt 0).ts (bs.map TcpArrival.ts) := by
  intro h
  obtain ⟨st, hst, -, hsum⟩ := h [headerAt 5] (List.prefix_refl _)
  obtain ⟨st', hst', hclock⟩ := @arriveAll_clock _ ⟨true, 300, listHash⟩ rfl
    [headerAt 0, headerAt 5] { table := ([], []) }
  obtain rfl := Except.ok.inj (hst.symm.trans hst')
  rw [hclock] at hsum
  revert hsum
  decide

/-- Packets at the times 7, 3, 9 and 9. -/
theorem clock_tracks_late :
    Returns (TcpState.arriveAll (TcpConfig.logged ⟨true, 300, listHash⟩) { table := ([], []) }
      [headerAt 7, headerAt 3, headerAt 9, headerAt 9]) fun st =>
        st.clock.Tracks (headerAt 7).ts ([headerAt 3, headerAt 9, headerAt 9].map TcpArrival.ts) :=
  (clock_tracks_iff rfl [] (headerAt 7) [headerAt 3, headerAt 9, headerAt 9]).mpr (.inl (by decide)) _
    (List.prefix_refl _)

end PacketMachine.Decode
