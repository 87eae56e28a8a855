import PacketMachine.Decode.Data
import PacketMachine.Tcp.Accounting

/-!
# `TCP.tx_server` and `TCP.tx_client`

At the end of `Session::decode` (`modules/tcp.cc:420-425`) the counter of the client's stream is copied
to `TCP.tx_server` and that of the server's stream to `TCP.tx_client`. Both are 0 after every packet of
every run (`Tcp.counters_run`), so that they show the transferred bytes exactly when there are none,
modulo 2^32.
-/

namespace PacketMachine.Decode

open PacketMachine.Lib Tcp

section Reader

variable {q : Property} {m : Mem}

/-- The calls for a counter, from the record of a session. -/
theorem setCalls_counters {d : Param} (hd : d = .tcpTxServer ∨ d = .tcpTxClient) (segPtr : Ptr)
    (segLen : Nat) (out : List Eff) :
    setCalls d (out.flatMap (effOps segPtr segLen))
      = setCalls d ((counters out).flatMap (effOps segPtr segLen)) := by
  induction out with
  | nil => rfl
  | cons e out ih =>
    cases hc : e.isCounter with
    | true =>
      rw [counters, List.filter_cons_of_pos hc, List.flatMap_cons, List.flatMap_cons, setCalls_append,
        setCalls_append, ih]
      rfl
    | false =>
      have hnone : setCalls d (effOps segPtr segLen e) = [] := by
        cases e with
        | txServer n => cases hc
        | txClient n => cases hc
        | pushEvent ev => cases ev <;> rfl
        | data ref => rcases hd with rfl | rfl <;> cases ref <;> rfl
        | rtt3wh us => rcases hd with rfl | rfl <;> rfl
        | _ => rfl
      rw [counters, List.filter_cons_of_neg (by simp [hc]), List.flatMap_cons, setCalls_append, hnone,
        ih]
      rfl

/-- **A counter reads 0** when the record has filled it with 0 alone. -/
theorem counter_uint64 {d : Param} (hd : d = .tcpTxServer ∨ d = .tcpTxClient) (hw : q.WF)
    (hc : q.count d = 0) {l : List Eff} (hl : counters l = [.txServer 0, .txClient 0]) (segPtr : Ptr)
    (segLen : Nat) :
    (q.exec (l.flatMap (effOps segPtr segLen))).uint64 m (.param d) = .ok 0 := by
  have hcalls : setCalls d (l.flatMap (effOps segPtr segLen))
      = [fun c => c.cpy (hostU32 0) .little] := by
    rw [setCalls_counters hd, hl]
    rcases hd with rfl | rfl <;> rfl
  have hdirect : d.direct = true := by
    rcases hd with rfl | rfl <;> rfl
  rw [(shows_call hdirect hw hc hcalls fun c => Cell.same_cpy _ _).uint64_eq]
  rfl

/-- **The transfer counters show the bytes that were accepted so far exactly when both directions
accepted a multiple of 2^32 of them**, after every packet `p` of every run of a new session. The
property is that of the packet, for which the counters were not yet retained. -/
theorem counters_true_iff (src dst : Endpoint) (ssnId : UInt64) (ps : List Tcp.Packet)
    (p : Tcp.Packet) (hw : q.WF) (hs : q.count .tcpTxServer = 0) (hc : q.count .tcpTxClient = 0)
    (segOff : Nat) :
    ∃ st st' l, run (State.new src dst ssnId) ps = some st ∧ Tcp.decode st p = some st' ∧
      st'.out = st.out ++ l ∧
      ((q.exec (l.flatMap (effOps (segmentPtr segOff p) p.data.length))).uint64 m (.param .tcpTxServer)
            = .ok (acceptedBytes .client st'.out % 2 ^ 32) ∧
          (q.exec (l.flatMap (effOps (segmentPtr segOff p) p.data.length))).uint64 m
              (.param .tcpTxClient)
            = .ok (acceptedBytes .server st'.out % 2 ^ 32)
        ↔ ∀ sd, 2 ^ 32 ∣ acceptedBytes sd st'.out) := by
  obtain ⟨st, hst⟩ := run_isSome (State.new src dst ssnId) ps
  obtain ⟨st', hst'⟩ := decode_isSome st p
  obtain ⟨l, hout, hl⟩ := counters_run hst hst'
  refine ⟨st, st', l, hst, hst', hout, ?_⟩
  rw [counter_uint64 (.inl rfl) hw hs hl, counter_uint64 (.inr rfl) hw hc hl]
  constructor
  · rintro ⟨hclient, hserver⟩ sd
    cases sd with
    | client => exact Nat.dvd_of_mod_eq_zero (Except.ok.inj hclient).symm
    | server => exact Nat.dvd_of_mod_eq_zero (Except.ok.inj hserver).symm
  · intro h
    rw [Nat.mod_eq_zero_of_dvd (h .client), Nat.mod_eq_zero_of_dvd (h .server)]
    exact ⟨rfl, rfl⟩

end Reader

/-- Two bytes of a client that make two stored ones follow. -/
theorem counters_true_gap :
    (({} : Property).WF ∧ ({} : Property).count .tcpTxServer = 0 ∧
        ({} : Property).count .tcpTxClient = 0) ∧
      ∃ st st' l,
        run (State.new hostC hostS 1) (handshake ++ [pkt hostC ACK 103 [3, 4]]) = some st ∧
        Tcp.decode st (pkt hostC ACK 101 [1, 2]) = some st' ∧ st'.out = st.out ++ l ∧
        ((({} : Property).exec
              (l.flatMap (effOps (segmentPtr 0 (pkt hostC ACK 101 [1, 2])) 2))).uint64
              (segmentMem (pkt hostC ACK 101 [1, 2])) (.param .tcpTxServer)
            = .ok (acceptedBytes .client st'.out % 2 ^ 32) ∧
          (({} : Property).exec
              (l.flatMap (effOps (segmentPtr 0 (pkt hostC ACK 101 [1, 2])) 2))).uint64
              (segmentMem (pkt hostC ACK 101 [1, 2])) (.param .tcpTxClient)
            = .ok (acceptedBytes .server st'.out % 2 ^ 32)
          ↔ ∀ sd, 2 ^ 32 ∣ acceptedBytes sd st'.out) :=
  ⟨⟨Property.wf_empty, rfl, rfl⟩,
    counters_true_iff hostC hostS 1 (handshake ++ [pkt hostC ACK 103 [3, 4]])
      (pkt hostC ACK 101 [1, 2]) Property.wf_empty rfl rfl 0⟩

/-- What the counters show for the last of the packets, and what was accepted of both sides. -/
def transferAfter (ps : List Tcp.Packet) (p : Tcp.Packet) :
    Option (Except Fault Nat × Except Fault Nat × Nat × Nat) := do
  let st ← run (State.new hostC hostS 1) ps
  let st' ← Tcp.decode st p
  let q := ({} : Property).exec
    ((st'.out.drop st.out.length).flatMap (effOps (segmentPtr 0 p) p.data.length))
  return (q.uint64 (segmentMem p) (.param .tcpTxServer), q.uint64 (segmentMem p) (.param .tcpTxClient),
    acceptedBytes .client st'.out, acceptedBytes .server st'.out)

/-- **Two bytes of the client are accepted, and none is shown.** -/
theorem counters_show_none :
    transferAfter handshake (pkt hostC ACK 101 [1, 2]) = some (.ok 0, .ok 0, 2, 0) := by
  decide +kernel

end PacketMachine.Decode
