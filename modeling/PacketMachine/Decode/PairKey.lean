import PacketMachine.Decode.TcpModule

/-!
# The key of a session is its unordered pair of endpoints

`Session::make_key` (`modules/tcp.cc:428-455`) writes the two endpoints one behind the other, the greater
one first: by `memcmp` of the addresses and then by the port as a number.

Results:
* `makeKey_eq_iff`: two pairs of endpoints with addresses of one length have the same key exactly when
  they are the same up to the order.
* **`makeKey_canonical`**: so do any two packets, also when the length of the addresses differs from one
  packet to the other.
-/

namespace PacketMachine.Decode

/-- The endpoints of a property, from one to the other. -/
def Endpoints.between (a b : Tcp.Endpoint) : Endpoints := ⟨a.addr, b.addr, a.port, b.port⟩

/-- An endpoint in a key. -/
def endpointBytes (a : Tcp.Endpoint) : List UInt8 := a.addr ++ hostU16 a.port.toNat

/-- The source is written first. -/
def Above (a b : Tcp.Endpoint) : Prop :=
  memcmp a.addr b.addr = .gt ∨ memcmp a.addr b.addr = .eq ∧ a.port > b.port

instance (a b : Tcp.Endpoint) : Decidable (Above a b) := inferInstanceAs (Decidable (_ ∨ _))

section Compare

variable {as bs : List UInt8}

theorem byte_cases (a b : UInt8) : a < b ∧ ¬ b < a ∨ a = b ∨ b < a ∧ ¬ a < b := by
  simp only [UInt8.lt_iff_toNat_lt, ← UInt8.toNat_inj]
  omega

theorem memcmp_swap (as bs : List UInt8) : memcmp bs as = (memcmp as bs).swap := by
  induction as generalizing bs with
  | nil => cases bs <;> rfl
  | cons a as ih =>
    cases bs with
    | nil => rfl
    | cons b bs =>
      rcases byte_cases a b with ⟨h, h'⟩ | rfl | ⟨h, h'⟩
      · simp [memcmp, h, h']
      · simpa [memcmp] using ih bs
      · simp [memcmp, h, h']

theorem memcmp_eq_iff (h : as.length = bs.length) : memcmp as bs = .eq ↔ as = bs := by
  induction as generalizing bs with
  | nil =>
    obtain rfl : bs = [] := List.eq_nil_of_length_eq_zero h.symm
    simp [memcmp]
  | cons a as ih =>
    cases bs with
    | nil => cases h
    | cons b bs =>
      rcases byte_cases a b with ⟨h1, h2⟩ | rfl | ⟨h1, h2⟩
      · have hne : a ≠ b := fun he => h2 (he ▸ h1)
        simp [memcmp, h1, hne]
      · simpa [memcmp] using ih (Nat.succ.inj h)
      · have hne : a ≠ b := fun he => h2 (he ▸ h1)
        simp [memcmp, h1, h2, hne]

theorem hostU16_inj {p q : UInt16} (h : hostU16 p.toNat = hostU16 q.toNat) : p = q := by
  have hp := p.toNat_lt
  have hq := q.toNat_lt
  simp only [hostU16, List.cons.injEq, and_true] at h
  have h1 := congrArg UInt8.toNat h.1
  have h2 := congrArg UInt8.toNat h.2
  simp only [UInt8.toNat_ofNat'] at h1 h2
  exact UInt16.toNat_inj.mp (by omega)

end Compare

section Key

variable {a b c d : Tcp.Endpoint} {n : Nat}

theorem endpointBytes_inj (h : a.addr.length = b.addr.length) (he : endpointBytes a = endpointBytes b) :
    a = b := by
  obtain ⟨ha, hp⟩ := List.append_inj he h
  have hport := hostU16_inj hp
  cases a
  cases b
  simp_all

/-- Of two different endpoints exactly one is above. -/
theorem above_comm (h : a.addr.length = b.addr.length) (hne : a ≠ b) : Above b a ↔ ¬ Above a b := by
  have hswap := memcmp_swap a.addr b.addr
  have heq := memcmp_eq_iff h
  unfold Above
  cases hc : memcmp a.addr b.addr with
  | lt => simp [hswap, hc]
  | gt => simp [hswap, hc]
  | eq =>
    have haddr := heq.mp hc
    have hport : a.port ≠ b.port := by
      intro hp
      cases a
      cases b
      simp_all
    simp only [hswap, hc, Ordering.swap_eq, reduceCtorEq, true_and, false_or, gt_iff_lt,
      UInt16.lt_iff_toNat_lt]
    have hne : a.port.toNat ≠ b.port.toNat := fun he => hport (UInt16.toNat_inj.mp he)
    omega

theorem makeKey_between (h : a.addr.length = b.addr.length) : makeKey (.between a b)
    = .ok (if Above a b then endpointBytes a ++ endpointBytes b else endpointBytes b ++ endpointBytes a) :=
  if_pos h

/-- Both directions have one key. -/
theorem makeKey_comm (h : a.addr.length = b.addr.length) :
    makeKey (.between b a) = makeKey (.between a b) := by
  by_cases hne : a = b
  · rw [hne]
  · rw [makeKey_between h, makeKey_between h.symm]
    by_cases hl : Above a b
    · rw [if_pos hl, if_neg fun hc => (above_comm h hne).mp hc hl]
    · rw [if_neg hl, if_pos ((above_comm h hne).mpr hl)]

theorem length_endpointBytes (a : Tcp.Endpoint) : (endpointBytes a).length = a.addr.length + 2 := by
  simp [endpointBytes, hostU16]

/-- **The key is the unordered pair.** -/
theorem makeKey_eq_iff (ha : a.addr.length = n) (hb : b.addr.length = n) (hc : c.addr.length = n)
    (hd : d.addr.length = n) :
    makeKey (.between a b) = makeKey (.between c d) ↔ s(a, b) = s(c, d) := by
  constructor
  · intro h
    have hsplit : ∀ {x y z w : Tcp.Endpoint}, x.addr.length = n → y.addr.length = n →
        z.addr.length = n → w.addr.length = n →
        endpointBytes x ++ endpointBytes y = endpointBytes z ++ endpointBytes w → x = z ∧ y = w := by
      intro x y z w hx hy hz hw he
      have hlen : (endpointBytes x).length = (endpointBytes z).length := by
        rw [length_endpointBytes, length_endpointBytes, hx, hz]
      obtain ⟨h1, h2⟩ := List.append_inj he hlen
      exact ⟨endpointBytes_inj (hx.trans hz.symm) h1, endpointBytes_inj (hy.trans hw.symm) h2⟩
    rw [makeKey_between (ha.trans hb.symm), makeKey_between (hc.trans hd.symm)] at h
    have h := Except.ok.inj h
    rw [Sym2.eq_iff]
    split_ifs at h
    · exact .inl (hsplit ha hb hc hd h)
    · exact .inr (hsplit ha hb hd hc h)
    · exact .inr (hsplit hb ha hc hd h).symm
    · exact .inl (hsplit hb ha hd hc h).symm
  · intro h
    rcases Sym2.eq_iff.mp h with ⟨rfl, rfl⟩ | ⟨rfl, rfl⟩
    · rfl
    · exact makeKey_comm (hb.trans ha.symm)

/-- The length of a key tells the length of the addresses. -/
theorem makeKey_length (h : a.addr.length = b.addr.length) :
    Lib.Returns (makeKey (.between a b)) fun key => key.length = 2 * a.addr.length + 4 := by
  rw [makeKey_between h, Lib.returns_ok]
  split
  all_goals
    rw [List.length_append, length_endpointBytes, length_endpointBytes]
    omega

end Key

/-! ## Packets -/

/-- The unordered pair of the endpoints. -/
def Endpoints.pair (e : Endpoints) : Sym2 Tcp.Endpoint := s(⟨e.srcAddr, e.srcPort⟩, ⟨e.dstAddr, e.dstPort⟩)

/-- The endpoints of a packet in the other direction. -/
def Endpoints.reply (e : Endpoints) : Endpoints := ⟨e.dstAddr, e.srcAddr, e.dstPort, e.srcPort⟩

section Packets

variable {p q : Endpoints}

/-- Addresses of different lengths make different keys. -/
theorem makeKey_ne (hp : p.srcAddr.length = p.dstAddr.length) (hq : q.srcAddr.length = q.dstAddr.length)
    (hne : p.srcAddr.length ≠ q.srcAddr.length) : makeKey p ≠ makeKey q := by
  intro heq
  obtain ⟨k, hk, hlen⟩ := makeKey_length (a := ⟨p.srcAddr, p.srcPort⟩) (b := ⟨p.dstAddr, p.dstPort⟩) hp
  obtain ⟨k', hk', hlen'⟩ := makeKey_length (a := ⟨q.srcAddr, q.srcPort⟩) (b := ⟨q.dstAddr, q.dstPort⟩) hq
  have hkk : k = k' := Except.ok.inj (hk.symm.trans (heq.trans hk'))
  rw [hkk] at hlen
  have hsum : 2 * p.srcAddr.length + 4 = 2 * q.srcAddr.length + 4 := hlen.symm.trans hlen'
  omega

/-- Nor are they of one pair. -/
theorem pair_ne (hq : q.srcAddr.length = q.dstAddr.length) (hne : p.srcAddr.length ≠ q.srcAddr.length) :
    p.pair ≠ q.pair := by
  intro heq
  rcases Sym2.eq_iff.mp heq with ⟨h, -⟩ | ⟨h, -⟩
  · exact hne (congrArg (·.addr.length) h)
  · exact hne ((congrArg (·.addr.length) h).trans hq.symm)

/-- **Session keys are canonical**: `make_key` fails no assertion, the key is the unordered pair of the
endpoints, and it is the one of the other direction. -/
theorem makeKey_canonical (hp : p.srcAddr.length = p.dstAddr.length)
    (hq : q.srcAddr.length = q.dstAddr.length) :
    (∃ key, makeKey p = .ok key) ∧ (makeKey p = makeKey q ↔ p.pair = q.pair) ∧
      makeKey p.reply = makeKey p := by
  refine ⟨?_, ?_, ?_⟩
  · obtain ⟨key, hkey, -⟩ :=
      makeKey_length (a := ⟨p.srcAddr, p.srcPort⟩) (b := ⟨p.dstAddr, p.dstPort⟩) hp
    exact ⟨key, hkey⟩
  · by_cases hlen : p.srcAddr.length = q.srcAddr.length
    · exact makeKey_eq_iff (a := ⟨p.srcAddr, p.srcPort⟩) (b := ⟨p.dstAddr, p.dstPort⟩)
        (c := ⟨q.srcAddr, q.srcPort⟩) (d := ⟨q.dstAddr, q.dstPort⟩) hlen (hp.symm.trans hlen) rfl hq.symm
    · exact iff_of_false (makeKey_ne hp hq hlen) (pair_ne hq hlen)
  · exact makeKey_comm (a := ⟨p.srcAddr, p.srcPort⟩) (b := ⟨p.dstAddr, p.dstPort⟩) hp

end Packets

/-- The two directions between an address and itself, and an IPv6 packet between the ports of these. -/
theorem makeKey_canonical_loopback :
    (∃ key, makeKey ⟨[127, 0, 0, 1], [127, 0, 0, 1], 80, 4000⟩ = .ok key) ∧
      makeKey ⟨[127, 0, 0, 1], [127, 0, 0, 1], 80, 4000⟩
        = makeKey ⟨[127, 0, 0, 1], [127, 0, 0, 1], 4000, 80⟩ ∧
      makeKey ⟨[127, 0, 0, 1], [127, 0, 0, 1], 80, 4000⟩
        ≠ makeKey ⟨List.replicate 16 1, List.replicate 16 1, 80, 4000⟩ := by
  obtain ⟨hkey, hiff, -⟩ := makeKey_canonical (p := ⟨[127, 0, 0, 1], [127, 0, 0, 1], 80, 4000⟩)
    (q := ⟨[127, 0, 0, 1], [127, 0, 0, 1], 4000, 80⟩) rfl rfl
  obtain ⟨-, hiff6, -⟩ := makeKey_canonical (p := ⟨[127, 0, 0, 1], [127, 0, 0, 1], 80, 4000⟩)
    (q := ⟨List.replicate 16 1, List.replicate 16 1, 80, 4000⟩) rfl rfl
  exact ⟨hkey, hiff.mpr Sym2.eq_swap, fun h => pair_ne rfl (by decide) (hiff6.mp h)⟩

end PacketMachine.Decode
