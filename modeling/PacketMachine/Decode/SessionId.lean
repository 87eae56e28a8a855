import PacketMachine.Decode.PairKey
import PacketMachine.Decode.RoundTrip

/-!
# `TCP.id` and the sessions of a run

`TCP::decode` (`modules/tcp.cc:603-684`) takes out the expired sessions, looks for the one of the
packet, makes one when there is none, and stores its number in `TCP.id`.

* What is assumed of `tb::LruHash` is `LruHash.Law`: `get` returns what was put under the key, until
  `pop_expired` reports it.
* `Live` says what users are told: which unordered pairs of endpoints have a session, with its number,
  and how many there were. A packet first loses the sessions that are reported, then counts a new one
  when its pair has none (`Live.drop`, `Live.see`).
* `cpy` is called with the number as it lies in the memory of the (little-endian) host, and without an
  endianness, which makes it a big-endian value.

Results:
* `process_tcp`: a well-formed packet of TCP looks up the session of its endpoints, whatever came before
  IPv4.
* `Tracked.numbered`: after every run the table agrees with `Live`.
* **`session_id_iff`**: `TCP.new_session` is pushed exactly for a pair that has no session; `TCP.id` reads
  as the number of the session exactly when its eight bytes are the same in both directions.
-/

namespace PacketMachine.Tcp

/-! ## A session keeps its number -/

section Id

variable {st : State}

theorem Session.id_setStream (s : Session) (sd : Side) (x : Stream) : (s.setStream sd x).id = s.id := by
  cases sd <;> rfl

theorem transState_id (flags : UInt8) (sender : Side) (seq : UInt32) (segLen : Nat) (tv : Timeval)
    (st : State) : (transState flags sender seq segLen tv st).1.ssn.id = st.ssn.id := by
  unfold transState
  split <;> try rfl
  all_goals
    split
    · simp [State.setBaseSeq, State.incSeq, State.setStream, State.setStatus, State.emit,
        Session.id_setStream]
    · rfl

theorem accept_id (c : Call) (seg : Segment) (st : State) : (accept c seg st).ssn.id = st.ssn.id := by
  have hset : ∀ (data : List UInt8) (st : State), (setData data st).ssn.id = st.ssn.id := by
    intro data st
    obtain ⟨b, ref, h⟩ := setData_eq data st
    rw [h]
  unfold accept
  dsimp only
  rw [hset, (Decode.dataRefs_pushEvents _ _).2, transState_id]
  simp [State.setStream, State.emit, Session.id_setStream]

theorem keep_id (c : Call) (seg : Segment) (st : State) : (keep c seg st).ssn.id = st.ssn.id := by
  unfold keep
  dsimp only
  split <;> rfl

/-- **`Session::decode` keeps the number.** -/
theorem decode_id {p : Packet} {st' : State} (h : decode st p = some st') : st'.ssn.id = st.ssn.id := by
  refine (works_decode h).keeps (I := fun c => c.st.ssn.id = st.ssn.id) ?_ rfl
  intro s j w hs
  refine perform_cases s j (Q := fun s' _ => s'.ssn.id = st.ssn.id) ?_ ?_ ?_ ?_ ?_
  · exact fun c seg _ _ => (keep_id c seg s).trans hs
  · exact fun c seg _ _ => (accept_id c seg s).trans hs
  · exact fun _ _ _ _ => hs
  · exact fun _ _ _ _ _ => hs
  · exact fun _ => hs

end Id

end PacketMachine.Tcp

namespace PacketMachine.Decode

open PacketMachine.Lib

variable {τ : Type}

/-! ## A packet of TCP -/

/-- **A well-formed packet of TCP**: the cursors of `IPv4` and `TCP` on its way, with the header of TCP
and its options in the window. -/
structure Packet.IsTcp (p : Packet) (ip tcp : Payload) : Prop where
  route : [(.ipv4, ip), (.tcp, tcp)] <:+ p.route
  span : tcpSpan p.mem tcp ≤ tcp.length

/-- The endpoint it comes from. -/
def Packet.source (p : Packet) (ip tcp : Payload) : Tcp.Endpoint :=
  ⟨p.mem.block (ip.ptr + 12) 4, UInt16.ofNat (p.mem.word tcp.ptr)⟩

/-- The endpoint it goes to. -/
def Packet.target (p : Packet) (ip tcp : Payload) : Tcp.Endpoint :=
  ⟨p.mem.block (ip.ptr + 16) 4, UInt16.ofNat (p.mem.word (tcp.ptr + 2))⟩

section Packets

variable {cfg : TcpConfig τ} {tv : Tcp.Timeval} {m : Mem} {start : Option Mod} {pd : Payload}
  {w w' : Worker τ} {vs : List Visit}

/-- Only `TCP` changes the state of the module. -/
theorem decodeMod_state {st : TcpState τ} {e : Endpoints} {mod : Mod} (h : mod ≠ .tcp) :
    Ensures (decodeMod cfg tv m st e pd mod) fun r => r.1 = st := by
  cases mod with
  | tcp => exact absurd rfl h
  | _ => exact ensures_bind fun s => ensures_pure rfl

/-- The worker before a visit. -/
theorem Loop.before {us rest : List Visit} {v : Visit} (h : Loop cfg tv m start pd w (us ++ v :: rest) w')
    (htcp : ∀ u ∈ us, u.mod ≠ .tcp) : ∃ w1 : Worker τ, w1.tcp = w.tcp ∧
      w1.prop = w.prop.exec (us.flatMap Visit.ops) ∧
      Loop cfg tv m (some v.mod) v.pd w1 (v :: rest) w' := by
  induction us generalizing w start pd with
  | nil =>
    cases h with
    | call hmod hrest => exact ⟨w, rfl, rfl, .call hmod hrest⟩
  | cons u us ih =>
    cases h with
    | call hmod hrest =>
      obtain ⟨hu, hus⟩ := List.forall_mem_cons.mp htcp
      obtain ⟨w1, hst, hprop, hloop⟩ := ih hrest hus
      refine ⟨w1, hst.trans (decodeMod_state hu _ hmod), ?_, hloop⟩
      rw [hprop, List.flatMap_cons, Property.exec_append]
      rfl

theorem Loop.start_eq {v : Visit} {rest : List Visit} (h : Loop cfg tv m start pd w (v :: rest) w') :
    start = some v.mod ∧ pd = v.pd := by
  cases h with
  | call hmod hrest => exact ⟨rfl, rfl⟩

theorem Loop.eq_of_nil (h : Loop cfg tv m start pd w [] w') : w' = w := by
  cases h with
  | done => rfl

/-- The modules that come before IPv4, and IPv4 itself, push no event. -/
theorem decodeMod_silent {st : TcpState τ} {e : Endpoints} {mod : Mod}
    (h : mod = .ethernet ∨ mod = .dot1q ∨ mod = .pppoe ∨ mod = .ipv4) :
    Ensures (decodeMod cfg tv m st e pd mod) fun r => ∀ op ∈ r.2.ops, op.event? = none := by
  have hret : ∀ {x : Except Fault Step}, Ensures x (fun s => ∀ op ∈ s.ops, op.event? = none) →
      Ensures (do return (st, ← x)) fun r : TcpState τ × Step => ∀ op ∈ r.2.ops, op.event? = none := by
    intro x hx
    exact hx.bind fun s hs => ensures_pure hs
  rcases h with rfl | rfl | rfl | rfl
  · refine hret (withHeader_ensures (by simp) fun hdr pd => ensures_bind fun type => ensures_pure ?_)
    simp [Op.event?]
  · refine hret (withHeader_ensures (by simp) fun hdr pd => ensures_bind fun info =>
      ensures_bind fun type => ensures_pure ?_)
    simp [Op.event?]
  · refine hret (withHeader_ensures (by simp) fun hdr pd => ensures_bind fun b => ?_)
    dsimp only
    split
    · exact ensures_pure (by simp [Op.event?])
    · exact ensures_bind fun proto => ensures_pure (by simp [Op.event?])
  · refine hret (withHeader_ensures (by simp) fun hdr pd => ensures_bind fun b =>
      ensures_bind fun totalLen => ?_)
    dsimp only
    split
    · exact ensures_pure (by simp)
    · refine ensures_bind fun src => ensures_bind fun dst => ensures_bind fun proto => ensures_pure ?_
      dsimp only
      unfold ipv4Options
      split
      · split <;> simp [Op.event?]
      · simp [Op.event?]

/-- IPv4 sets both addresses and leaves the ports alone. -/
theorem ipv4Decode_ends (h : pd.WF) (hm : m.Has 0 pd.stop) (hs : 20 ≤ pd.length)
    (htotal : ipv4HdrLen (m.byte pd.ptr) ≤ m.word (pd.ptr + 2)) :
    Ensures (ipv4Decode m pd) fun s => ∀ q : Property, (q.exec s.ops).ends
      = { q.ends with srcAddr := m.block (pd.ptr + 12) 4, dstAddr := m.block (pd.ptr + 16) 4 } := by
  rw [ipv4Decode_eq h hm hs htotal]
  refine ensures_ok fun q => ?_
  rw [Property.exec_append, Property.exec_append, ends_set, ipv4Options_ends]
  rfl

/-- The visits of a well-formed packet of TCP: the last two are those of IPv4 and TCP. -/
theorem Packet.IsTcp.visits {p : Packet} {ip tcp : Payload} (hp : p.IsTcp ip tcp)
    (hroute : vs.map (fun v => (v.mod, v.pd)) = p.route) :
    ∃ us sv su, vs = us ++ [⟨.ipv4, ip, sv⟩, ⟨.tcp, tcp, su⟩] := by
  obtain ⟨pre, hpre⟩ := hp.route
  rw [← hroute] at hpre
  obtain ⟨us, rest, rfl, -, hrest⟩ := List.map_eq_append_iff.mp hpre.symm
  obtain ⟨⟨_, _, sv⟩, rest, rfl, hv, hrest⟩ := List.map_eq_cons_iff.mp hrest
  obtain ⟨⟨_, _, su⟩, rest, rfl, hu, hrest⟩ := List.map_eq_cons_iff.mp hrest
  obtain rfl := List.map_eq_nil_iff.mp hrest
  cases hv
  cases hu
  exact ⟨us, sv, su, rfl⟩

/-- A visit of a module in front of TCP says nothing of sessions. -/
theorem Visit.before_tcp {st st' : TcpState τ} {e : Endpoints} {v : Visit}
    (hrank : 2 < v.mod.rank ∨ v.mod = .ipv4)
    (hcall : decodeMod cfg tv m st e v.pd v.mod = .ok (st', v.step)) :
    v.mod ≠ .tcp ∧ ∀ op ∈ v.ops, op.event? ≠ some .tcpNewSession := by
  have hmod : v.mod = .ethernet ∨ v.mod = .dot1q ∨ v.mod = .pppoe ∨ v.mod = .ipv4 := by
    cases hv : v.mod <;> simp_all [Mod.rank]
  refine ⟨?_, List.forall_mem_cons.mpr ⟨by simp [Op.event?], fun op hop => ?_⟩⟩
  · rcases hmod with h | h | h | h <;> simp [h]
  · rw [decodeMod_silent hmod _ hcall op hop]
    simp

/-- The call of TCP for such a packet: the state of the module is that before the packet, and the
endpoints are those in the headers. -/
theorem Packet.IsTcp.call {p : Packet} {ip tcp : Payload} (hp : p.IsTcp ip tcp) (w : Worker τ) :
    Returns (w.process cfg p) fun w' => ∃ us : List Visit, ∃ e s,
      (∀ u ∈ us, u.mod ≠ .tcp ∧ ∀ op ∈ u.ops, op.event? ≠ some .tcpNewSession) ∧
      Loop cfg p.tv p.mem (some .ethernet) (Payload.reset p) { w with prop := w.prop.init }
        (us ++ [⟨.tcp, tcp, s⟩]) w' ∧
      tcp.WF ∧ p.mem.Has 0 tcp.stop ∧
      tcpEnds p.mem tcp e = .between (p.source ip tcp) (p.target ip tcp) ∧
      tcpDecode cfg w.tcp e p.tv p.mem tcp = .ok (w'.tcp, s) := by
  refine (process_loop cfg w p).mono ?_
  rintro w' ⟨vs, hloop, hsound, hsorted, -, hroute⟩
  obtain ⟨us, sv, su, rfl⟩ := hp.visits hroute
  have hip := hsound ⟨.ipv4, ip, sv⟩ (by simp)
  have htcp := hsound ⟨.tcp, tcp, su⟩ (by simp)
  -- what comes before TCP
  have hpre : ∀ u ∈ us ++ [⟨.ipv4, ip, sv⟩],
      u.mod ≠ .tcp ∧ ∀ op ∈ u.ops, op.event? ≠ some .tcpNewSession := by
    intro u hu
    have hmem : u ∈ us ++ [⟨.ipv4, ip, sv⟩, ⟨.tcp, tcp, su⟩] := by
      simp only [List.mem_append, List.mem_cons] at hu ⊢
      tauto
    obtain ⟨st, e, st', hcall⟩ := hloop.called u hmem
    refine Visit.before_tcp ?_ hcall
    rw [List.map_append, List.pairwise_append] at hsorted
    rcases List.mem_append.mp hu with hu | hu
    · exact .inl (hsorted.2.2 _ (List.mem_map_of_mem hu) (Mod.rank .ipv4) (by simp))
    · exact .inr (congrArg Visit.mod (List.mem_singleton.mp hu))
  obtain ⟨w0, hst, -, hlast⟩ := hloop.before fun u hu => (hpre u (List.mem_append_left _ hu)).1
  cases hlast with
  | @call _ _ _ _ tcpv _ _ hmodv hrestv =>
    obtain ⟨hnext, hpd⟩ := hrestv.start_eq
    dsimp only at hnext hpd
    have hstv : tcpv = w.tcp := (decodeMod_state (by simp) _ hmodv).trans hst
    -- IPv4 names TCP, so that its header is whole
    have hfollow : nextOf p.mem .ipv4 ip = some (.tcp, sv.pd) := by
      rw [← hip.follow, Step.follow, hnext]
      rfl
    obtain ⟨h20, htotal⟩ : 20 ≤ ip.length ∧
        ipv4HdrLen (p.mem.byte ip.ptr) ≤ p.mem.word (ip.ptr + 2) := by
      by_contra hc
      rw [nextOf, if_neg hc] at hfollow
      cases hfollow
    have hends : Ensures (decodeMod cfg p.tv p.mem w0.tcp (w0.prop.pushEvent (.mod .ipv4)).ends ip .ipv4)
        fun r => ∀ q : Property, (q.exec r.2.ops).ends = { q.ends with
          srcAddr := p.mem.block (ip.ptr + 12) 4, dstAddr := p.mem.block (ip.ptr + 16) 4 } :=
      (ipv4Decode_ends hip.wf (hip.stop ▸ p.has_all) h20 htotal).bind fun s hs => ensures_pure hs
    have hends := hends _ hmodv (w0.prop.pushEvent (.mod .ipv4))
    rw [hnext, hpd] at hrestv
    cases hrestv with
    | call hmodu hrestu =>
      obtain rfl := hrestu.eq_of_nil
      rw [hstv] at hmodu
      refine ⟨us ++ [⟨.ipv4, ip, sv⟩], _, su, hpre, ?_, htcp.wf, htcp.stop ▸ p.has_all, ?_, hmodu⟩
      · rwa [List.append_assoc]
      · exact (congrArg (tcpEnds p.mem tcp) hends).trans rfl

/-- A call that is about no session. -/
def Op.Apart (op : Op) : Prop := op.event? ≠ some .tcpNewSession ∧ op.call? .tcpId = none

theorem apart_ops {ops : List Op} (h : ∀ op ∈ ops, op.Apart) :
    setCalls .tcpId ops = [] ∧ .tcpNewSession ∉ ops.filterMap Op.event? := by
  refine ⟨List.filterMap_eq_nil_iff.mpr fun op hop => (h op hop).2, fun hmem => ?_⟩
  obtain ⟨op, hop, hev⟩ := List.mem_filterMap.mp hmem
  exact (h op hop).1 hev

theorem tcpHead_apart (m : Mem) (pd : Payload) : ∀ op ∈ tcpHead m pd, op.Apart := by
  unfold tcpHead
  split <;> split <;> simp [Op.Apart, Op.event?, Op.call?]

theorem effOps_apart (segPtr : Ptr) (segLen : Nat) (out : List Tcp.Eff) :
    ∀ op ∈ out.flatMap (effOps segPtr segLen), op.Apart := by
  have heff : ∀ eff, ∀ op ∈ effOps segPtr segLen eff, op.Apart := by
    intro eff
    unfold effOps
    split <;> simp [Op.Apart, Op.event?, Op.call?]
  intro op hop
  obtain ⟨eff, -, hop⟩ := List.mem_flatMap.mp hop
  exact heff eff op hop

theorem searchSession_calls {st st' : TcpState τ} {e : Endpoints} {key : List UInt8} {ssn : Tcp.Session}
    {newOps : List Op} (h : searchSession cfg st e key = (st', ssn, newOps)) :
    setCalls .tcpId newOps = [] := by
  unfold searchSession at h
  split at h
  · cases h
    rfl
  · cases h
    rfl

/-- **A well-formed packet of TCP**: the session of its endpoints is looked up in the table as it is after
the expired sessions are taken out, and its number is stored. -/
theorem process_tcp {p : Packet} {ip tcp : Payload} (hon : cfg.enableSsnMgmt = true) (w : Worker τ)
    (hp : p.IsTcp ip tcp) : ∃ key st ssn newOps,
      makeKey (.between (p.source ip tcp) (p.target ip tcp)) = .ok key ∧
      searchSession cfg (w.tcp.upTo cfg p.tv.sec) (.between (p.source ip tcp) (p.target ip tcp)) key
        = (st, ssn, newOps) ∧
      Returns (w.process cfg p) fun w' => ∃ ssn' ops, ssn'.id = ssn.id ∧
        w'.tcp = { st with table := cfg.lru.set st.table key ssn' } ∧
        w'.prop = w.prop.init.exec ops ∧ setCalls .tcpId ops = [(·.cpy (hostU64 ssn.id.toNat))] ∧
        (.tcpNewSession ∈ ops.filterMap Op.event? ↔ .tcpNewSession ∈ newOps.filterMap Op.event?) := by
  have hlen : (p.source ip tcp).addr.length = (p.target ip tcp).addr.length := by
    simp only [Packet.source, Packet.target, Mem.length_block]
  obtain ⟨key, hkey⟩ : ∃ key, makeKey (.between (p.source ip tcp) (p.target ip tcp)) = .ok key :=
    ⟨_, makeKey_between hlen⟩
  generalize hfound : searchSession cfg (w.tcp.upTo cfg p.tv.sec)
    (.between (p.source ip tcp) (p.target ip tcp)) key = found
  obtain ⟨st, ssn, newOps⟩ := found
  refine ⟨key, st, ssn, newOps, hkey, hfound, (hp.call w).mono ?_⟩
  rintro w' ⟨us, e, s, hpre, hloop, hwf, hm, hends, hcall⟩
  obtain ⟨r, hr, hssn⟩ := sessionMgmt_eq hwf hm hp.span hkey hfound
  rw [tcpDecode_eq hwf hm hp.span, if_pos hon, hends, hssn] at hcall
  obtain ⟨hst, rfl⟩ := Prod.mk.inj (Except.ok.inj hcall)
  refine ⟨r.ssn, _, Tcp.decode_id hr, hst.symm, hloop.exec_eq, ?_⟩
  -- of all the calls, those of `search_session` and the one for `TCP.id` are about the session
  have hus : ∀ op ∈ us.flatMap Visit.ops, op.Apart := by
    intro op hop
    obtain ⟨u, hu, hop⟩ := List.mem_flatMap.mp hop
    refine ⟨(hpre u hu).2 op hop, ?_⟩
    by_contra hne
    obtain ⟨f, hf⟩ := Option.ne_none_iff_exists'.mp hne
    obtain ⟨st, e, st', hcall⟩ := hloop.called u (List.mem_append_left _ hu)
    have hmem : .tcpId ∈ retained u.ops := List.mem_flatMap.mpr ⟨op, hop, Op.call?_retains hf⟩
    exact (hpre u hu).1 (decodeMod_own _ hcall _ hmem).symm
  obtain ⟨hus1, hus2⟩ := apart_ops hus
  obtain ⟨hh1, hh2⟩ := apart_ops (tcpHead_apart p.mem tcp)
  obtain ⟨he1, he2⟩ := apart_ops (effOps_apart (tcpSegPtr p.mem tcp) (tcp.length - tcpSpan p.mem tcp) r.out)
  have hops : ∀ s : Step, (us ++ [({ mod := .tcp, pd := tcp, step := s } : Visit)]).flatMap Visit.ops
      = us.flatMap Visit.ops ++ ([.event (.mod .tcp)] ++ s.ops) := by
    intro s
    rw [List.flatMap_append, List.flatMap_singleton]
    rfl
  constructor
  · rw [hops]
    simp only [setCalls_append, hus1, hh1, he1, searchSession_calls hfound]
    rfl
  · rw [hops]
    simp only [List.filterMap_append, List.mem_append, hus2, hh2, he2, false_or, or_false]
    simp [Op.event?]

end Packets

/-! ## The sessions of a run -/

/-- What the module relies on: `get` returns the session last put under the key, and `pop_expired` takes
out those it reports. A session is changed in place. -/
structure LruHash.Law (h : LruHash τ) : Prop where
  get_step : ∀ t tick key, h.get (h.step t tick) key = h.get t key
  get_expire : ∀ t key, h.get (h.expire t) key = h.get t key ∨ h.get (h.expire t) key = none
  get_put : ∀ t tick key ssn key',
    h.get (h.put t tick key ssn) key' = if key' = key then some ssn else h.get t key'
  get_set : ∀ t key ssn key', h.get (h.set t key ssn) key'
    = if key' = key ∧ (h.get t key).isSome = true then some ssn else h.get t key'

/-- **The sessions as users see them**: the number of the live session of a pair of endpoints, and how
many sessions there were. -/
structure Live where
  number : Sym2 Tcp.Endpoint → Option Nat
  count : Nat

/-- Before the first packet. -/
def Live.none : Live := ⟨fun _ => .none, 0⟩

open Classical in
/-- Some sessions have expired. -/
noncomputable def Live.drop (L : Live) (gone : Set (Sym2 Tcp.Endpoint)) : Live :=
  { L with number := fun x => if x ∈ gone then .none else L.number x }

/-- The number of the session that a packet of the pair belongs to: a new one when there is none. -/
def Live.session (L : Live) (x : Sym2 Tcp.Endpoint) : Nat := (L.number x).getD (L.count + 1)

/-- A packet of the pair is seen. -/
def Live.see (L : Live) (x : Sym2 Tcp.Endpoint) : Live where
  number := Function.update L.number x (some (L.session x))
  count := if L.number x = .none then L.count + 1 else L.count

/-- The pairs whose sessions `pop_expired` reports before a packet is looked up. -/
def reported (cfg : TcpConfig τ) (st : TcpState τ) (ts : Int) : Set (Sym2 Tcp.Endpoint) :=
  { x | ∃ a b key, x = s(a, b) ∧ makeKey (.between a b) = .ok key ∧
    (cfg.lru.get (st.advance cfg ts).table key).isSome = true ∧
    cfg.lru.get (st.upTo cfg ts).table key = .none }

/-- The pair of endpoints of a packet. -/
def Packet.pair (p : Packet) (ip tcp : Payload) : Sym2 Tcp.Endpoint :=
  s(p.source ip tcp, p.target ip tcp)

/-- The sessions when a packet is looked up. -/
noncomputable def Live.at (L : Live) (cfg : TcpConfig τ) (w : Worker τ) (p : Packet) : Live :=
  L.drop (reported cfg w.tcp p.tv.sec)

/-- **The runs over well-formed packets of TCP**, with any reads between them, and the sessions they lead
to. -/
inductive Tracked (cfg : TcpConfig τ) : Worker τ → Live → Prop
  | start {table : τ} (h : ∀ key, cfg.lru.get table key = none) : Tracked cfg { tcp := { table } } .none
  | packet {w w' : Worker τ} {L : Live} {p : Packet} {ip tcp : Payload} {keys : List Key}
    (h : Tracked cfg w L) (hp : p.IsTcp ip tcp) (hw : w.use cfg (p, keys) = .ok w') :
    Tracked cfg w' ((L.at cfg w p).see (p.pair ip tcp))

/-- The table agrees with the sessions, for addresses of IPv4. -/
structure Numbered (cfg : TcpConfig τ) (st : TcpState τ) (L : Live) : Prop where
  table : ∀ a b key, a.addr.length = 4 → b.addr.length = 4 → makeKey (.between a b) = .ok key →
    (cfg.lru.get st.table key).map (·.id) = (L.number s(a, b)).map UInt64.ofNat
  count : st.ssnCount = UInt64.ofNat L.count

section Sessions

variable {cfg : TcpConfig τ} {st : TcpState τ} {L : Live}

theorem Live.see_number (L : Live) (x y : Sym2 Tcp.Endpoint) :
    (L.see x).number y = if y = x then some (L.session x) else L.number y := by
  by_cases h : y = x
  · rw [if_pos h, h]
    exact Function.update_self _ _ _
  · rw [if_neg h]
    exact Function.update_of_ne h _ _

theorem Live.drop_mem {gone : Set (Sym2 Tcp.Endpoint)} {x : Sym2 Tcp.Endpoint} (h : x ∈ gone) :
    (L.drop gone).number x = .none :=
  if_pos h

theorem Live.drop_not_mem {gone : Set (Sym2 Tcp.Endpoint)} {x : Sym2 Tcp.Endpoint} (h : x ∉ gone) :
    (L.drop gone).number x = L.number x :=
  if_neg h

@[simp] theorem TcpState.upTo_ssnCount (ts : Int) : (st.upTo cfg ts).ssnCount = st.ssnCount := by
  unfold TcpState.upTo TcpState.advance
  split <;> rfl

theorem get_advance (hlaw : cfg.lru.Law) (ts : Int) (key : List UInt8) :
    cfg.lru.get (st.advance cfg ts).table key = cfg.lru.get st.table key := by
  unfold TcpState.advance
  split
  · dsimp only
    split
    · exact hlaw.get_step _ _ _
    · rfl
  · rfl

section Reported

variable {a b : Tcp.Endpoint} {key : List UInt8}

/-- The sessions that are reported are those that the table loses. -/
theorem mem_reported {ts : Int} (ha : a.addr.length = 4) (hb : b.addr.length = 4)
    (hkey : makeKey (.between a b) = .ok key) :
    s(a, b) ∈ reported cfg st ts ↔ (cfg.lru.get (st.advance cfg ts).table key).isSome = true ∧
      cfg.lru.get (st.upTo cfg ts).table key = none := by
  constructor
  · rintro ⟨c, d, key', hx, hkey', hgone⟩
    have hcd : c.addr.length = 4 ∧ d.addr.length = 4 := by
      rcases Sym2.eq_iff.mp hx with ⟨rfl, rfl⟩ | ⟨rfl, rfl⟩
      · exact ⟨ha, hb⟩
      · exact ⟨hb, ha⟩
    have hsame := (makeKey_eq_iff ha hb hcd.1 hcd.2).mpr hx
    rw [hkey, hkey'] at hsame
    obtain rfl := Except.ok.inj hsame
    exact hgone
  · exact fun hgone => ⟨a, b, key, rfl, hkey, hgone⟩

/-- The sessions that are not reported are as they were. -/
theorem get_upTo (hlaw : cfg.lru.Law) {ts : Int} (ha : a.addr.length = 4) (hb : b.addr.length = 4)
    (hkey : makeKey (.between a b) = .ok key) (hr : s(a, b) ∉ reported cfg st ts) :
    cfg.lru.get (st.upTo cfg ts).table key = cfg.lru.get st.table key := by
  refine Eq.trans ?_ (get_advance hlaw ts key)
  rcases hlaw.get_expire (st.advance cfg ts).table key with he | he
  · exact he
  · refine he.trans (Eq.symm ?_)
    by_contra hne
    exact hr ((mem_reported ha hb hkey).mpr ⟨Option.isSome_iff_ne_none.mpr hne, he⟩)

/-- A session that is found is not reported. -/
theorem not_reported {ts : Int} {ssn : Tcp.Session} (ha : a.addr.length = 4)
    (hb : b.addr.length = 4) (hkey : makeKey (.between a b) = .ok key)
    (h : cfg.lru.get (st.upTo cfg ts).table key = some ssn) : s(a, b) ∉ reported cfg st ts := by
  intro hr
  rw [((mem_reported ha hb hkey).mp hr).2] at h
  cases h

end Reported

/-- The table behind the expiry agrees with the sessions that are left. -/
theorem Numbered.upTo (hlaw : cfg.lru.Law) (h : Numbered cfg st L) (ts : Int) :
    Numbered cfg (st.upTo cfg ts) (L.drop (reported cfg st ts)) := by
  refine ⟨fun a b key ha hb hkey => ?_, (st.upTo_ssnCount ts).trans h.count⟩
  by_cases hr : s(a, b) ∈ reported cfg st ts
  · rw [Live.drop_mem hr, ((mem_reported ha hb hkey).mp hr).2]
    rfl
  · rw [Live.drop_not_mem hr, get_upTo hlaw ha hb hkey hr]
    exact h.table a b key ha hb hkey

/-- What `search_session` finds or makes. -/
theorem searchSession_cases {st' : TcpState τ} {e : Endpoints} {key : List UInt8} {ssn : Tcp.Session}
    {newOps : List Op} (h : searchSession cfg st e key = (st', ssn, newOps)) :
    cfg.lru.get st.table key = some ssn ∧ st' = st ∧ newOps = [] ∨
      cfg.lru.get st.table key = none ∧ ssn.id = st.ssnCount + 1 ∧
        st' = { st with ssnCount := st.ssnCount + 1
                        table := cfg.lru.put st.table cfg.ssnTimeout key ssn } ∧
        newOps = [.event .tcpNewSession] := by
  unfold searchSession at h
  split at h
  · rename_i ssn0 hget
    cases h
    exact .inl ⟨hget, rfl, rfl⟩
  · rename_i hget
    cases h
    exact .inr ⟨hget, rfl, rfl, rfl⟩

/-- Behind the lookup and the changes to the session, its key leads to it and the others are as they
were. -/
theorem get_stored (hlaw : cfg.lru.Law) {st' : TcpState τ} {e : Endpoints} {key : List UInt8}
    {ssn ssn' : Tcp.Session} {newOps : List Op} (h : searchSession cfg st e key = (st', ssn, newOps))
    (key' : List UInt8) : cfg.lru.get (cfg.lru.set st'.table key ssn') key'
      = if key' = key then some ssn' else cfg.lru.get st.table key' := by
  rw [hlaw.get_set]
  rcases searchSession_cases h with ⟨hget, rfl, -⟩ | ⟨hget, -, rfl, -⟩
  · rw [hget]
    simp
  · simp only [hlaw.get_put, if_true, Option.isSome_some, and_true]
    by_cases hk : key' = key
    · simp [hk]
    · simp [hk]

/-- **One packet**: a session is made exactly when the pair has none, and the number that is stored is
that of the session. -/
theorem Numbered.search (hlaw : cfg.lru.Law) (h : Numbered cfg st L) {a b : Tcp.Endpoint}
    {key : List UInt8} (ha : a.addr.length = 4) (hb : b.addr.length = 4)
    (hkey : makeKey (.between a b) = .ok key) {st' : TcpState τ} {ssn ssn' : Tcp.Session}
    {newOps : List Op} (hfound : searchSession cfg st (.between a b) key = (st', ssn, newOps))
    (hid : ssn'.id = ssn.id) :
    Numbered cfg { st' with table := cfg.lru.set st'.table key ssn' } (L.see s(a, b)) ∧
      ssn.id = UInt64.ofNat (L.session s(a, b)) ∧
      (.tcpNewSession ∈ newOps.filterMap Op.event? ↔ L.number s(a, b) = none) := by
  have htable := h.table a b key ha hb hkey
  have hspec : ssn.id = UInt64.ofNat (L.session s(a, b)) ∧
      (.tcpNewSession ∈ newOps.filterMap Op.event? ↔ L.number s(a, b) = none) ∧
      st'.ssnCount = UInt64.ofNat (L.see s(a, b)).count := by
    rcases searchSession_cases hfound with ⟨hget, rfl, rfl⟩ | ⟨hget, hssn, rfl, rfl⟩
    · rw [hget] at htable
      obtain ⟨k, hk, hkid⟩ := Option.map_eq_some_iff.mp htable.symm
      simp [Live.session, Live.see, hk, hkid, h.count]
    · rw [hget] at htable
      have hnone : L.number s(a, b) = none := Option.map_eq_none_iff.mp htable.symm
      simp [Live.session, Live.see, hnone, hssn, h.count, Op.event?]
  refine ⟨⟨fun c d key' hc hd hkey' => ?_, hspec.2.2⟩, hspec.1, hspec.2.1⟩
  have hkeys : key' = key ↔ s(c, d) = s(a, b) := by
    rw [← makeKey_eq_iff hc hd ha hb, hkey, hkey']
    exact ⟨congrArg Except.ok, Except.ok.inj⟩
  show (cfg.lru.get (cfg.lru.set st'.table key ssn') key').map (·.id) = _
  rw [get_stored hlaw hfound, Live.see_number]
  by_cases he : s(c, d) = s(a, b)
  · rw [if_pos (hkeys.mpr he), if_pos he, Option.map_some, Option.map_some, hid, hspec.1]
  · rw [if_neg fun hk => he (hkeys.mp hk), if_neg he]
    exact h.table c d key' hc hd hkey'

/-- The state behind a packet, with what the packet says of its session. -/
theorem Numbered.process (hlaw : cfg.lru.Law) (hon : cfg.enableSsnMgmt = true) {w : Worker τ}
    (h : Numbered cfg w.tcp L) {p : Packet} {ip tcp : Payload} (hp : p.IsTcp ip tcp) :
    Returns (w.process cfg p) fun w' =>
      Numbered cfg w'.tcp ((L.at cfg w p).see (p.pair ip tcp)) ∧ ∃ ops,
        w'.prop = w.prop.init.exec ops ∧
        setCalls .tcpId ops
          = [(·.cpy (hostU64 (UInt64.ofNat ((L.at cfg w p).session (p.pair ip tcp))).toNat))] ∧
        (.tcpNewSession ∈ ops.filterMap Op.event? ↔ (L.at cfg w p).number (p.pair ip tcp) = none) := by
  obtain ⟨key, st, ssn, newOps, hkey, hfound, hret⟩ := process_tcp hon w hp
  refine hret.mono ?_
  rintro w' ⟨ssn', ops, hid, htcp, hprop, hcalls, hevents⟩
  obtain ⟨hnum, hssn, hnew⟩ := (h.upTo hlaw p.tv.sec).search hlaw (p.mem.length_block _ _)
    (p.mem.length_block _ _) hkey hfound hid
  refine ⟨htcp ▸ hnum, ops, hprop, ?_, hevents.trans hnew⟩
  rw [hcalls, hssn]
  rfl

/-- **After every run the table agrees with the sessions.** -/
theorem Tracked.numbered (hlaw : cfg.lru.Law) (hon : cfg.enableSsnMgmt = true) {w : Worker τ}
    (h : Tracked cfg w L) : Numbered cfg w.tcp L ∧ w.prop.WF := by
  induction h with
  | start hempty =>
    refine ⟨⟨fun a b key _ _ _ => ?_, rfl⟩, Property.wf_empty⟩
    rw [hempty key]
    rfl
  | @packet w w' L p ip tcp keys h hp hw ih =>
    obtain ⟨hnum, hwf⟩ := ih
    constructor
    · obtain ⟨w1, hw1, hnum1, -⟩ := hnum.process hlaw hon hp
      obtain ⟨w2, hw2, hreads⟩ := returns_of_bind hw
      obtain rfl := Except.ok.inj (hw1.symm.trans hw2)
      obtain ⟨q, -, hq⟩ := returns_of_bind hreads
      obtain rfl := Except.ok.inj hq
      exact hnum1
    · obtain ⟨w1, hw1, hwf1⟩ := use_returns hwf (p, keys)
      obtain rfl := Except.ok.inj (hw.symm.trans hw1)
      exact hwf1

end Sessions

/-! ## The number as it is read -/

section Order

theorem numberOf_big (bs : List UInt8) : numberOf .big bs = numberOf .little bs.reverse := by
  have hstep : (fun (n : Nat) (b : UInt8) => n * 256 + b.toNat) = fun n b => b.toNat + 256 * n := by
    funext n b
    omega
  simp only [numberOf, List.foldr_reverse, hstep]

theorem numberOf_little_inj {as bs : List UInt8} (hlen : as.length = bs.length)
    (h : numberOf .little as = numberOf .little bs) : as = bs := by
  induction as generalizing bs with
  | nil => exact (List.eq_nil_of_length_eq_zero hlen.symm).symm
  | cons a as ih =>
    cases bs with
    | nil => cases hlen
    | cons b bs =>
      change a.toNat + 256 * numberOf .little as = b.toNat + 256 * numberOf .little bs at h
      have ha := a.toNat_lt
      have hb := b.toNat_lt
      have hhead : a = b := UInt8.toNat_inj.mp (by omega)
      rw [hhead, ih (Nat.succ.inj hlen) (by omega)]

theorem numberOf_hostU64 (n : Nat) : numberOf .little (hostU64 n) = n % 2 ^ 64 := by
  simp only [numberOf, hostU64, hostU32, List.cons_append, List.nil_append, List.foldr_cons,
    List.foldr_nil, UInt8.toNat_ofNat']
  omega

theorem numberOf_lt (bs : List UInt8) : numberOf .little bs < 256 ^ bs.length := by
  induction bs with
  | nil => exact Nat.one_pos
  | cons b bs ih =>
    change b.toNat + 256 * numberOf .little bs < 256 ^ (bs.length + 1)
    have hb := b.toNat_lt
    rw [Nat.pow_succ]
    omega

/-- **A number that lies in memory in the order of the host reads as itself in the other order exactly
when its bytes are the same both ways.** -/
theorem hostU64_reads_iff (k : Nat) : numberOf .big (hostU64 (UInt64.ofNat k).toNat) = k ↔
    k < 2 ^ 64 ∧ (hostU64 k).reverse = hostU64 k := by
  rw [UInt64.toNat_ofNat', numberOf_big]
  constructor
  · intro h
    have hlt : k < 2 ^ 64 := by
      have hbound := numberOf_lt (hostU64 (k % 2 ^ 64)).reverse
      have hlen : (hostU64 (k % 2 ^ 64)).reverse.length = 8 := by simp [hostU64, hostU32]
      rw [h, hlen] at hbound
      omega
    rw [Nat.mod_eq_of_lt hlt] at h
    refine ⟨hlt, numberOf_little_inj (by simp) ?_⟩
    rw [h, numberOf_hostU64, Nat.mod_eq_of_lt hlt]
  · rintro ⟨hlt, hrev⟩
    rw [Nat.mod_eq_of_lt hlt, hrev, numberOf_hostU64, Nat.mod_eq_of_lt hlt]

/-- A value of eight bytes that was copied. -/
theorem reads_eight {m : Mem} {bs : List UInt8} (hlen : bs.length = 8) :
    (Field.num (numberOf .big bs)).Reads m (({} : Cell).cpy bs) := by
  have huint : (({} : Cell).cpy bs).isUint = true := by simp [Cell.isUint, Cell.cpy, hlen]
  have hbytes : (({} : Cell).cpy bs).bytes m = .ok bs := by simp [Cell.bytes, Cell.cpy]
  refine ⟨rfl, ?_⟩
  rw [Cell.uint64, Cell.uint64?, if_pos huint, hbytes]
  rfl

end Order

/-- `value("TCP.id").uint64()`. -/
def Property.tcpId (q : Property) (m : Mem) : Except Fault Nat := do
  (← q.fetch m "TCP.id").uint64 m

/-- **`TCP.new_session` is pushed exactly for a pair without a live session; it and `TCP.id` tell the
session of a packet exactly when the eight bytes of its number are the same in both orders.** The run
before is any run over well-formed packets of TCP; the number `k` is that of the live session of the
pair, or the next one. -/
theorem session_id_iff {cfg : TcpConfig τ} (hlaw : cfg.lru.Law) (hon : cfg.enableSsnMgmt = true)
    {w : Worker τ} {L : Live} (h : Tracked cfg w L) {p : Packet} {ip tcp : Payload}
    (hp : p.IsTcp ip tcp) :
    Returns (w.process cfg p) fun w' =>
      (.tcpNewSession ∈ w'.prop.events ↔ (L.at cfg w p).number (p.pair ip tcp) = none) ∧
      (((.tcpNewSession ∈ w'.prop.events ↔ (L.at cfg w p).number (p.pair ip tcp) = none) ∧
        w'.prop.tcpId p.mem = .ok ((L.at cfg w p).session (p.pair ip tcp))) ↔
      (L.at cfg w p).session (p.pair ip tcp) < 2 ^ 64 ∧
        (hostU64 ((L.at cfg w p).session (p.pair ip tcp))).reverse
          = hostU64 ((L.at cfg w p).session (p.pair ip tcp))) := by
  obtain ⟨hnum, hwf⟩ := h.numbered hlaw hon
  refine (hnum.process hlaw hon hp).mono ?_
  rintro w' ⟨-, ops, hprop, hcalls, hnew⟩
  generalize (L.at cfg w p).session (p.pair ip tcp) = k at hcalls ⊢
  have hevents : w'.prop.events = ops.filterMap Op.event? := by
    rw [hprop, events_exec hwf.init.events]
    exact List.nil_append _
  have hread : w'.prop.tcpId p.mem = .ok (numberOf .big (hostU64 (UInt64.ofNat k).toNat)) := by
    have hshows : (w.prop.init.exec ops).Shows p.mem (.param .tcpId) _ :=
      shows_call rfl hwf.init (Property.count_init _) hcalls fun c => Cell.same_cpy _ _
    have hkey : lookupParamKey "TCP.id" = some (.param .tcpId) := by decide +kernel
    obtain ⟨c, hc, -, huint⟩ := fetch_shows hwf hkey
      ⟨.tcpId, mem_retained hcalls, Nat.le_refl _⟩ hshows (reads_eight rfl)
    rw [Property.tcpId, hprop, hc]
    exact huint
  rw [hevents, hread, ← hostU64_reads_iff]
  exact ⟨hnew, by simp [hnew]⟩

/-- A table that is a function of the key. -/
def funHash : LruHash (List UInt8 → Option (Int × Tcp.Session)) where
  step t tick := fun key => (t key).map fun e => (e.1 - tick, e.2)
  expire t := fun key => (t key).filter fun e => 0 < e.1
  get t key := (t key).map Prod.snd
  put t tick key ssn := Function.update t key (some (tick, ssn))
  set t key ssn := Function.update t key ((t key).map fun e => (e.1, ssn))

theorem funHash_law : funHash.Law where
  get_step t tick key := by simp [funHash, Function.comp_def]
  get_expire t key := by
    cases h : t key with
    | none => simp [funHash, h]
    | some e =>
      by_cases he : 0 < e.1
      · simp [funHash, h, he, Option.filter]
      · simp [funHash, h, he, Option.filter]
  get_put t tick key ssn key' := by
    by_cases h : key' = key
    · simp [funHash, h]
    · simp [funHash, h, Function.update_of_ne]
  get_set t key ssn key' := by
    by_cases h : key' = key
    · subst h
      cases ht : t key' <;> simp [funHash, ht]
    · simp [funHash, h, Function.update_of_ne]

/-- A frame with a header of TCP, from 10.0.0.`a` to 10.0.0.`b`. -/
def tcpFrame (a b : UInt8) (hdr : List UInt8) (h : hdr.length = 20) : Packet :=
  ⟨4096, [2, 0, 0, 0, 0, 1, 2, 0, 0, 0, 0, 2, 0x08, 0x00,
    0x45, 0, 0, 40, 0, 0, 0, 0, 64, 6, 0, 0, 10, 0, 0, a, 10, 0, 0, b] ++ hdr, ⟨1, 0⟩, by simp [h]⟩

/-- A first packet: a SYN from 10.0.0.1:4096 to 10.0.0.2:80. -/
def synPacket : Packet :=
  tcpFrame 1 2 [16, 0, 0, 80, 0, 0, 0, 100, 0, 0, 0, 0, 0x50, 0x02, 0x20, 0, 0, 0, 0, 0] rfl

/-- A SYN of another host to the same server. -/
def otherSyn : Packet :=
  tcpFrame 3 2 [16, 0, 0, 80, 0, 0, 0, 7, 0, 0, 0, 0, 0x50, 0x02, 0x20, 0, 0, 0, 0, 0] rfl

/-- The server answers the first of them. -/
def synAckPacket : Packet :=
  tcpFrame 2 1 [0, 80, 16, 0, 0, 0, 1, 244, 0, 0, 0, 101, 0x50, 0x12, 0x20, 0, 0, 0, 0, 0] rfl

/-- The cursor of IPv4 in such a frame. -/
def frameIp : Payload := ⟨4096, 14, 54, 40⟩

/-- The cursor of TCP. -/
def frameTcp : Payload := ⟨4096, 34, 54, 20⟩

theorem isTcp_synPacket : synPacket.IsTcp frameIp frameTcp :=
  ⟨by decide +kernel, by decide +kernel⟩

theorem isTcp_otherSyn : otherSyn.IsTcp frameIp frameTcp :=
  ⟨by decide +kernel, by decide +kernel⟩

theorem isTcp_synAckPacket : synAckPacket.IsTcp frameIp frameTcp :=
  ⟨by decide +kernel, by decide +kernel⟩

/-- With session management and an empty table. -/
def trackingConfig : TcpConfig (List UInt8 → Option (Int × Tcp.Session)) := ⟨true, 300, funHash⟩

/-- A worker before the first packet. -/
def newWorker : Worker (List UInt8 → Option (Int × Tcp.Session)) := { tcp := { table := fun _ => none } }

/-- The key of the session of `synPacket`. -/
def synKey : List UInt8 := [10, 0, 0, 2, 80, 0, 10, 0, 0, 1, 0, 16]

/-- Whether a packet of the same second finds that session. -/
def Worker.findsSyn (w : Worker (List UInt8 → Option (Int × Tcp.Session))) : Bool :=
  (trackingConfig.lru.get (w.tcp.upTo trackingConfig 1).table synKey).isSome

theorem number_syn {w : Worker (List UInt8 → Option (Int × Tcp.Session))} (h : w.findsSyn = true)
    (L : Live) {p : Packet} (hp : p.tv.sec = 1) :
    (L.at trackingConfig w p).number (synPacket.pair frameIp frameTcp)
      = L.number (synPacket.pair frameIp frameTcp) := by
  obtain ⟨ssn, hssn⟩ := Option.isSome_iff_exists.mp h
  exact Live.drop_not_mem (not_reported rfl rfl (by decide +kernel) (hp ▸ hssn))

/-- A SYN and one of another host open sessions; the first is still there. -/
theorem tracked_syns : ∃ w L, Tracked trackingConfig w L ∧
    newWorker.run trackingConfig [(synPacket, [.param .tcpId]), (otherSyn, [])] = .ok w ∧
    (L.at trackingConfig w synAckPacket).number (synAckPacket.pair frameIp frameTcp) = some 1 := by
  obtain ⟨w1, hw1, hwf1⟩ := @use_returns _ trackingConfig newWorker Property.wf_empty
    (synPacket, [.param .tcpId])
  obtain ⟨w2, hw2, -⟩ := @use_returns _ trackingConfig w1 hwf1 (otherSyn, [])
  have hrun : newWorker.run trackingConfig [(synPacket, [.param .tcpId]), (otherSyn, [])]
      = .ok w2 := by
    rw [Worker.run_of_use hw1, Worker.run_of_use hw2]
    rfl
  have hstart : Tracked trackingConfig newWorker .none := .start fun _ => rfl
  have htracked := (hstart.packet isTcp_synPacket hw1).packet isTcp_otherSyn hw2
  refine ⟨w2, _, htracked, hrun, ?_⟩
  -- the session is found by both packets behind the first
  have hfinds1 : (newWorker.use trackingConfig (synPacket, [.param .tcpId])).map Worker.findsSyn
      = .ok true := by decide +kernel
  have hfinds2 : (newWorker.run trackingConfig [(synPacket, [.param .tcpId]), (otherSyn, [])]).map
      Worker.findsSyn = .ok true := by decide +kernel
  rw [hw1] at hfinds1
  rw [hrun] at hfinds2
  have hother : synPacket.pair frameIp frameTcp ≠ otherSyn.pair frameIp frameTcp := by
    decide +kernel
  rw [show synAckPacket.pair frameIp frameTcp = synPacket.pair frameIp frameTcp from Sym2.eq_swap,
    number_syn (Except.ok.inj hfinds2) _ rfl, Live.see_number, if_neg hother,
    number_syn (Except.ok.inj hfinds1) _ rfl, Live.see_number, if_pos rfl]
  by_cases hgone : synPacket.pair frameIp frameTcp ∈ reported trackingConfig newWorker.tcp 1
  · exact congrArg (some <| Option.getD · _) (Live.drop_mem hgone)
  · exact congrArg (some <| Option.getD · _) (Live.drop_not_mem hgone)

/-- The answer to a SYN, with the SYN of another host in between, belongs to session 1. -/
theorem session_id_synAck : ∃ w L, Tracked trackingConfig w L ∧
    newWorker.run trackingConfig [(synPacket, [.param .tcpId]), (otherSyn, [])] = .ok w ∧
    (L.at trackingConfig w synAckPacket).number (synAckPacket.pair frameIp frameTcp) = some 1 ∧
    Returns (w.process trackingConfig synAckPacket) fun w' =>
      (.tcpNewSession ∈ w'.prop.events ↔
        (L.at trackingConfig w synAckPacket).number (synAckPacket.pair frameIp frameTcp) = none) ∧
      (((.tcpNewSession ∈ w'.prop.events ↔ (L.at trackingConfig w synAckPacket).number
          (synAckPacket.pair frameIp frameTcp) = none) ∧
        w'.prop.tcpId synAckPacket.mem = .ok 1) ↔
      1 < 2 ^ 64 ∧ (hostU64 1).reverse = hostU64 1) := by
  obtain ⟨w, L, htracked, hrun, hnumber⟩ := tracked_syns
  have h := session_id_iff funHash_law rfl htracked isTcp_synAckPacket
  have hsession : (L.at trackingConfig w synAckPacket).session
      (synAckPacket.pair frameIp frameTcp) = 1 := congrArg (Option.getD · _) hnumber
  rw [hsession] at h
  exact ⟨w, L, htracked, hrun, hnumber, h⟩

/-- **The first packet opens session 1, and `TCP.id` reads as 2^56.** -/
theorem first_id_swapped :
    (do let w ← newWorker.process trackingConfig synPacket
        return (w.prop.events, ← w.prop.tcpId synPacket.mem))
      = .ok ([.mod .ethernet, .mod .ipv4, .mod .tcp, .tcpNewSession], 72057594037927936) := by
  decide +kernel

end PacketMachine.Decode
