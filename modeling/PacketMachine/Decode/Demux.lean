import PacketMachine.Decode.Paths
import PacketMachine.Decode.SessionId
import PacketMachine.Decode.SessionTable
import PacketMachine.Tcp.Record

/-!
# One session for each conversation

`TCP::decode` shares one session table among all conversations (`modules/tcp.cc:575-684`). Over a
whole run, with packets of any kind, each session is as if it had been alone: it is where a session
would be that is given the packets of its own pair of endpoints, since it was made, and no others.

* `Talk` is a conversation: the endpoints of the session, its number, and its packets. `Talks` has
  the one of each pair; the expired ones are dropped (`Talks.drop`) before a packet is added
  (`Talks.add`).
* `Talking` are the runs over any packets. Those that are no well-formed packets of TCP belong to no
  conversation.

Results:
* `route_tcp`: TCP is reached from IPv4 only, so that every packet is a well-formed one of TCP, or
  leaves the sessions alone (`process_other`).
* `process_session`: what a well-formed packet of TCP comes to.
* `Talking.carries`: along every run the table is that of the conversations.
* **`sessions_isolated`**: the events and values that a packet of TCP leads to are those of its own
  conversation.
-/

namespace PacketMachine.Decode

open PacketMachine.Lib

variable {τ : Type}

/-! ## Conversations -/

/-- A conversation: its session is made for `client`, `server` and `id`, and is given `packets`. -/
structure Talk where
  client : Tcp.Endpoint
  server : Tcp.Endpoint
  id : UInt64
  packets : List Tcp.Packet

/-- The session of a conversation on its own, with its record. -/
def Talk.run (k : Talk) : Option Tcp.State :=
  Tcp.run (.new k.client k.server k.id) k.packets

/-- One more packet. -/
def Talk.add (k : Talk) (q : Tcp.Packet) : Talk := { k with packets := k.packets ++ [q] }

/-- The conversations, and how many there were. -/
structure Talks where
  talk : Sym2 Tcp.Endpoint → Option Talk
  count : Nat

/-- Before the first packet. -/
def Talks.none : Talks := ⟨fun _ => .none, 0⟩

open Classical in
/-- Some sessions have expired. -/
noncomputable def Talks.drop (T : Talks) (gone : Set (Sym2 Tcp.Endpoint)) : Talks :=
  { T with talk := fun x => if x ∈ gone then .none else T.talk x }

/-- The conversation of a packet: a new one when there is none. -/
def Talks.current (T : Talks) (src dst : Tcp.Endpoint) : Talk :=
  (T.talk s(src, dst)).getD ⟨src, dst, UInt64.ofNat (T.count + 1), []⟩

/-- A packet is added to its conversation. -/
def Talks.add (T : Talks) (src dst : Tcp.Endpoint) (q : Tcp.Packet) : Talks where
  talk := Function.update T.talk s(src, dst) (some ((T.current src dst).add q))
  count := if T.talk s(src, dst) = .none then T.count + 1 else T.count

/-- The packet as its session sees it. -/
def Packet.toTcp (p : Packet) (ip tcp : Payload) : Tcp.Packet :=
  tcpPacket p.mem tcp (.between (p.source ip tcp) (p.target ip tcp)) p.tv

/-- The conversations when a packet is looked up. -/
noncomputable def Talks.at (T : Talks) (cfg : TcpConfig τ) (w : Worker τ) (p : Packet) : Talks :=
  T.drop (reported cfg w.tcp p.tv.sec)

/-- **The runs over any packets**, with any reads between them, and the conversations they carry. -/
inductive Talking (cfg : TcpConfig τ) : Worker τ → Talks → Prop
  | start {table : τ} (h : ∀ key, cfg.lru.get table key = none) :
    Talking cfg { tcp := { table } } .none
  | tcp {w w' : Worker τ} {T : Talks} {p : Packet} {ip tcp : Payload} {keys : List Key}
    (h : Talking cfg w T) (hp : p.IsTcp ip tcp) (hw : w.use cfg (p, keys) = .ok w') :
    Talking cfg w' ((T.at cfg w p).add (p.source ip tcp) (p.target ip tcp) (p.toTcp ip tcp))
  | other {w w' : Worker τ} {T : Talks} {p : Packet} {keys : List Key}
    (h : Talking cfg w T) (hp : ∀ ip tcp, ¬ p.IsTcp ip tcp) (hw : w.use cfg (p, keys) = .ok w') :
    Talking cfg w' T

/-- The table holds the sessions of the conversations. -/
structure Carries (cfg : TcpConfig τ) (st : TcpState τ) (T : Talks) : Prop where
  table : ∀ a b key, a.addr.length = 4 → b.addr.length = 4 → makeKey (.between a b) = .ok key →
    cfg.lru.get st.table key = (T.talk s(a, b)).bind fun k => k.run.map (·.ssn)
  count : st.ssnCount = UInt64.ofNat T.count

/-! ## Packets that are none of TCP -/

section Other

variable {cfg : TcpConfig τ} {tv : Tcp.Timeval} {m : Mem} {start : Option Mod} {pd : Payload}
  {w w' : Worker τ} {vs : List Visit}

/-- What may follow a module. -/
theorem nextOf_mods {mod next : Mod} {pd' : Payload} (h : nextOf m mod pd = some (next, pd')) :
    next ≠ .ipv6 ∧ (next = .tcp → mod = .ipv4) := by
  have hmem := nextOf_mem h
  cases mod <;> simp only [Mod.successors, List.mem_cons, List.not_mem_nil, or_false] at hmem
  all_goals
    constructor
    · rintro rfl
      simp at hmem
    · rintro rfl
      simp_all

/-- **TCP is reached from IPv4 only.** -/
theorem route_tcp : ∀ (fuel : Nat) {mod : Mod} {pd t : Payload}, mod ≠ .tcp → mod ≠ .ipv6 →
    (.tcp, t) ∈ route m fuel mod pd → ∃ ip, [(.ipv4, ip), (.tcp, t)] <:+ route m fuel mod pd
  | 0, _, _, _, _, _, h => absurd h List.not_mem_nil
  | fuel + 1, mod, pd, t, hmod, h6, h => by
    have hrest : (.tcp, t) ∈ (route m (fuel + 1) mod pd).tail := by
      rcases List.mem_cons.mp h with he | he
      · exact absurd (congrArg Prod.fst he).symm hmod
      · exact he
    unfold route at hrest ⊢
    cases hn : nextOf m mod pd with
    | none =>
      rw [hn] at hrest
      cases hrest
    | some next =>
      obtain ⟨mod', pd'⟩ := next
      simp only [hn, List.tail_cons] at hrest ⊢
      by_cases htcp : mod' = .tcp
      · subst htcp
        obtain rfl := (nextOf_mods hn).2 rfl
        cases fuel with
        | zero => cases hrest
        | succ fuel =>
          have hlast : route m (fuel + 1) .tcp pd' = [(.tcp, pd')] := rfl
          rw [hlast] at hrest ⊢
          obtain ⟨-, rfl⟩ := Prod.mk.inj (List.mem_singleton.mp hrest)
          exact ⟨pd, List.suffix_refl _⟩
      · obtain ⟨ip, hip⟩ := route_tcp fuel htcp (nextOf_mods hn).1 hrest
        exact ⟨ip, hip.trans (List.suffix_cons _ _)⟩

/-- Where no call of TCP has a header that fits, the state of the module stays. -/
theorem Loop.tcp_eq (h : Loop cfg tv m start pd w vs w') (hvs : ∀ v ∈ vs, v.mod = .tcp →
    v.pd.WF ∧ m.Has 0 v.pd.stop ∧ MalformedTcp m v.pd) : w'.tcp = w.tcp := by
  induction h with
  | done pd w => rfl
  | @call mod pd w w' tcp s vs hmod hrest ih =>
    obtain ⟨hv, hvs⟩ := List.forall_mem_cons.mp hvs
    refine (ih hvs).trans ?_
    by_cases htcp : mod = .tcp
    · subst htcp
      obtain ⟨hwf, hm, hbad⟩ := hv rfl
      obtain ⟨r, hr, hst, -⟩ := @tcpDecode_refuses _ _ _ cfg w.tcp _ tv hwf hm hbad
      obtain rfl := Except.ok.inj (hr.symm.trans hmod)
      exact hst
    · exact decodeMod_state htcp _ hmod

/-- **A packet that is no well-formed one of TCP leaves the sessions alone.** -/
theorem process_other {p : Packet} (hp : ∀ ip tcp, ¬ p.IsTcp ip tcp) (w : Worker τ) :
    Returns (w.process cfg p) fun w' => w'.tcp = w.tcp := by
  refine (process_loop cfg w p).mono ?_
  rintro w' ⟨vs, hloop, hsound, -, -, hroute⟩
  refine hloop.tcp_eq fun v hv htcp => ?_
  have hs := hsound v hv
  refine ⟨hs.wf, hs.stop ▸ p.has_all, ?_⟩
  have hmem : (.tcp, v.pd) ∈ p.route := by
    rw [← hroute, ← htcp]
    exact List.mem_map_of_mem (f := fun v => (v.mod, v.pd)) hv
  obtain ⟨ip, hip⟩ := route_tcp 6 (by simp) (by simp) hmem
  by_contra hgood
  refine hp ip v.pd ⟨hip, ?_⟩
  unfold MalformedTcp tcpOffset at hgood
  unfold tcpSpan
  rw [tcpOptLen_eq]
  split <;> omega

end Other

/-! ## A packet of TCP -/

/-- The events of a session. -/
def Event.ofSession : Event → Bool
  | .tcpNewSession => true
  | .tcpEstablished => true
  | .tcpClosed => true
  | _ => false

/-- What calls say of the session: the events, and the calls for its values. -/
structure SaysOf (ops calls : List Op) : Prop where
  events : (ops.filterMap Op.event?).filter Event.ofSession =
    (calls.filterMap Op.event?).filter Event.ofSession
  values : ∀ d ∈ ssnParams, setCalls d ops = setCalls d calls

/-- Calls that say nothing of a session. -/
structure Mum (ops : List Op) : Prop where
  events : (ops.filterMap Op.event?).filter Event.ofSession = []
  values : ∀ d ∈ ssnParams, setCalls d ops = []

section Session

variable {cfg : TcpConfig τ} {w w' : Worker τ} {ops calls : List Op}

theorem Mum.append (h : Mum ops) (calls : List Op) : SaysOf (ops ++ calls) calls := by
  refine ⟨?_, fun d hd => ?_⟩
  · rw [List.filterMap_append, List.filter_append, h.events, List.nil_append]
  · rw [setCalls_append, h.values d hd, List.nil_append]

theorem SaysOf.trans {calls' : List Op} (h : SaysOf ops calls) (h' : SaysOf calls calls') :
    SaysOf ops calls' :=
  ⟨h.events.trans h'.events, fun d hd => (h.values d hd).trans (h'.values d hd)⟩

theorem mum_tcpHead (m : Mem) (pd : Payload) : Mum (tcpHead m pd) := by
  refine ⟨?_, fun d hd => setCalls_eq_nil fun hmem => ?_⟩
  · unfold tcpHead
    split <;> split <;> rfl
  · have hhead : ∀ d ∈ retained (tcpHead m pd), d ∉ ssnParams := by
      unfold tcpHead
      split <;> split <;> simp [retained, Op.retains, ssnParams]
    exact hhead d hmem hd

/-- The visits in front of TCP. -/
theorem mum_visits {us : List Visit} (hmod : ∀ u ∈ us, ∀ d ∈ retained u.step.ops, d.mod ≠ .tcp)
    (hev : ∀ u ∈ us, ∀ op ∈ u.step.ops, op.event? = none) : Mum (us.flatMap Visit.ops) := by
  have hssn : ∀ d ∈ ssnParams, d.mod = .tcp := by decide
  induction us with
  | nil => exact ⟨rfl, fun _ _ => rfl⟩
  | cons u us ih =>
    obtain ⟨hm, hms⟩ := List.forall_mem_cons.mp hmod
    obtain ⟨he, hes⟩ := List.forall_mem_cons.mp hev
    have hnone : u.step.ops.filterMap Op.event? = [] := List.filterMap_eq_nil_iff.mpr he
    have hi := ih hms hes
    refine ⟨?_, fun d hd => ?_⟩
    · rw [List.flatMap_cons, List.filterMap_append, List.filter_append, hi.events, List.append_nil]
      simp [Visit.ops, Op.event?, hnone, Event.ofSession]
    · rw [List.flatMap_cons, setCalls_append, hi.values d hd, List.append_nil]
      exact @setCalls_eq_nil _ u.step.ops fun hmem => hm d hmem (hssn d hd)

/-- What is called before TCP says nothing of a session. -/
theorem Loop.mum_before {tv : Tcp.Timeval} {m : Mem} {start : Option Mod} {pd : Payload}
    {us rest : List Visit} (h : Loop cfg tv m start pd w (us ++ rest) w')
    (hmod : ∀ u ∈ us, 2 < u.mod.rank ∨ u.mod = .ipv4) : Mum (us.flatMap Visit.ops) := by
  have hfront : ∀ u ∈ us, u.mod = .ethernet ∨ u.mod = .dot1q ∨ u.mod = .pppoe ∨ u.mod = .ipv4 := by
    intro u hu
    have hu := hmod u hu
    cases hv : u.mod <;> simp_all [Mod.rank]
  refine mum_visits (fun u hu d hd => ?_) fun u hu op hop => ?_
  · obtain ⟨st, e, st', hcall⟩ := h.called u (List.mem_append_left _ hu)
    rw [decodeMod_own _ hcall d hd]
    rcases hfront u hu with h | h | h | h <;> simp [h]
  · obtain ⟨st, e, st', hcall⟩ := h.called u (List.mem_append_left _ hu)
    exact decodeMod_silent (hfront u hu) _ hcall op hop

/-- The event of a module is none of a session. -/
theorem mum_mod (mod : Mod) : Mum [.event (.mod mod)] :=
  ⟨rfl, fun _ _ => rfl⟩

/-- **A well-formed packet of TCP**: its session is looked up among those that have not expired, is
given the packet, and is put back; the events and values of the session are those of this call. -/
theorem process_session {p : Packet} {ip tcp : Payload} (hon : cfg.enableSsnMgmt = true)
    (w : Worker τ) (hp : p.IsTcp ip tcp) : ∃ key st ssn newOps r,
      makeKey (.between (p.source ip tcp) (p.target ip tcp)) = .ok key ∧
      searchSession cfg (w.tcp.upTo cfg p.tv.sec) (.between (p.source ip tcp) (p.target ip tcp)) key
        = (st, ssn, newOps) ∧
      Tcp.decode ⟨ssn, []⟩ (p.toTcp ip tcp) = some r ∧
      Returns (w.process cfg p) fun w' =>
        w'.tcp = { st with table := cfg.lru.set st.table key r.ssn } ∧
        ∃ ops, w'.prop = w.prop.init.exec ops ∧
          SaysOf ops (newOps ++ [.cpy .tcpId (hostU64 ssn.id.toNat)]
            ++ r.out.flatMap (effOps (tcpSegPtr p.mem tcp) (tcp.length - tcpSpan p.mem tcp))) := by
  have hlen : (p.source ip tcp).addr.length = (p.target ip tcp).addr.length := by
    simp only [Packet.source, Packet.target, Mem.length_block]
  obtain ⟨key, hkey⟩ : ∃ key, makeKey (.between (p.source ip tcp) (p.target ip tcp)) = .ok key :=
    ⟨_, makeKey_between hlen⟩
  generalize hfound : searchSession cfg (w.tcp.upTo cfg p.tv.sec)
    (.between (p.source ip tcp) (p.target ip tcp)) key = found
  obtain ⟨st, ssn, newOps⟩ := found
  obtain ⟨r, hr⟩ := Tcp.decode_isSome ⟨ssn, []⟩ (p.toTcp ip tcp)
  refine ⟨key, st, ssn, newOps, r, hkey, hfound, hr, ?_⟩
  obtain ⟨w', hw', us, e, s, -, hloop, hwf, hm, hends, hcall⟩ :=
    @Packet.IsTcp.call _ cfg _ _ _ hp w
  obtain ⟨w₂, hw₂, vs, hloop₂, -, hsorted, -, hroute⟩ := process_loop cfg w p
  obtain rfl := Except.ok.inj (hw'.symm.trans hw₂)
  obtain ⟨rfl, -⟩ := hloop.unique hloop₂
  obtain ⟨us', sv, su, hus⟩ := hp.visits hroute
  refine ⟨w', hw', ?_⟩
  obtain ⟨r', hr', hssn⟩ := sessionMgmt_eq hwf hm hp.span hkey hfound
  obtain rfl : r = r' := Option.some.inj (hr.symm.trans hr')
  rw [tcpDecode_eq hwf hm hp.span, if_pos hon, hends, hssn] at hcall
  obtain ⟨hst, rfl⟩ := Prod.mk.inj (Except.ok.inj hcall)
  refine ⟨hst.symm, _, hloop.exec_eq, ?_⟩
  -- what comes before TCP
  have hfront : ∀ u ∈ us, 2 < u.mod.rank ∨ u.mod = .ipv4 := by
    rw [List.append_cons us' _ [_]] at hus
    obtain ⟨rfl, -⟩ := List.append_inj' hus rfl
    intro u hu
    rw [List.append_assoc, List.map_append, List.pairwise_append] at hsorted
    rcases List.mem_append.mp hu with hu | hu
    · exact .inl (hsorted.2.2 _ (List.mem_map_of_mem hu) (Mod.rank .ipv4) (by simp))
    · exact .inr (congrArg Visit.mod (List.mem_singleton.mp hu))
  rw [List.flatMap_append, List.flatMap_singleton]
  refine ((hloop.mum_before hfront).append _).trans (((mum_mod .tcp).append _).trans ?_)
  simp only [List.append_assoc]
  exact (mum_tcpHead p.mem tcp).append _

end Session

/-! ## The table along a run -/

section Run

variable {cfg : TcpConfig τ} {st : TcpState τ} {T : Talks}

theorem Talk.run_add (k : Talk) (q : Tcp.Packet) :
    (k.add q).run = k.run.bind fun r => Tcp.decode r q := by
  unfold Talk.run Talk.add Tcp.run
  rw [List.foldlM_append]
  refine congrArg (Option.bind _) ?_
  funext r
  exact bind_pure _

/-- A session keeps its number. -/
theorem Talk.run_id {k : Talk} {r : Tcp.State} (h : k.run = some r) : r.ssn.id = k.id := by
  have hrun : ∀ (ps : List Tcp.Packet) (st : Tcp.State), Tcp.run st ps = some r →
      r.ssn.id = st.ssn.id := by
    intro ps
    induction ps with
    | nil =>
      intro st h
      obtain rfl := Option.some.inj h
      rfl
    | cons q qs ih =>
      intro st h
      obtain ⟨st', hst, hrest⟩ := Option.bind_eq_some_iff.mp h
      exact (ih st' hrest).trans (Tcp.decode_id hst)
  exact hrun k.packets _ h

theorem Talks.add_talk (T : Talks) (a b : Tcp.Endpoint) (q : Tcp.Packet) (x : Sym2 Tcp.Endpoint) :
    (T.add a b q).talk x = if x = s(a, b) then some ((T.current a b).add q) else T.talk x := by
  by_cases h : x = s(a, b)
  · rw [if_pos h, h]
    exact Function.update_self _ _ _
  · rw [if_neg h]
    exact Function.update_of_ne h _ _

/-- Behind the expiry the table holds the sessions that are left. -/
theorem Carries.upTo (hlaw : cfg.lru.Law) (h : Carries cfg st T) (ts : Int) :
    Carries cfg (st.upTo cfg ts) (T.drop (reported cfg st ts)) := by
  refine ⟨fun a b key ha hb hkey => ?_, (st.upTo_ssnCount ts).trans h.count⟩
  unfold Talks.drop
  by_cases hr : s(a, b) ∈ reported cfg st ts
  · rw [((mem_reported ha hb hkey).mp hr).2]
    simp [hr]
  · rw [get_upTo hlaw ha hb hkey hr, h.table a b key ha hb hkey]
    simp [hr]

/-- **The lookup**: the session that is found or made is that of the conversation. -/
theorem Carries.search (h : Carries cfg st T) {a b : Tcp.Endpoint} {key : List UInt8}
    (ha : a.addr.length = 4) (hb : b.addr.length = 4) (hkey : makeKey (.between a b) = .ok key)
    {st' : TcpState τ} {ssn : Tcp.Session} {newOps : List Op}
    (hfound : searchSession cfg st (.between a b) key = (st', ssn, newOps)) :
    (∃ r, (T.current a b).run = some r ∧ r.ssn = ssn) ∧
      st'.ssnCount = UInt64.ofNat (if T.talk s(a, b) = none then T.count + 1 else T.count) ∧
      newOps = if T.talk s(a, b) = none then [.event .tcpNewSession] else [] := by
  have htable := h.table a b key ha hb hkey
  have hcases := searchSession_cases hfound
  cases htalk : T.talk s(a, b) with
  | none =>
    rw [htalk] at htable
    have hcur : T.current a b = ⟨a, b, UInt64.ofNat (T.count + 1), []⟩ := by
      simp [Talks.current, htalk]
    rcases hcases with ⟨hget, -⟩ | ⟨-, -, rfl, rfl⟩
    · rw [htable] at hget
      cases hget
    · have hcount : st.ssnCount + 1 = UInt64.ofNat (T.count + 1) := by simp [h.count]
      refine ⟨⟨.new a b (st.ssnCount + 1), ?_, ?_⟩, hcount, rfl⟩
      · rw [hcur, hcount]
        rfl
      · have hnone : cfg.lru.get st.table key = none := htable
        unfold searchSession at hfound
        rw [hnone] at hfound
        exact congrArg (fun x => x.2.1) hfound
  | some k =>
    rw [htalk] at htable
    have hcur : T.current a b = k := by simp [Talks.current, htalk]
    obtain ⟨r, hr⟩ := Tcp.run_isSome (.new k.client k.server k.id) k.packets
    have hget : cfg.lru.get st.table key = some r.ssn :=
      htable.trans (congrArg (Option.map Tcp.State.ssn) hr)
    rcases hcases with ⟨hget', rfl, rfl⟩ | ⟨hget', -⟩
    · refine ⟨⟨r, hcur ▸ hr, Option.some.inj (hget.symm.trans hget')⟩, ?_, rfl⟩
      exact h.count
    · rw [hget] at hget'
      cases hget'

/-- **The packet**: the other sessions are as they were. -/
theorem Carries.add (hlaw : cfg.lru.Law) (h : Carries cfg st T) {a b : Tcp.Endpoint}
    {key : List UInt8} (ha : a.addr.length = 4) (hb : b.addr.length = 4)
    (hkey : makeKey (.between a b) = .ok key) {st' : TcpState τ} {ssn : Tcp.Session}
    {newOps : List Op} {r : Tcp.State} {q : Tcp.Packet}
    (hfound : searchSession cfg st (.between a b) key = (st', ssn, newOps))
    (hr : Tcp.decode ⟨ssn, []⟩ q = some r) :
    Carries cfg { st' with table := cfg.lru.set st'.table key r.ssn } (T.add a b q) := by
  obtain ⟨⟨r₀, hrun, rfl⟩, hcount, -⟩ := h.search ha hb hkey hfound
  refine ⟨fun c d key' hc hd hkey' => ?_, hcount⟩
  have hkeys : key' = key ↔ s(c, d) = s(a, b) := by
    rw [← makeKey_eq_iff hc hd ha hb, hkey, hkey']
    exact ⟨congrArg Except.ok, Except.ok.inj⟩
  refine (get_stored hlaw hfound key').trans ?_
  rw [T.add_talk]
  by_cases he : s(c, d) = s(a, b)
  · rw [if_pos (hkeys.mpr he), if_pos he, Option.bind_some, Talk.run_add, hrun, Option.bind_some,
      Tcp.decode_resume hr]
    rfl
  · rw [if_neg fun hk => he (hkeys.mp hk), if_neg he]
    exact h.table c d key' hc hd hkey'

/-- **Along every run the table is that of the conversations.** -/
theorem Talking.carries (hlaw : cfg.lru.Law) (hon : cfg.enableSsnMgmt = true) {w : Worker τ}
    (h : Talking cfg w T) : Carries cfg w.tcp T ∧ w.prop.WF := by
  have hreads : ∀ {w w' : Worker τ} {u : Packet × List Key}, w.use cfg u = .ok w' →
      ∃ w₁, w.process cfg u.1 = .ok w₁ ∧ w'.tcp = w₁.tcp := by
    intro w w' u hw
    obtain ⟨w₁, hw₁, hreads⟩ := returns_of_bind hw
    obtain ⟨q, -, hq⟩ := returns_of_bind hreads
    obtain rfl := Except.ok.inj hq
    exact ⟨w₁, hw₁, rfl⟩
  have hwf : ∀ {w w' : Worker τ} {u : Packet × List Key}, w.use cfg u = .ok w' →
      w.prop.WF → w'.prop.WF := by
    intro w w' u hw hwf
    obtain ⟨w₁, hw₁, hwf₁⟩ := use_returns hwf u
    obtain rfl := Except.ok.inj (hw.symm.trans hw₁)
    exact hwf₁
  induction h with
  | start hempty =>
    refine ⟨⟨fun a b key _ _ _ => ?_, rfl⟩, Property.wf_empty⟩
    rw [hempty key]
    rfl
  | @tcp w w' T p ip tcp keys h hp hw ih =>
    refine ⟨?_, hwf hw ih.2⟩
    obtain ⟨w₁, hw₁, htcp⟩ := hreads hw
    obtain ⟨key, st, ssn, newOps, r, hkey, hfound, hr, w₂, hw₂, hst, -⟩ :=
      process_session hon w hp
    obtain rfl := Except.ok.inj (hw₁.symm.trans hw₂)
    rw [htcp, hst]
    exact (ih.1.upTo hlaw p.tv.sec).add hlaw (p.mem.length_block _ _) (p.mem.length_block _ _)
      hkey hfound hr
  | @other w w' T p keys h hp hw ih =>
    refine ⟨?_, hwf hw ih.2⟩
    obtain ⟨w₁, hw₁, htcp⟩ := hreads hw
    obtain ⟨w₂, hw₂, hst⟩ := @process_other _ cfg _ hp w
    obtain rfl := Except.ok.inj (hw₁.symm.trans hw₂)
    rw [htcp, hst]
    exact ih.1

end Run

/-! ## What a user sees of a session -/

section User

variable {q q' : Property} {m : Mem} {d : Param} {ops calls : List Op}

/-- The calls for one value are the same, and so is the value. -/
theorem reads_of_calls (hd : d.direct = true) (hw : q.WF) (hc : q.count d = 0) (hw' : q'.WF)
    (hc' : q'.count d = 0) (h : setCalls d ops = setCalls d calls)
    (hcalls : ∀ f ∈ setCalls d calls, ∀ c, (f {}).Same (f c)) :
    (q.exec ops).content m (.param d) = (q'.exec calls).content m (.param d) ∧
      (q.exec ops).uint64 m (.param d) = (q'.exec calls).uint64 m (.param d) := by
  have hshows : ∃ c, (q.exec ops).Shows m (.param d) c ∧ (q'.exec calls).Shows m (.param d) c := by
    cases hs : setCalls d calls with
    | nil => exact ⟨{}, shows_absent hd hw hc (h.trans hs), shows_absent hd hw' hc' hs⟩
    | cons f fs =>
      have hf := hcalls f (hs ▸ List.mem_cons_self)
      exact ⟨f {}, shows_call hd hw hc (h.trans hs) hf, shows_call hd hw' hc' hs hf⟩
  obtain ⟨c, hq, hq'⟩ := hshows
  exact ⟨hq.content_eq.trans hq'.content_eq.symm, hq.uint64_eq.trans hq'.uint64_eq.symm⟩

theorem tcpId_plain : Param.tcpId.kind.plain = true := rfl

/-- What a session on its own leads to for a packet: its events, its number and its values. -/
def sessionCalls (new : Bool) (id : UInt64) (segPtr : Ptr) (segLen : Nat) (es : List Tcp.Eff) :
    List Op :=
  (if new then [.event .tcpNewSession] else []) ++
    [.cpy .tcpId (hostU64 id.toNat) .big tcpId_plain] ++ es.flatMap (effOps segPtr segLen)

/-- What a call puts in does not depend on what was there before. -/
theorem Op.call?_same {op : Op} {f : Cell → Cell} (hf : op.call? d = some f)
    (hset : ∀ d' ptr len e hd, op = .set d' ptr len e hd → ptr ≠ .own) (c : Cell) :
    (f {}).Same (f c) := by
  cases op with
  | set d' ptr len e hd =>
    obtain ⟨-, hf⟩ := Option.ite_none_right_eq_some.mp hf
    obtain rfl := Option.some.inj hf
    exact Cell.same_set _ _ _ (hset _ _ _ _ _ rfl)
  | cpy d' bytes e hd =>
    obtain ⟨-, hf⟩ := Option.ite_none_right_eq_some.mp hf
    obtain rfl := Option.some.inj hf
    exact Cell.same_cpy _ _
  | _ => cases hf

theorem sessionCalls_same {new : Bool} {id : UInt64} {segPtr : Ptr} {segLen : Nat}
    {es : List Tcp.Eff} (hseg : segPtr ≠ .own) :
    ∀ f ∈ setCalls d (sessionCalls new id segPtr segLen es), ∀ c, (f {}).Same (f c) := by
  intro f hf
  obtain ⟨op, hop, hcall⟩ := List.mem_filterMap.mp hf
  refine Op.call?_same hcall fun d' ptr len e hd he => ?_
  subst he
  simp only [sessionCalls, List.mem_append, List.mem_singleton, List.mem_flatMap] at hop
  rcases hop with (hop | hop) | ⟨eff, -, hop⟩
  · split at hop <;> simp at hop
  · cases hop
  · unfold effOps at hop
    split at hop <;> simp_all

end User

/-- **Sessions are isolated.** After any run over any packets, a well-formed packet of TCP leads to
the events and values of its conversation: those of a session that was made for the endpoints of
the first packet since the last expiry, and was given the packets of this pair, in order, and no
others. -/
theorem sessions_isolated {cfg : TcpConfig τ} (hlaw : cfg.lru.Law) (hon : cfg.enableSsnMgmt = true)
    {w : Worker τ} {T : Talks} (h : Talking cfg w T) {p : Packet} {ip tcp : Payload}
    (hp : p.IsTcp ip tcp) :
    let k := (T.at cfg w p).current (p.source ip tcp) (p.target ip tcp)
    ∃ r r' es, k.run = some r ∧ (k.add (p.toTcp ip tcp)).run = some r' ∧ r'.out = r.out ++ es ∧
      Returns (w.process cfg p) fun w' =>
        let calls := sessionCalls ((T.at cfg w p).talk s(p.source ip tcp, p.target ip tcp)).isNone
          k.id (tcpSegPtr p.mem tcp) (tcp.length - tcpSpan p.mem tcp) es
        w'.prop.events.filter Event.ofSession =
            (calls.filterMap Op.event?).filter Event.ofSession ∧
          ∀ d ∈ ssnParams, ∀ m,
            w'.prop.content m (.param d) = (({} : Property).exec calls).content m (.param d) ∧
            w'.prop.uint64 m (.param d) = (({} : Property).exec calls).uint64 m (.param d) := by
  intro k
  obtain ⟨hcarries, hwf⟩ := h.carries hlaw hon
  obtain ⟨key, st, ssn, newOps, r, hkey, hfound, hr, hret⟩ := process_session hon w hp
  obtain ⟨⟨r₀, hrun, rfl⟩, -, hnew⟩ := (hcarries.upTo hlaw p.tv.sec).search
    (p.mem.length_block _ _) (p.mem.length_block _ _) hkey hfound
  refine ⟨r₀, ⟨r.ssn, r₀.out ++ r.out⟩, r.out, hrun, ?_, rfl, hret.mono ?_⟩
  · rw [Talk.run_add]
    exact (congrArg (Option.bind · _) hrun).trans (Tcp.decode_resume hr)
  · rintro w' ⟨-, ops, hprop, hcalled⟩
    have hcalls : newOps ++ [.cpy .tcpId (hostU64 r₀.ssn.id.toNat)] ++
        r.out.flatMap (effOps (tcpSegPtr p.mem tcp) (tcp.length - tcpSpan p.mem tcp)) =
        sessionCalls ((T.at cfg w p).talk s(p.source ip tcp, p.target ip tcp)).isNone k.id
          (tcpSegPtr p.mem tcp) (tcp.length - tcpSpan p.mem tcp) r.out := by
      rw [Talk.run_id hrun, hnew]
      unfold sessionCalls Talks.at
      cases (T.drop (reported cfg w.tcp p.tv.sec)).talk _ <;> rfl
    rw [hcalls] at hcalled
    have hevents : w'.prop.events = ops.filterMap Op.event? := by
      rw [hprop, events_exec hwf.init.events]
      exact List.nil_append _
    have hseg : tcpSegPtr p.mem tcp ≠ .own := by
      unfold tcpSegPtr
      split <;> simp
    have hdirect : ∀ d ∈ ssnParams, d.direct = true := by decide
    refine ⟨hevents ▸ hcalled.events, fun d hd m => ?_⟩
    rw [hprop]
    exact reads_of_calls (hdirect d hd) hwf.init (Property.count_init d)
      Property.wf_empty rfl (hcalled.values d hd) (sessionCalls_same hseg)

/-- A SYN whose options are not all there. -/
def longSyn : Packet :=
  tcpFrame 1 2 [16, 0, 0, 80, 0, 0, 0, 100, 0, 0, 0, 0, 0xf0, 0x02, 0x20, 0, 0, 0, 0, 0] rfl

theorem not_isTcp_longSyn (ip tcp : Payload) : ¬ longSyn.IsTcp ip tcp := by
  rintro ⟨⟨us, hus⟩, hspan⟩
  have hlast : longSyn.route.getLast? = some (.tcp, frameTcp) := by decide +kernel
  rw [← hus, List.getLast?_append] at hlast
  obtain rfl : tcp = frameTcp := congrArg Prod.snd (Option.some.inj hlast)
  exact absurd hspan (by decide +kernel)

theorem talk_syn {w : Worker (List UInt8 → Option (Int × Tcp.Session))} (h : w.findsSyn = true)
    (T : Talks) {p : Packet} (hp : p.tv.sec = 1) :
    (T.at trackingConfig w p).talk (synPacket.pair frameIp frameTcp)
      = T.talk (synPacket.pair frameIp frameTcp) := by
  obtain ⟨ssn, hssn⟩ := Option.isSome_iff_exists.mp h
  exact if_neg (not_reported rfl rfl (by decide +kernel) (hp ▸ hssn))

/-- A SYN, one of another host, and one that is malformed. -/
def synHistory : List (Packet × List Key) := [(synPacket, []), (otherSyn, []), (longSyn, [])]

/-- The conversation of the first is there, with its packet alone. -/
theorem talking_syns : ∃ w T, Talking trackingConfig w T ∧
    newWorker.run trackingConfig synHistory = .ok w ∧
    (T.at trackingConfig w synAckPacket).talk
        s(synAckPacket.source frameIp frameTcp, synAckPacket.target frameIp frameTcp)
      = some ⟨synPacket.source frameIp frameTcp, synPacket.target frameIp frameTcp, 1,
          [synPacket.toTcp frameIp frameTcp]⟩ := by
  obtain ⟨w1, hw1, hwf1⟩ := @use_returns _ trackingConfig newWorker Property.wf_empty (synPacket, [])
  obtain ⟨w2, hw2, hwf2⟩ := @use_returns _ trackingConfig w1 hwf1 (otherSyn, [])
  obtain ⟨w3, hw3, -⟩ := @use_returns _ trackingConfig w2 hwf2 (longSyn, [])
  have hrun : newWorker.run trackingConfig synHistory = .ok w3 := by
    rw [synHistory, Worker.run_of_use hw1, Worker.run_of_use hw2, Worker.run_of_use hw3]
    rfl
  have hstart : Talking trackingConfig newWorker .none := .start fun _ => rfl
  have htalking := ((hstart.tcp isTcp_synPacket hw1).tcp isTcp_otherSyn hw2).other
    not_isTcp_longSyn hw3
  refine ⟨w3, _, htalking, hrun, ?_⟩
  -- the session is found by all packets behind the first
  have hfinds1 : (newWorker.use trackingConfig (synPacket, [])).map Worker.findsSyn = .ok true := by
    decide +kernel
  have hfinds3 : (newWorker.run trackingConfig synHistory).map Worker.findsSyn = .ok true := by
    decide +kernel
  rw [hw1] at hfinds1
  rw [hrun] at hfinds3
  have hother : synPacket.pair frameIp frameTcp
      ≠ s(otherSyn.source frameIp frameTcp, otherSyn.target frameIp frameTcp) := by decide +kernel
  have hown : synPacket.pair frameIp frameTcp
      = s(synPacket.source frameIp frameTcp, synPacket.target frameIp frameTcp) := rfl
  rw [show s(synAckPacket.source frameIp frameTcp, synAckPacket.target frameIp frameTcp)
      = synPacket.pair frameIp frameTcp from Sym2.eq_swap, talk_syn (Except.ok.inj hfinds3) _ rfl]
  rw [Talks.add_talk, if_neg hother, talk_syn (Except.ok.inj hfinds1) _ rfl, Talks.add_talk,
    if_pos hown]
  simp [Talks.current, Talks.at, Talks.drop, Talks.none, Talk.add]

/-- The answer to a SYN, behind packets of another pair and malformed ones, is given to a session that
has seen that SYN alone. -/
theorem sessions_isolated_synAck : ∃ w T, Talking trackingConfig w T ∧
    newWorker.run trackingConfig synHistory = .ok w ∧
    let k : Talk := ⟨synPacket.source frameIp frameTcp, synPacket.target frameIp frameTcp, 1,
      [synPacket.toTcp frameIp frameTcp]⟩
    ∃ r r' es, k.run = some r ∧ (k.add (synAckPacket.toTcp frameIp frameTcp)).run = some r' ∧
      r'.out = r.out ++ es ∧
      Returns (w.process trackingConfig synAckPacket) fun w' =>
        let calls := sessionCalls false k.id (tcpSegPtr synAckPacket.mem frameTcp)
          (frameTcp.length - tcpSpan synAckPacket.mem frameTcp) es
        w'.prop.events.filter Event.ofSession =
            (calls.filterMap Op.event?).filter Event.ofSession ∧
          ∀ d ∈ ssnParams, ∀ m,
            w'.prop.content m (.param d) = (({} : Property).exec calls).content m (.param d) ∧
            w'.prop.uint64 m (.param d) = (({} : Property).exec calls).uint64 m (.param d) := by
  obtain ⟨w, T, htalking, hrun, htalk⟩ := talking_syns
  have h := sessions_isolated funHash_law rfl htalking isTcp_synAckPacket
  rw [Talks.current, htalk] at h
  exact ⟨w, T, htalking, hrun, h⟩

end PacketMachine.Decode
