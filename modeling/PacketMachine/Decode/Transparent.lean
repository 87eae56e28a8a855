import PacketMachine.Decode.Demux
import PacketMachine.Decode.Vlan

/-!
# The session management adds, and changes nothing

With `TCP.enable_session_mgmt` on, what a packet shows depends on a table that all earlier packets
have written to. Here two workers are given the same packet, with any settings and any packets
before: what they do is the same up to the calls that the session management adds behind all the
others (`Loop.alike`), and those fill the parameters of the session only (`sessionMgmt_only`).

Results:
* **`session_mgmt_transparent`**: but for the events and values of the session, and the slots behind a
  header, what a packet shows is its own, whatever the settings, the table and the history.
-/

namespace PacketMachine.Decode

open PacketMachine.Lib

variable {τ τ' : Type}

/-! ## The calls of the session management -/

/-- A call for the session: it fills a parameter of the session or pushes an event of one. -/
structure Op.OnSession (op : Op) : Prop where
  only : op.Only ssnParams
  event : ∀ ev, op.event? = some ev → ev.ofSession = true

section Calls

variable {cfg : TcpConfig τ} {cfg' : TcpConfig τ'} {st : TcpState τ} {st' : TcpState τ'}
  {e e' : Endpoints} {tv : Tcp.Timeval} {m : Mem} {pd : Payload}

theorem onSession_event {ev : Event} (h : ev.ofSession = true) : (Op.event ev).OnSession :=
  ⟨Op.only_event _, fun _ he => Option.some.inj he ▸ h⟩

theorem onSession_set {d : Param} {ptr : Ptr} {len : Nat} {en : Endian} {hd : d.kind.plain = true}
    (h : d ∈ ssnParams) : (Op.set d ptr len en hd).OnSession :=
  ⟨Op.only_set h, nofun⟩

theorem onSession_cpy {d : Param} {bytes : List UInt8} {en : Endian} {hd : d.kind.plain = true}
    (h : d ∈ ssnParams) : (Op.cpy d bytes en hd).OnSession :=
  ⟨Op.only_cpy h, nofun⟩

theorem effOps_onSession {segPtr : Ptr} {segLen : Nat} {eff : Tcp.Eff} :
    ∀ op ∈ effOps segPtr segLen eff, op.OnSession := by
  unfold effOps
  split <;> simp only [List.forall_mem_singleton, List.not_mem_nil, false_implies, implies_true]
  · exact onSession_event rfl
  · exact onSession_event rfl
  · exact onSession_cpy (by simp [ssnParams])
  · exact onSession_set (by simp [ssnParams])
  · exact onSession_set (by simp [ssnParams])
  · exact onSession_cpy (by simp [ssnParams])
  · exact onSession_cpy (by simp [ssnParams])

/-- **The session management is about the session only.** -/
theorem sessionMgmt_only {hdr segOff segLen : Nat} :
    Ensures (sessionMgmt cfg st e tv m hdr segOff segLen) fun r => ∀ op ∈ r.2, op.OnSession := by
  unfold sessionMgmt
  dsimp only
  refine ensures_bind fun key => ensures_bind fun flags => ensures_bind fun seq =>
    ensures_bind fun ack => ensures_bind fun win => ensures_bind fun data => ?_
  split
  · exact ensures_error
  · refine ensures_pure fun op hop => ?_
    simp only [List.mem_append, List.mem_singleton, List.mem_flatMap] at hop
    rcases hop with (hop | rfl) | ⟨eff, -, hop⟩
    · unfold searchSession at hop
      split at hop
      · cases hop
      · obtain rfl := List.mem_singleton.mp hop
        exact onSession_event rfl
    · exact onSession_cpy (by simp [ssnParams])
    · exact effOps_onSession op hop

/-- What a call of a module leaves: `s`, and some calls for the session behind its own. -/
def Step.Adds (s s' : Step) : Prop :=
  ∃ ops, s' = { s with ops := s.ops ++ ops } ∧ (∀ op ∈ ops, op.OnSession) ∧
    (ops = [] ∨ s.next = none)

theorem Step.adds_nil (s : Step) : s.Adds s :=
  ⟨[], by simp, by simp, .inl rfl⟩

/-- `TCP::decode`, whatever the settings and the table. -/
theorem tcpDecode_adds (tv : Tcp.Timeval) (m : Mem) (pd : Payload) : ∃ s : Step,
    ∀ {τ : Type} (cfg : TcpConfig τ) (st : TcpState τ) (e : Endpoints),
      Ensures (tcpDecode cfg st e tv m pd) fun r => s.Adds r.2 := by
  unfold tcpDecode
  cases pd.retain 20 with
  | none => exact ⟨_, fun _ _ _ => ensures_ok (Step.adds_nil _)⟩
  | some x =>
    obtain ⟨hdr, pd⟩ := x
    dsimp only
    cases setProperties m hdr pd with
    | error f => exact ⟨{ pd }, fun _ _ _ => ensures_error⟩
    | ok x =>
      obtain ⟨pd, ops, ok⟩ := x
      simp only [bind, Except.bind]
      cases ok with
      | false => exact ⟨_, fun _ _ _ => ensures_pure (Step.adds_nil _)⟩
      | true =>
        let segOps := if pd.length > 0 then [Op.set .tcpSegment (.pkt pd.ptr) pd.length] else []
        let behind := if pd.length > 0 then ((pd.retain pd.length).map Prod.snd).getD pd else pd
        refine ⟨{ pd := behind, ops := ops ++ segOps }, fun cfg st e => ?_⟩
        rw [if_neg (by simp)]
        split
        · refine ensures_bind fun sport => ensures_bind fun dport => sessionMgmt_only.bind ?_
          rintro ⟨st', ssnOps⟩ hssn
          exact ensures_pure ⟨ssnOps, rfl, hssn, .inr rfl⟩
        · exact ensures_pure (Step.adds_nil _)

/-- **Every module**, whatever the settings, the table and the endpoints. -/
theorem decodeMod_adds (tv : Tcp.Timeval) (m : Mem) (pd : Payload) (mod : Mod) : ∃ s : Step,
    ∀ {τ : Type} (cfg : TcpConfig τ) (st : TcpState τ) (e : Endpoints),
      Ensures (decodeMod cfg tv m st e pd mod) fun r => s.Adds r.2 := by
  have hret : ∀ x : Except Fault Step, ∃ s : Step, ∀ {τ : Type} (st : TcpState τ),
      Ensures (do return (st, ← x)) fun r : TcpState τ × Step => s.Adds r.2 := by
    intro x
    cases x with
    | error f => exact ⟨{ pd }, fun _ => ensures_error⟩
    | ok s => exact ⟨s, fun _ => ensures_pure s.adds_nil⟩
  cases mod with
  | tcp => exact tcpDecode_adds tv m pd
  | _ =>
    obtain ⟨s, hs⟩ := hret _
    exact ⟨s, fun cfg st e => hs st⟩

end Calls

/-! ## The loop -/

section Loops

variable {cfg : TcpConfig τ} {cfg' : TcpConfig τ'} {tv : Tcp.Timeval} {m : Mem}

/-- **The calls for a packet** are the same on both sides, up to those for the session, which come
last. -/
theorem Loop.alike {next : Option Mod} {pd : Payload} {w w' : Worker τ} {v v' : Worker τ'}
    {vs us : List Visit} (h : Loop cfg tv m next pd w vs w') (h' : Loop cfg' tv m next pd v us v') :
    ∃ front ops ops', vs.flatMap Visit.ops = front ++ ops ∧ us.flatMap Visit.ops = front ++ ops' ∧
      (∀ op ∈ ops, op.OnSession) ∧ ∀ op ∈ ops', op.OnSession := by
  induction h generalizing v us with
  | done pd w =>
    cases h'
    exact ⟨[], [], [], rfl, rfl, by simp, by simp⟩
  | @call mod pd w w' tcp s vs hmod hrest ih =>
    cases h' with
    | @call _ _ _ _ tcp' s' us hmod' hrest' =>
      obtain ⟨s₀, hs₀⟩ := decodeMod_adds tv m pd mod
      obtain ⟨ops, rfl, hops, hlast⟩ := hs₀ cfg _ _ _ hmod
      obtain ⟨ops', rfl, hops', hlast'⟩ := hs₀ cfg' _ _ _ hmod'
      dsimp only at hrest hrest'
      cases hn : s₀.next with
      | none =>
        -- the last module, behind which the calls for the session are
        rw [hn] at hrest hrest'
        cases hrest
        cases hrest'
        refine ⟨.event (.mod mod) :: s₀.ops, ops, ops', ?_, ?_, hops, hops'⟩
        · simp [Visit.ops]
        · simp [Visit.ops]
      | some n =>
        obtain rfl := hlast.resolve_right (by simp [hn])
        obtain rfl := hlast'.resolve_right (by simp [hn])
        obtain ⟨front, xs, xs', hv, hu, hxs, hxs'⟩ := ih hrest'
        refine ⟨.event (.mod mod) :: s₀.ops ++ front, xs, xs', ?_, ?_, hxs, hxs'⟩
        · rw [List.flatMap_cons, hv]
          simp [Visit.ops]
        · rw [List.flatMap_cons, hu]
          simp [Visit.ops]

end Loops

/-! ## What a user sees -/

section Carried

variable {lo k : Nat} {D : List Param} {q q' : Property} {m : Mem}

/-- After `init` nothing is live, whatever there was before. -/
theorem carried_init (h : q.WF) (h' : q'.WF) : Carried lo k D q.init q'.init := by
  refine ⟨h.init, h'.init, fun d _ => ?_, fun i o o' _ hl => ?_⟩
  · rw [Property.count_init, Property.count_init]
  · rw [Property.Live, Property.count_init] at hl
    exact absurd hl (Nat.not_lt_zero _)

/-- Calls that are not moved. -/
theorem opsMoved_zero (ops : List Op) : OpsMoved 0 0 ops ops := by
  have hptr : ∀ ptr : Ptr, ptr.moved 0 = ptr ∧ ptr.Above 0 := by
    intro ptr
    cases ptr <;> simp [Ptr.moved, Ptr.Above]
  have hop : ∀ op : Op, op.moved 0 = op ∧ op.Above 0 := by
    intro op
    cases op <;> simp [Op.moved, Op.Above, hptr]
  have hid : Op.moved 0 = id := by
    funext op
    exact (hop op).1
  exact ⟨by rw [hid, List.map_id], fun op _ => (hop op).2⟩

/-- Nothing has moved. -/
theorem alike_zero {α : Type} {R : α → α → Prop} (hR : ∀ a b, R a b → a = b)
    {x y : Except Fault α} (h : Alike (Fault.Moved 0) R x y) : x = y := by
  cases h with
  | ok h => rw [hR _ _ h]
  | error h =>
    rcases h with rfl | ⟨i, rfl, rfl⟩
    · rfl
    · rfl

theorem Look.moved_zero {l l' : Look} (h : Look.Moved 0 l l') : l = l' := by
  obtain ⟨ha, hrepr, hraw, huint, hip4, hip6, hmac, hsize⟩ := h
  cases l
  cases l'
  simp only [Look.mk.injEq]
  exact ⟨ha.symm, alike_zero (fun _ _ => id) hrepr, alike_zero (fun _ _ => id) hraw,
    alike_zero (fun _ _ => id) huint, alike_zero (fun _ _ => id) hip4,
    alike_zero (fun _ _ => id) hip6, alike_zero (fun _ _ => id) hmac, hsize.symm⟩

/-- **Two properties that differ in `D` only show the same otherwise.** -/
theorem Carried.observe_eq (h : Carried 0 0 D q q') (hv : q.InView D) {key : Key}
    (hkey : key.pool ∉ D) (hhdr : key.header = false) (ntop6 : List UInt8 → Text)
    (path : List Access) : q.observe ntop6 m key path = q'.observe ntop6 m key path := by
  have hm : Mem.Moved 0 0 m m := fun _ _ => rfl
  refine alike_zero (fun l l' hl => ?_) (h.observe hm hv hkey hhdr path)
  cases hl with
  | none => rfl
  | some hl => rw [Look.moved_zero hl]

/-- A header shows the same as well, up to its slots and their number. -/
theorem Carried.header_eq (h : Carried 0 0 D q q') {d : Param} (hd : d.kind = .storage) (hD : d ∉ D)
    (ntop6 : List UInt8 → Text) {path : List Access} (hp : ∀ i, .get i ∉ path) :
    (q.observe ntop6 m (.param d) path).map (Option.map Look.unsized) =
      (q'.observe ntop6 m (.param d) path).map (Option.map Look.unsized) := by
  have hm : Mem.Moved 0 0 m m := fun _ _ => rfl
  have hcount := h.count d hD
  rcases Nat.eq_zero_or_pos (q.count d) with hc | hc
  · rw [Property.observe_absent (.param d) hc,
      Property.observe_absent (.param d) (hcount.trans hc)]
  · obtain ⟨o, ho⟩ := h.wf.sized.obj?_live (h := ⟨d, 0⟩) hc
    obtain ⟨o', ho', hmoved⟩ := h.other (i := ⟨d, 0⟩) hD hc ho
    rw [h.wf.observe_header ntop6 m hd hc ho hp,
      h.wf_right.observe_header ntop6 m hd (hcount ▸ hc) ho' hp]
    have hreads := hmoved.cell.reads hm
    have hlook : (o.cell.look ntop6 m (o.cell.repr m) o.size).unsized =
        (o'.cell.look ntop6 m (o'.cell.repr m) o'.size).unsized :=
      Look.moved_zero (hreads.look ntop6 hreads.repr 0)
    simp only [Except.map]
    split
    · rw [Option.map_some, Option.map_some, hlook]
    · rfl

end Carried

theorem ssnParams_direct : ∀ d ∈ ssnParams, d.direct = true := by decide

/-- Nothing refers to what belongs to a session. -/
theorem inView_session {q : Property} (hw : q.WF) (ops : List Op) :
    (q.init.exec ops).InView ssnParams := by
  refine ⟨(linked_init q).exec hw.init ops, fun i o hl ho j hj => ?_⟩
  exact not_mem_of_direct ssnParams_direct
    (exec_refs hw.init (Property.all_init _) ops i o hl ho j hj)

/-- What two properties show of the same packet, but for its session. Of a header, everything but
`get` and `size` of its storage is compared. -/
structure Property.Besides (m : Mem) (q q' : Property) : Prop where
  events : q.events.filter (!·.ofSession) = q'.events.filter (!·.ofSession)
  count : ∀ d, d ∉ ssnParams → q.count d = q'.count d
  observe : ∀ ntop6 key path, key.pool ∉ ssnParams → key.header = false →
    q.observe ntop6 m key path = q'.observe ntop6 m key path
  header : ∀ ntop6 d path, d.kind = .storage → (∀ i, .get i ∉ path) →
    (q.observe ntop6 m (.param d) path).map (Option.map Look.unsized) =
      (q'.observe ntop6 m (.param d) path).map (Option.map Look.unsized)

/-- **The session management is transparent.** Two workers with any settings, any tables and any
packets before are given the same packet: its events and values are the same, but for those of its
session and the slots of headers. -/
theorem session_mgmt_transparent (cfg : TcpConfig τ) (cfg' : TcpConfig τ') (tcp : TcpState τ)
    (tcp' : TcpState τ') (hist hist' : List (Packet × List Key)) (p : Packet) :
    Returns (Worker.run cfg { tcp } hist) fun w => Returns (w.process cfg p) fun v =>
      Returns (Worker.run cfg' { tcp := tcp' } hist') fun w' =>
        Returns (w'.process cfg' p) fun v' => v.prop.Besides p.mem v'.prop := by
  refine (run_returns Property.wf_empty hist).mono fun w hw => ?_
  obtain ⟨v, hv, vs, hloop, hsound, -⟩ := process_loop cfg w p
  refine ⟨v, hv, (run_returns Property.wf_empty hist').mono fun w' hw' => ?_⟩
  obtain ⟨v', hv', us, hloop', -⟩ := process_loop cfg' w' p
  refine ⟨v', hv', ?_⟩
  obtain ⟨front, xs, xs', hvs, hus, hxs, hxs'⟩ := hloop.alike hloop'
  have hprop : v.prop = w.prop.init.exec (front ++ xs) := hvs ▸ hloop.exec_eq
  have hprop' : v'.prop = w'.prop.init.exec (front ++ xs') := hus ▸ hloop'.exec_eq
  have hfits : ∀ op ∈ front, op.Fits p.data.length := by
    intro op hop
    obtain ⟨u, hu, hop⟩ := List.mem_flatMap.mp (hvs ▸ List.mem_append_left xs hop)
    exact (hsound u hu).fits op hop
  have hcarried : Carried 0 0 ssnParams v.prop v'.prop := by
    rw [hprop, hprop', Property.exec_append, Property.exec_append]
    exact ((carried_init hw hw').exec ssnParams_direct (opsMoved_zero front)
      fun op hop => (hfits op hop).ne_own).exec_only
        (fun op hop => (hxs op hop).only) fun op hop => (hxs' op hop).only
  have hnone : ∀ {ops : List Op}, (∀ op ∈ ops, op.OnSession) →
      (ops.filterMap Op.event?).filter (!·.ofSession) = [] := by
    intro ops hops
    refine List.filter_eq_nil_iff.mpr fun ev hev => ?_
    obtain ⟨op, hop, he⟩ := List.mem_filterMap.mp hev
    simp [(hops op hop).event ev he]
  have hssn : ∀ d : Param, d.kind = .storage → d ∉ ssnParams := by
    intro d hd
    cases d <;> cases hd <;> simp [ssnParams]
  refine ⟨?_, fun d hd => (hcarried.count d hd).symm, fun ntop6 key path hkey hhdr =>
    hcarried.observe_eq (hprop ▸ inView_session hw _) hkey hhdr ntop6 path,
    fun ntop6 d path hd hp => hcarried.header_eq hd (hssn d hd) ntop6 hp⟩
  rw [hprop, hprop', events_exec hw.init.events, events_exec hw'.init.events]
  simp only [List.filterMap_append, List.filter_append, hnone hxs, hnone hxs']
  rfl

end PacketMachine.Decode
