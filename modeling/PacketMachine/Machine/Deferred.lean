import PacketMachine.Machine.Dispatch

/-!
# Deferred changes, and when a handler is called

What the calls of the callbacks come to, for each handler: it is active as `activate` and
`deactivate` of it have left it (`Call.switch`), from the `on` that made it until a `destroy` of it.

* `scan_calls`: a packet leaves what the calls of its callbacks leave, one after the other.
* `Recorded`: the registry and the flags of the handlers are those that all calls so far give. Each
  call keeps it, and so does draining the queue.
* `count_callbacks`: while it is active, a handler is called once for each occurrence of its event.
* **`deferred_changes`**: who is called for a packet, and what the calls made there change from the
  next packet on.
-/

namespace PacketMachine.Machine

/-! ## The flags of a handler -/

section Flags

variable {p : HandlerPtr} {b : Bool} {k : Kernel}

/-- `active_` after a call, of a handler that is not destroyed. -/
def Call.switch (p : HandlerPtr) (b : Bool) : Call → Bool
  | .activate q => if q = p then true else b
  | .deactivate q => if q = p then false else b
  | _ => b

/-- The handler was made and is not destroyed, no request to delete it is queued, and its `active_`
is `b`. -/
structure Alive (k : Kernel) (p : HandlerPtr) (b : Bool) : Prop where
  entity : ∃ h, k.heap[p]? = some h ∧ h.destroyed = false ∧ h.active = b
  msgs : ChangeRequest.delete p ∉ k.msgs

theorem Alive.isActive (h : Alive k p b) : k.isActive p = b := by
  obtain ⟨x, hx, -, hb⟩ := h.entity
  rw [Kernel.isActive, hx]
  exact hb

/-- A request other than to delete the handler. -/
theorem Alive.change (h : Alive k p b) {r : ChangeRequest} (hr : r ≠ .delete p) :
    Alive (r.change k).2 p b := by
  cases r with
  | add q => exact ⟨h.entity, h.msgs⟩
  | delete q =>
    have hq : q ≠ p := fun he => hr (he ▸ rfl)
    simp only [ChangeRequest.change, Kernel.deleteHandler]
    split
    · exact ⟨by simpa [hq] using h.entity, h.msgs⟩
    · exact h

/-- `on` makes a handler that is active. -/
theorem alive_on (h : Inv k) (eid : EventId) :
    Alive (Call.exec k (.on eid)) k.heap.length true := by
  have hdel : ChangeRequest.delete k.heap.length ∉ k.msgs := fun hm =>
    Nat.lt_irrefl _ (h.msgs_lt _ hm)
  unfold Call.exec Kernel.on
  simp only
  split
  · exact ⟨⟨.new (k.globalHdlrId + 1) eid, by simp, rfl, rfl⟩, by simpa using hdel⟩
  · exact ⟨⟨.new (k.globalHdlrId + 1) eid, by simp [Kernel.addHandler], rfl, rfl⟩, hdel⟩

/-- **Every call but `destroy`** leaves the handler alive, and switches it as the call says. -/
theorem Alive.exec (h : Alive k p b) {c : Call} (hc : c ≠ .destroy p) :
    Alive (c.exec k) p (c.switch p b) := by
  obtain ⟨x, hx, hdead, hb⟩ := h.entity
  have hlt : p < k.heap.length := (List.getElem?_eq_some_iff.mp hx).1
  cases c with
  | on eid =>
    have happend : Alive { k with
        globalHdlrId := k.globalHdlrId + 1
        heap := k.heap ++ [HandlerEntity.new (k.globalHdlrId + 1) eid] } p b :=
      ⟨⟨x, (List.getElem?_append_left hlt).trans hx, hdead, hb⟩, h.msgs⟩
    unfold Call.exec Kernel.on
    simp only
    split
    · exact ⟨happend.entity, by simpa using h.msgs⟩
    · exact happend.change (r := .add k.heap.length) (by simp)
  | destroy q =>
    have hq : q ≠ p := fun he => hc (he ▸ rfl)
    simp only [Call.exec, Call.switch]
    split
    · unfold Kernel.clear
      split
      · exact ⟨h.entity, by simpa [Ne.symm hq] using h.msgs⟩
      · exact h.change (r := .delete q) (by simpa using hq)
    · exact h
  | activate q =>
    refine ⟨?_, h.msgs⟩
    by_cases hq : q = p
    · refine ⟨x.activate.2, by simp [Call.exec, hq, hx], ?_⟩
      unfold HandlerEntity.activate
      split
      · rename_i hor
        have hact : x.active = true := hor.resolve_left (by simp [hdead])
        exact ⟨hdead, by simp [Call.switch, hq, hact]⟩
      · exact ⟨hdead, by simp [Call.switch, hq]⟩
    · exact ⟨x, by simpa [Call.exec, hq] using hx, hdead, by simpa [Call.switch, hq] using hb⟩
  | deactivate q =>
    refine ⟨?_, h.msgs⟩
    by_cases hq : q = p
    · refine ⟨x.deactivate.2, by simp [Call.exec, hq, hx], ?_⟩
      unfold HandlerEntity.deactivate
      split
      · rename_i hor
        have hact : x.active = false := hor.resolve_left (by simp [hdead])
        exact ⟨hdead, by simp [Call.switch, hq, hact]⟩
      · exact ⟨hdead, by simp [Call.switch, hq]⟩
    · exact ⟨x, by simpa [Call.exec, hq] using hx, hdead, by simpa [Call.switch, hq] using hb⟩

theorem Alive.drain (h : Alive k p b) : Alive k.drain p b := by
  unfold Kernel.drain
  generalize hrs : k.msgs = rs
  induction rs generalizing k with
  | nil => exact h
  | cons r rs ih =>
    have hmem : ChangeRequest.delete p ∉ r :: rs := hrs ▸ h.msgs
    rw [List.mem_cons, not_or] at hmem
    have hrest : Alive { k with msgs := rs } p b := ⟨h.entity, hmem.2⟩
    exact ih (hrest.change (Ne.symm hmem.1)) (change_sameBut { k with msgs := rs } r).msgs

theorem foldl_switch_true {cs : List Call} (h : Call.deactivate p ∉ cs) :
    cs.foldl (Call.switch p) true = true := by
  induction cs with
  | nil => rfl
  | cons c cs ih =>
    rw [List.mem_cons, not_or] at h
    have hc : c.switch p true = true := by
      cases c <;> simp only [Call.switch, ite_eq_left_iff, ite_eq_right_iff] <;> grind
    rw [List.foldl_cons, hc, ih h.2]

end Flags

/-! ## One packet -/

/-- A call does not look at the log. -/
theorem exec_log (k : Kernel) (log : List HandlerPtr) (c : Call) :
    Call.exec { k with invoked := log } c = { c.exec k with invoked := log } := by
  cases c with
  | on eid =>
    unfold Call.exec Kernel.on
    simp only
    split <;> rfl
  | destroy q =>
    simp only [Call.exec, Kernel.clear, Kernel.deleteHandler]
    split_ifs <;> rfl
  | activate q => rfl
  | deactivate q => rfl

theorem calls_log (k : Kernel) (log : List HandlerPtr) (cs : List Call) :
    cs.foldl Call.exec { k with invoked := log } =
      { cs.foldl Call.exec k with invoked := log } := by
  induction cs generalizing k with
  | nil => rfl
  | cons c cs ih => rw [List.foldl_cons, exec_log, ih, List.foldl_cons]

/-- **A scan comes to the calls that the callbacks make**, one after the other. -/
theorem scan_calls (beh : Behaviour) : ∀ (ps : List HandlerPtr) (k : Kernel),
    scan beh k ps = { (callsOf beh k.invoked (called beh k ps)).foldl Call.exec k with
      invoked := k.invoked ++ called beh k ps }
  | [], k => by simp [scan, called, callsOf]
  | p :: ps, k => by
    by_cases ha : k.isActive p
    · have hs : scan beh k (p :: ps) = scan beh (k.invoke beh p) ps := by simp [scan, ha]
      have hc : called beh k (p :: ps) = p :: called beh (k.invoke beh p) ps := by
        simp [called, ha]
      have hi : k.invoke beh p = { (beh (k.invoked ++ [p])).foldl Call.exec k with
          invoked := k.invoked ++ [p] } := calls_log k _ _
      rw [hs, hc, scan_calls beh ps, hi, calls_log, callsOf, List.foldl_append]
      simp
    · have hs : scan beh k (p :: ps) = scan beh k ps := by simp [scan, ha]
      have hc : called beh k (p :: ps) = called beh k ps := by simp [called, ha]
      rw [hs, hc, scan_calls beh ps]

/-- **A handler that is active, and that nobody deactivates, is called at each of its turns.** -/
theorem count_called (beh : Behaviour) {p : HandlerPtr} : ∀ (ps : List HandlerPtr) {k : Kernel},
    k.running = true → k.isActive p = true →
      Call.deactivate p ∉ callsOf beh k.invoked (called beh k ps) →
        (called beh k ps).count p = ps.count p
  | [], _, _, _, _ => rfl
  | q :: ps, k, hr, ha, hd => by
    by_cases hq : k.isActive q = true
    · obtain ⟨f1, f2, -⟩ := calls_frame (k := { k with invoked := k.invoked ++ [q] })
        (beh (k.invoked ++ [q])) hr
      simp only [called, hq, if_true, callsOf, List.mem_append, not_or] at hd ⊢
      have hinvoked : (k.invoke beh q).invoked = k.invoked ++ [q] := f2
      have hact : (k.invoke beh q).isActive p = true :=
        isActive_calls (k := { k with invoked := k.invoked ++ [q] }) hr ha hd.1
      have ih := count_called (k := k.invoke beh q) beh ps f1 hact (hinvoked.symm ▸ hd.2)
      rw [List.count_cons, List.count_cons, ih]
    · have hne : q ≠ p := fun he => hq (he ▸ ha)
      simp only [called, hq, Bool.false_eq_true, if_false] at hd ⊢
      rw [List.count_cons_of_ne hne, count_called beh ps hr ha hd]

/-- A handler is a candidate once for each occurrence of its event. -/
theorem count_candidates {k : Kernel} (h : Settled k) {e : EventId} {p : HandlerPtr}
    (hp : p ∈ k.registry.installed e) (evs : List EventId) :
    (k.registry.candidates evs).count p = evs.count e := by
  have hwf : k.registry.WF := h.virt ▸ h.inv.wf
  have hev : ∀ e', p ∈ k.registry.installed e' → evOf k.heap p = e' := by
    intro e' hm
    rw [← h.virt] at hm
    exact h.inv.ev e' p (List.reduceOption_mem_iff.mp hm)
  have hone : ∀ e', (k.registry.installed e').count p = if e' = e then 1 else 0 := by
    intro e'
    split
    · rename_i he
      exact List.count_eq_one_of_mem (hwf.nodup e') (he ▸ hp)
    · rename_i he
      exact List.count_eq_zero.mpr fun hm => he ((hev e' hm).symm.trans (hev e hp))
  unfold Registry.candidates
  induction evs with
  | nil => rfl
  | cons e' evs ih =>
    rw [List.flatMap_cons, List.count_append, ih, hone, List.count_cons]
    simp only [beq_iff_eq]
    omega

/-- **One packet, for one handler**: it is called once for each occurrence of its event. -/
theorem count_callbacks (beh : Behaviour) {k : Kernel} (h : Settled k) {e : EventId}
    {p : HandlerPtr} (hp : p ∈ k.registry.installed e) (ha : k.isActive p = true)
    {evs : List EventId} (hd : Call.deactivate p ∉ k.calls beh evs) :
    (k.callbacks beh evs).count p = evs.count e :=
  (count_called beh _ h.running ha hd).trans (count_candidates h hp evs)

/-! ## Runs -/

/-- **What the calls so far come to**: the registry is theirs, and each handler made by one of them
and not destroyed is as `activate` and `deactivate` have left it. -/
structure Recorded (cs : List Call) (k : Kernel) : Prop where
  virt : k.virt = cs.foldl Registry.apply Kernel.new.registry
  alive : ∀ xs e ys, cs = xs ++ .on e :: ys →
    let p := (xs.foldl Registry.apply Kernel.new.registry).made
    Call.destroy p ∉ ys → Alive k p (ys.foldl (Call.switch p) true)

section Records

variable {cs : List Call} {k : Kernel}

/-- The log and `running_` are not recorded. -/
theorem Recorded.congr (h : Recorded cs k) {k' : Kernel} (hhandlers : k'.handlers = k.handlers)
    (hmsgs : k'.msgs = k.msgs) (hheap : k'.heap = k.heap) : Recorded cs k' := by
  refine ⟨?_, fun xs e ys heq hd => ?_⟩
  · rw [← h.virt, Kernel.virt, Kernel.virt, Kernel.pending, Kernel.pending, hhandlers, hmsgs, hheap]
  · have ha := h.alive xs e ys heq hd
    exact ⟨hheap ▸ ha.entity, hmsgs ▸ ha.msgs⟩

theorem Recorded.exec (h : Recorded cs k) (hi : Inv k) (c : Call) :
    Recorded (cs ++ [c]) (c.exec k) := by
  refine ⟨by rw [virt_exec hi, h.virt, List.foldl_append]; rfl, ?_⟩
  intro xs e ys heq p hd
  rcases List.eq_nil_or_concat ys with rfl | ⟨ys', c', rfl⟩
  · -- the handler is made by this call
    obtain ⟨rfl, hc⟩ := List.append_inj' heq rfl
    obtain rfl := List.head_eq_of_cons_eq hc
    have hp : p = k.heap.length := (congrArg Registry.made h.virt).symm
    rw [hp]
    exact alive_on hi e
  · rw [List.concat_eq_append] at heq hd ⊢
    rw [← List.cons_append, ← List.append_assoc] at heq
    obtain ⟨rfl, hc⟩ := List.append_inj' heq rfl
    obtain rfl := List.head_eq_of_cons_eq hc
    simp only [List.mem_append, List.mem_singleton, not_or] at hd
    rw [List.foldl_append]
    exact (h.alive xs e ys' rfl hd.1).exec (Ne.symm hd.2)

theorem Recorded.calls (h : Recorded cs k) (hi : Inv k) (cs' : List Call) :
    Recorded (cs ++ cs') (cs'.foldl Call.exec k) := by
  induction cs' generalizing cs k with
  | nil => rwa [List.append_nil]
  | cons c cs' ih =>
    have hih := ih (h.exec hi c) (hi.exec c)
    rwa [List.append_assoc] at hih

theorem Recorded.packet (h : Recorded cs k) (hk : Settled k) (beh : Behaviour)
    (evs : List EventId) : Recorded (cs ++ k.calls beh evs) (k.packet beh evs) := by
  have hscan : Recorded (cs ++ k.calls beh evs) (k.dispatch beh evs) := by
    have hcalls := h.calls hk.inv (k.calls beh evs)
    rw [dispatch_scan beh evs hk.inv hk.running, scan_calls]
    exact hcalls.congr rfl rfl rfl
  obtain ⟨hs, -, hreg⟩ := packet_spec beh hk evs
  refine ⟨?_, fun xs e ys heq hd => (hscan.alive xs e ys heq hd).drain⟩
  rw [hs.virt, hreg, ← hk.virt, h.virt, List.foldl_append]

theorem Recorded.run (beh : Behaviour) : ∀ (pkts : List (List EventId)) {cs : List Call}
    {k : Kernel}, Recorded cs k → Settled k →
      Recorded (cs ++ k.callsIn beh pkts) (pkts.foldl (Kernel.packet beh) k)
  | [], _, _, h, _ => by rwa [Kernel.callsIn, List.append_nil]
  | evs :: pkts, cs, k, h, hk => by
    have hrun := Recorded.run beh pkts (h.packet hk beh evs) (packet_spec beh hk evs).1
    rwa [List.append_assoc] at hrun

/-- A kernel set up by any calls. -/
theorem recorded_start (setup : List Call) :
    Recorded setup { setup.foldl Call.exec Kernel.new with running := true } := by
  have hnew : Recorded [] Kernel.new := ⟨rfl, fun xs e ys heq => by simp at heq⟩
  exact (hnew.calls inv_new setup).congr rfl rfl rfl

end Records

/-- **Dispatch and deferred handler changes.** Take a kernel set up by any calls, any packets
`before`, and any behaviour of the callbacks. For the next packet, with events `evs`:

* the callbacks invoked are, in order, those of the handlers installed at its start for its events
  that are active when their turn comes;
* the registry at the start of the following packet is the one at its start with the calls made
  during the packet applied in order;
* a handler destroyed during the packet is not called for any later packet;
* a handler added during the packet and not destroyed is installed from the next packet on, and is
  active as `activate` and `deactivate` of it say, from its `on` on; unless it is deactivated, it is
  called for each occurrence of its event in each later packet;
* so it is with every handler, whenever it was added: `active` is what the calls since its `on` have
  made of it, and while it is active it is called for each occurrence of its event. -/
theorem deferred_changes (beh : Behaviour) (setup : List Call) (before : List (List EventId))
    (evs : List EventId) :
    let start := { setup.foldl Call.exec Kernel.new with running := true }
    let k := (setup.foldl Call.exec Kernel.new).packets beh before
    let k' := k.packet beh evs
    k'.invoked = k.invoked ++ k.callbacks beh evs ∧
    k'.registry = (k.calls beh evs).foldl Registry.apply k.registry ∧
    (∀ xs p ys, k.calls beh evs = xs ++ .destroy p :: ys →
      p < (xs.foldl Registry.apply k.registry).made →
      ∀ (later : List (List EventId)) (evs' : List EventId),
        p ∉ (later.foldl (Kernel.packet beh) k').callbacks beh evs') ∧
    (∀ xs e ys, k.calls beh evs = xs ++ .on e :: ys →
      let p := (xs.foldl Registry.apply k.registry).made
      ∀ later : List (List EventId), Call.destroy p ∉ ys ++ k'.callsIn beh later →
        let k'' := later.foldl (Kernel.packet beh) k'
        p ∈ k''.registry.installed e ∧
        k''.isActive p = (ys ++ k'.callsIn beh later).foldl (Call.switch p) true ∧
        ∀ evs', Call.deactivate p ∉ ys ++ k'.callsIn beh later ++ k''.calls beh evs' →
          (k''.callbacks beh evs').count p = evs'.count e) ∧
    ∀ xs e ys, setup ++ start.callsIn beh before = xs ++ .on e :: ys →
      let p := (xs.foldl Registry.apply Kernel.new.registry).made
      Call.destroy p ∉ ys →
        p ∈ k.registry.installed e ∧
        k.isActive p = ys.foldl (Call.switch p) true ∧
        (k.isActive p = true → Call.deactivate p ∉ k.calls beh evs →
          (k.callbacks beh evs).count p = evs.count e) := by
  intro start k k'
  have hstart : Settled start := settled_start setup
  have hk : Settled k := (run_spec beh before hstart).1
  have hrec : Recorded (setup ++ start.callsIn beh before) k :=
    Recorded.run beh before (recorded_start setup) hstart
  have hreg : k.registry = (setup ++ start.callsIn beh before).foldl Registry.apply
      Kernel.new.registry := hk.virt.symm.trans hrec.virt
  obtain ⟨p1, p2, p3⟩ := packet_spec beh hk evs
  have hwf : k.registry.WF := hk.virt ▸ hk.inv.wf
  refine ⟨p2, p3, ?_, ?_, ?_⟩
  · intro xs p ys hc hp later evs' hm
    have hgone : k'.registry.Gone p := by
      rw [p3, hc, List.foldl_append, List.foldl_cons]
      exact ((hwf.foldl xs).gone_of_destroy hp).foldl ys
    have hlater := hgone.foldl (k'.callsIn beh later)
    rw [← (run_spec beh later p1).2] at hlater
    have := called_subset beh _ _ p hm
    obtain ⟨e, -, he⟩ := List.mem_flatMap.mp this
    exact hlater.2 e he
  · intro xs e ys hc p later hd k''
    have hk'' : Settled k'' := (run_spec beh later p1).1
    have hin : p ∈ k''.registry.installed e := by
      rw [(run_spec beh later p1).2, p3, hc, List.foldl_append, List.foldl_cons]
      rw [← List.foldl_append]
      exact Registry.mem_foldl (Registry.mem_apply_on _ e) hd
    -- all calls up to `k''`, with the `on` among them
    have hrec'' := Recorded.run beh later (hrec.packet hk beh evs) p1
    have halive := hrec''.alive (setup ++ start.callsIn beh before ++ xs) e
      (ys ++ k'.callsIn beh later) (by rw [hc]; simp [k'])
    rw [List.foldl_append, ← hreg] at halive
    have hact := (halive hd).isActive
    refine ⟨hin, hact, fun evs' hdeact => ?_⟩
    rw [List.mem_append, not_or] at hdeact
    exact count_callbacks beh hk'' hin (hact.trans (foldl_switch_true hdeact.1)) hdeact.2
  · intro xs e ys hc p hd
    have hin : p ∈ k.registry.installed e := by
      rw [hreg, hc, List.foldl_append, List.foldl_cons]
      exact Registry.mem_foldl (Registry.mem_apply_on _ e) hd
    exact ⟨hin, (hrec.alive xs e ys hc hd).isActive, fun ha hdeact =>
      count_callbacks beh hk hin ha hdeact⟩

/-- A callback that adds a handler for event 1 when it is called first. -/
def addsOnce : Behaviour := fun log => if log = [0] then [.on 1] else []

/-- The handler that it adds is called for both occurrences of event 1 in the next packet. -/
theorem deferred_changes_addsOnce :
    (Kernel.callbacks addsOnce
      (Kernel.packet addsOnce (Kernel.packets addsOnce (Call.exec Kernel.new (.on 0)) []) [0])
      [1, 0, 1]).count 1 = 2 :=
  ((deferred_changes addsOnce [.on 0] [] [0]).2.2.2.1 [] 1 [] (by decide) [] (by decide)).2.2
    [1, 0, 1] (by decide)

end PacketMachine.Machine
