import PacketMachine.Decode.Header

/-!
# The ways through the modules

Which module may follow which is a graph (`Mod.successors`): each module names the modules that it
looked up in its `setup`, and the bytes choose one of them. The paths of this graph from Ethernet on
are the sequences of module events that a user can see, no more and no fewer. IPv6 is on none.

* `paths` lists them, and `frame` is a frame for each of them: the headers of its modules, each with
  the number of the next one.

Results:
* `route_isPath`: the way of every packet is a path.
* `mem_paths`: the list is complete.
* **`paths_exact`**: a sequence of modules is that of the module events of a packet exactly when it
  is a path.
-/

namespace PacketMachine.Decode

open PacketMachine.Lib

variable {τ : Type}

/-! ## The graph -/

/-- The modules that may follow. -/
def Mod.successors : Mod → List Mod
  | ethernet => [arp, ipv4, dot1q, pppoe]
  | dot1q => [arp, ipv4, pppoe]
  | pppoe => [ipv4]
  | ipv4 => [icmp, tcp, udp]
  | udp => [dns, mdns, dhcp]
  | _ => []

/-- A path from a module on. -/
def IsPath (mod : Mod) (s : List Mod) : Prop :=
  s.head? = some mod ∧ s.IsChain fun a b => b ∈ a.successors

theorem isPath_singleton (mod : Mod) : IsPath mod [mod] := ⟨rfl, .singleton _⟩

theorem IsPath.cons {mod next : Mod} {s : List Mod} (hn : next ∈ mod.successors)
    (h : IsPath next s) : IsPath mod (mod :: s) := by
  refine ⟨rfl, List.isChain_cons.mpr ⟨fun y hy => ?_, h.2⟩⟩
  obtain rfl := Option.some.inj (h.1.symm.trans hy)
  exact hn

/-- The bytes choose among the successors. -/
theorem nextOf_mem {m : Mem} {mod next : Mod} {pd pd' : Payload}
    (h : nextOf m mod pd = some (next, pd')) : next ∈ mod.successors := by
  have hmap : ∀ {o : Option Mod} {q : Payload},
      o.map (·, q) = some (next, pd') → o = some next := by
    intro o q ho
    obtain ⟨x, hx, he⟩ := Option.map_eq_some_iff.mp ho
    exact hx.trans (congrArg some (Prod.mk.inj he).1)
  cases mod with
  | ethernet =>
    have h := hmap (Option.ite_none_right_eq_some.mp h).2
    unfold ethernetNext at h
    split_ifs at h <;> obtain rfl := Option.some.inj h <;> simp [Mod.successors]
  | dot1q =>
    have h := hmap (Option.ite_none_right_eq_some.mp h).2
    unfold dot1qNext at h
    split_ifs at h <;> obtain rfl := Option.some.inj h <;> simp [Mod.successors]
  | pppoe =>
    have h := hmap (Option.ite_none_right_eq_some.mp h).2
    obtain rfl := Option.some.inj (Option.ite_none_right_eq_some.mp h).2
    simp [Mod.successors]
  | ipv4 =>
    have h := hmap (Option.ite_none_right_eq_some.mp h).2
    obtain rfl | rfl | ⟨rfl, -⟩ := ipv4Next_cases h <;> simp [Mod.successors]
  | udp =>
    have h := hmap (Option.ite_none_right_eq_some.mp h).2
    obtain rfl | rfl | rfl := udpNext_cases h <;> simp [Mod.successors]
  | arp | dhcp | dns | icmp | ipv6 | mdns | tcp => cases h

/-- **The way of every packet is a path.** -/
theorem route_isPath (m : Mem) : ∀ (fuel : Nat) (mod : Mod) (pd : Payload),
    IsPath mod ((route m (fuel + 1) mod pd).map Prod.fst)
  | 0, mod, pd => by
    unfold route
    cases nextOf m mod pd <;> exact isPath_singleton mod
  | fuel + 1, mod, pd => by
    unfold route
    cases hn : nextOf m mod pd with
    | none => exact isPath_singleton mod
    | some next => exact (route_isPath m fuel next.1 next.2).cons (nextOf_mem hn)

/-! ## The list of the paths -/

/-- The paths of at most `n` modules. -/
def paths : Nat → Mod → List (List Mod)
  | 0, _ => []
  | n + 1, mod => [mod] :: mod.successors.flatMap fun next => (paths n next).map (mod :: ·)

theorem successors_rank {mod next : Mod} (h : next ∈ mod.successors) : next.rank < mod.rank := by
  cases mod <;> cases next <;> simp_all [Mod.successors, Mod.rank]

/-- **The list is complete**: along a path the ranks fall. -/
theorem mem_paths {s : List Mod} {n : Nat} {mod : Mod} (hn : mod.rank < n) (h : IsPath mod s) :
    s ∈ paths n mod := by
  induction s generalizing n mod with
  | nil => cases h.1
  | cons a l ih =>
    obtain rfl : a = mod := Option.some.inj h.1
    obtain ⟨n, rfl⟩ : ∃ k, n = k + 1 := ⟨n - 1, by omega⟩
    cases l with
    | nil => exact List.mem_cons_self
    | cons b l =>
      obtain ⟨hb, hchain⟩ := List.isChain_cons_cons.mp h.2
      have hrank := successors_rank hb
      refine List.mem_cons_of_mem _ (List.mem_flatMap.mpr ⟨b, hb, ?_⟩)
      exact List.mem_map_of_mem (ih (by omega) ⟨rfl, hchain⟩)

/-! ## A frame for each path -/

/-- The type of what follows an Ethernet header or a tag. -/
def etherType : Option Mod → List UInt8
  | some .arp => [0x08, 0x06]
  | some .ipv4 => [0x08, 0x00]
  | some .dot1q => [0x81, 0x00]
  | some .pppoe => [0x88, 0x64]
  | _ => [0, 0]

/-- The protocol of what follows an IPv4 header. -/
def ipProto : Option Mod → UInt8
  | some .icmp => 1
  | some .tcp => 6
  | some .udp => 17
  | _ => 0

/-- The port of what follows a UDP header. -/
def wellKnownPort : Option Mod → UInt16
  | some .dns => 53
  | some .mdns => 5353
  | some .dhcp => 67
  | _ => 0

/-- The header of a module in front of `n` bytes, with the number of the next module. -/
def Mod.header (n : Nat) (next : Option Mod) : Mod → List UInt8
  | ethernet => List.replicate 12 0 ++ etherType next
  | dot1q => [0, 0] ++ etherType next
  | pppoe => [0x11, 0, 0, 0, 0, 0, 0, if next = some .ipv4 then 0x21 else 0]
  | ipv4 => [0x45, 0] ++ netU16 (UInt16.ofNat (20 + n)) ++ [0, 0, 0, 0, 64, ipProto next] ++
      List.replicate 10 0
  | udp => [0, 0] ++ netU16 (wellKnownPort next) ++ [0, 0, 0, 0]
  | _ => []

/-- A frame that goes this way. -/
def frame : List Mod → List UInt8
  | [] => []
  | mod :: s => mod.header (frame s).length s.head? ++ frame s

/-- The frames go their ways. -/
theorem route_frame : ∀ s ∈ paths 6 .ethernet, (frame s).length ≤ 64 ∧
    (route (fun i => (frame s)[i]?) 6 .ethernet ⟨0, 0, (frame s).length, (frame s).length⟩).map
      Prod.fst = s := by
  decide +kernel

/-! ## The events -/

section Events

variable {cfg : TcpConfig τ} {w : Worker τ}

/-- The module events of a packet are the modules on its way. -/
theorem process_modules (hw : w.prop.WF) (p : Packet) :
    Returns (w.process cfg p) fun w' =>
      w'.prop.events.filterMap Event.module? = p.route.map Prod.fst := by
  refine (process_loop cfg w p).mono ?_
  rintro w' ⟨vs, hloop, -, -, -, hroute⟩
  have hquiet : ∀ v ∈ vs, ∀ op ∈ v.step.ops, ∀ ev, op.event? = some ev → ev.module? = none := by
    intro v hv
    obtain ⟨st, e, st', hcall⟩ := hloop.called v hv
    exact decodeMod_quiet _ hcall
  have hprop : w'.prop = w.prop.init.exec (vs.flatMap Visit.ops) := hloop.exec_eq
  have hnil : w.prop.init.events = [] := List.take_zero
  rw [hprop, events_exec hw.init.events, hnil, List.nil_append, visits_events hquiet, ← hroute,
    List.map_map]
  rfl

end Events

/-- **What a user can see of the modules.** After any history of packets and reads, the module
events of every packet are a path from Ethernet on, and every such path is that of some packet. -/
theorem paths_exact (cfg : TcpConfig τ) (tcp : TcpState τ) (hist : List (Packet × List Key)) :
    Returns (Worker.run cfg { tcp } hist) fun w =>
      (∀ p, Returns (w.process cfg p) fun w' =>
        IsPath .ethernet (w'.prop.events.filterMap Event.module?)) ∧
      ∀ s, IsPath .ethernet s → ∃ p, Returns (w.process cfg p) fun w' =>
        w'.prop.events.filterMap Event.module? = s := by
  refine (run_returns Property.wf_empty hist).mono fun w hw => ⟨fun p => ?_, fun s hs => ?_⟩
  · refine (process_modules hw p).mono fun w' hw' => ?_
    rw [hw']
    exact route_isPath p.mem 5 .ethernet _
  · obtain ⟨hlen, hroute⟩ := route_frame s (mem_paths (by decide) hs)
    have hfits : 0 + (frame s).length < 2 ^ 64 := by omega
    refine ⟨⟨0, frame s, ⟨0, 0⟩, hfits⟩, (process_modules hw _).mono fun w' hw' => ?_⟩
    exact hw'.trans hroute

end PacketMachine.Decode
