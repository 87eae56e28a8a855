import PacketMachine.Decode.Reading

/-!
# One `Property` for many packets

A worker has one `Property` and decodes all its packets into it. `init` only resets the counters, so
the pools still hold the objects of earlier packets, with what these have left in them. The one thing
that shows is the storage behind a header: `ValueStorage::get` and `size` are about its slots, which no
packet clears (`Key.header`).

Results:
* **`reuse_unobservable`**: without session management of TCP, after any history of packets and reads,
  the events, the number of values and everything that a user can see of them are those of a property
  that has decoded this packet alone.
-/

namespace PacketMachine.Decode

open PacketMachine.Lib

variable {τ : Type}

/-- **Two properties that a user cannot tell apart** by events and values, for the same packet. Of a
header, everything but `get` and `size` of its storage is the same. -/
structure Property.Indistinct (m : Mem) (q q' : Property) : Prop where
  eventIdx : q.eventIdx = q'.eventIdx
  events : q.events = q'.events
  count : ∀ d, q.count d = q'.count d
  observe : ∀ ntop6 key path, key.header = false →
    q.observe ntop6 m key path = q'.observe ntop6 m key path
  header : ∀ ntop6 d path, d.kind = .storage → (∀ i, .get i ∉ path) →
    (q.observe ntop6 m (.param d) path).map (Option.map Look.unsized) =
      (q'.observe ntop6 m (.param d) path).map (Option.map Look.unsized)

section Reuse

variable {q q' : Property}

/-- After `init` all properties are the same. -/
theorem Sim.init (h : q.WF) (h' : q'.WF) : Sim q.init q'.init := by
  refine ⟨h.init, h'.init, fun d => ?_, rfl, rfl, fun i o o' hl => ?_⟩
  · rw [Property.count_init, Property.count_init]
  · rw [Property.Live, Property.count_init] at hl
    exact absurd hl (Nat.not_lt_zero _)

theorem Sim.indistinct (h : Sim q q') (hl : q.Linked) (m : Mem) : q'.Indistinct m q :=
  ⟨h.eventIdx.symm, h.events.symm, fun d => (h.count d).symm,
    fun _ key path hkey => (h.observe hl key hkey path).symm,
    fun _ _ _ hd hp => (h.observe_header hd hp).symm⟩

/-- The calls of a decoder never hand a value its own buffer. -/
theorem Op.Fits.ne_own {hi : Nat} {op : Op} (h : op.Fits hi) :
    ∀ d ptr len e hd, op = .set d ptr len e hd → ptr ≠ .own := by
  rintro d ptr len e hd rfl
  exact h.2.1

/-- **Reusing one property for many packets is unobservable.** -/
theorem reuse_unobservable (cfg : TcpConfig τ) (hoff : cfg.enableSsnMgmt = false)
    (tcp tcp' : TcpState τ) (hist : List (Packet × List Key)) (p : Packet) (keys : List Key) :
    Returns (Worker.run cfg { tcp } hist) fun w => Returns (w.use cfg (p, keys)) fun w1 =>
      Returns (Worker.process cfg { tcp := tcp' } p) fun v => w1.prop.Indistinct p.mem v.prop := by
  refine (run_returns Property.wf_empty hist).mono fun w hw => ?_
  obtain ⟨w1, hw1, ops, hops, hsame⟩ := process_returns cfg w p
  obtain ⟨v, hv, hexec⟩ := hsame hoff { tcp := tcp' }
  have hops' : Decodes p.mem p.data.length p.dhcpAt ({} : Property).init v.prop ops :=
    ⟨hexec, hops.fits, hops.first, hops.hwAddr⟩
  obtain ⟨-, hlinked, hheaded⟩ := hops'.links Property.wf_empty
  -- the same calls, on pools that differ only in what is not live
  have hsim : Sim v.prop w1.prop := by
    rw [hexec, hops.exec]
    exact (Sim.init Property.wf_empty hw).exec fun op hop => (hops.fits op hop).ne_own
  refine .bind_ok hw1 ?_
  refine (reads_returns hheaded p.has_all keys hsim).bind fun q' hq' => returns_pure.mpr ?_
  exact ⟨v, hv, hq'.1.indistinct hlinked p.mem⟩

end Reuse

/-- A configuration with the session management off. -/
def statelessConfig : TcpConfig (List (Int × List UInt8 × Tcp.Session)) := ⟨false, 300, listHash⟩

/-- An ARP request, behind its Ethernet header, without the addresses. -/
def arpHead : List UInt8 :=
  [0xff, 0xff, 0xff, 0xff, 0xff, 0xff, 2, 0, 0, 0, 0, 1, 0x08, 0x06, 0, 1, 0x08, 0, 6, 4, 0, 1]

/-- An ARP request that is cut behind its fixed part. -/
def arpCut : Packet := ⟨4096, arpHead, ⟨0, 0⟩, by decide⟩

/-- A whole ARP request. -/
def arpWhole : Packet :=
  ⟨4096, arpHead ++ [2, 0, 0, 0, 0, 1, 10, 0, 0, 1, 0, 0, 0, 0, 0, 0, 10, 0, 0, 2], ⟨0, 0⟩, by decide⟩

/-- The addresses of an earlier request do not show in one that is cut. -/
theorem reuse_unobservable_arpCut :
    statelessConfig.enableSsnMgmt = false ∧
      Returns (Worker.run statelessConfig { tcp := { table := [] } } [(arpWhole, [.param .arpHwSrc])])
        fun w => Returns (w.use statelessConfig (arpCut, [.param .arpHwSrc])) fun w1 =>
          Returns (Worker.process statelessConfig { tcp := { table := [] } } arpCut) fun v =>
            w1.prop.Indistinct arpCut.mem v.prop :=
  ⟨rfl, reuse_unobservable statelessConfig rfl { table := [] } { table := [] }
    [(arpWhole, [.param .arpHwSrc])] arpCut [.param .arpHwSrc]⟩

end PacketMachine.Decode
