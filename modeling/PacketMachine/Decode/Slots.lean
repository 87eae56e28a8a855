import PacketMachine.Decode.Bounds
import PacketMachine.Decode.Ends
import PacketMachine.Decode.Header

/-!
# What is left in the slots of a header

`value` computes the slot of a minor parameter from the header at hand, and nothing clears it: `init`
resets counters, and `ValueStorage` has no `clear` of its own. So a slot that was set to a field of a
header keeps pointing into the buffer of that packet. `value` of the same minor parameter computes it
anew; `get` of a later header (`module.hpp:83-86`) hands it out as it is.

Where such a slot points depends on the buffers: those of two packets may be the same or overlap, as
with the ring of the kernel. So a value here has an address (`Ptr.addr`).

* `Packet.hdrAt` says by the bytes alone where the way of a packet leads to a header that is retained.
* `lingers` says of a history which range it has left in a slot.

Results:
* `run_lingers`: after every run the slots hold exactly those ranges.
* **`values_inside_iff`**: after any history, all values but `IPv4.opt` lie in the packet iff the
  hardware address of a DHCP header does, and every range that lingers in a header of the packet was
  read for this packet as well or lies in its buffer.
-/

namespace PacketMachine.Decode

open PacketMachine.Lib

variable {τ : Type}

/-! ## The headers of a packet -/

/-- The module, called at the cursor, retains the header. IPv6 retains none. -/
def Param.hdrFits (m : Mem) (pd : Payload) : Param → Bool
  | .ipv4Hdr => 20 ≤ pd.length && ipv4HdrLen (m.byte pd.ptr) ≤ m.word (pd.ptr + 2)
  | .tcpHdr => 20 ≤ pd.length
  | .udpHdr => 8 ≤ pd.length
  | _ => false

/-- The visit of the module that retains the header. -/
def Param.heads (m : Mem) (d : Param) (v : Mod × Payload) : Bool := d.mod == v.1 && d.hdrFits m v.2

/-- **The position of a header that the way of the packet leads to.** -/
def Packet.hdrAt (p : Packet) (d : Param) : Option Nat := (p.route.find? (d.heads p.mem)).map (·.2.ptr)

section Headers

variable {cfg : TcpConfig τ} {tv : Tcp.Timeval} {st : TcpState τ} {e : Endpoints} {m : Mem}
  {pd : Payload} {mod : Mod} {d : Param}

/-- The call of `set` for a header. -/
def headCall (d : Param) (pd : Payload) (c : Cell) : Cell := c.set (.pkt pd.ptr) d.extent

theorem ipv4Decode_hdr (h : pd.WF) (hm : m.Has 0 pd.stop) : Ensures (ipv4Decode m pd) fun s =>
    setCalls .ipv4Hdr s.ops = if Param.hdrFits m pd .ipv4Hdr then [headCall .ipv4Hdr pd] else [] := by
  by_cases hfits : Param.hdrFits m pd .ipv4Hdr = true
  · have hf := hfits
    simp only [Param.hdrFits, Bool.and_eq_true, decide_eq_true_eq] at hf
    rw [ipv4Decode_eq h hm hf.1 hf.2, if_pos hfits]
    refine ensures_ok ?_
    unfold ipv4Options
    split
    · split <;> rfl
    · rfl
  · have hw := h.window
    rw [if_neg hfits]
    unfold ipv4Decode withHeader
    rw [Payload.retain_eq h]
    by_cases hs : 20 ≤ pd.length
    · rw [if_pos hs]
      dsimp only
      rw [Mem.u8_eq hm (by omega) (by omega), Mem.u16_eq hm (by omega) (by omega)]
      simp only [bind, Except.bind]
      rw [if_pos (by simpa [Param.hdrFits, hs] using hfits)]
      exact ensures_pure rfl
    · rw [if_neg hs]
      exact ensures_ok rfl

theorem ipv6Decode_hdr : Ensures (ipv6Decode m pd) fun s => setCalls .ipv6Hdr s.ops = [] := by
  refine withHeader_ensures rfl fun hdr pd => ensures_bind fun src => ensures_bind fun dst => ?_
  exact ensures_bind fun nextHdr => ensures_pure rfl

theorem udpDecode_hdr (h : pd.WF) (hm : m.Has 0 pd.stop) : Ensures (udpDecode m pd) fun s =>
    setCalls .udpHdr s.ops = if Param.hdrFits m pd .udpHdr then [headCall .udpHdr pd] else [] := by
  by_cases hs : 8 ≤ pd.length
  · have hfits : Param.hdrFits m pd .udpHdr = true := decide_eq_true hs
    rw [udpDecode_eq h hm hs, if_pos hfits]
    exact ensures_ok rfl
  · have hfits : Param.hdrFits m pd .udpHdr = false := decide_eq_false hs
    unfold udpDecode withHeader
    rw [Payload.retain_eq h, if_neg hs, hfits]
    exact ensures_ok rfl

theorem setProperties_hdr {hdr : Nat} : Ensures (setProperties m hdr pd) fun r =>
    setCalls .tcpHdr r.2.1 = [fun c => c.set (.pkt hdr) 20] := by
  unfold setProperties
  refine ensures_bind fun sport => ensures_bind fun dport => ensures_bind fun b => ?_
  dsimp only
  split
  · split <;> exact ensures_pure rfl
  · exact ensures_pure rfl

theorem tcpDecode_hdr (h : pd.WF) : Ensures (tcpDecode cfg st e tv m pd) fun r =>
    setCalls .tcpHdr r.2.ops = if Param.hdrFits m pd .tcpHdr then [headCall .tcpHdr pd] else [] := by
  have hseg : ∀ (ptr : Ptr) (n : Nat),
      setCalls .tcpHdr (if n > 0 then [Op.set .tcpSegment ptr n] else []) = [] := by
    intro ptr n
    split <;> rfl
  unfold tcpDecode
  rw [Payload.retain_eq h]
  by_cases hs : 20 ≤ pd.length
  · have hfits : Param.hdrFits m pd .tcpHdr = true := decide_eq_true hs
    rw [if_pos hs, if_pos hfits]
    refine setProperties_hdr.bind ?_
    rintro ⟨pd', ops, ok⟩ hops
    dsimp only at hops ⊢
    split
    · exact ensures_pure hops
    · split
      · refine ensures_bind fun sport => ensures_bind fun dport => sessionMgmt_own.bind ?_
        rintro ⟨st', ssnOps⟩ hown
        -- the session management fills no header
        have hssn : setCalls .tcpHdr ssnOps = [] :=
          setCalls_eq_nil fun hd => absurd (hown .tcpHdr hd) (by decide)
        refine ensures_pure ?_
        dsimp only
        rw [setCalls_append, setCalls_append, hops, hseg, hssn]
        rfl
      · refine ensures_pure ?_
        dsimp only
        rw [setCalls_append, hops, hseg]
        rfl
  · have hfits : Param.hdrFits m pd .tcpHdr = false := decide_eq_false hs
    rw [if_neg hs, hfits]
    exact ensures_ok rfl

/-- **Which modules retain a header**, and where. -/
theorem decodeMod_hdr (h : pd.WF) (hm : m.Has 0 pd.stop) (hd : d.kind = .storage) :
    Ensures (decodeMod cfg tv m st e pd mod) fun r =>
      setCalls d r.2.ops = if d.heads m (mod, pd) then [headCall d pd] else [] := by
  by_cases hmod : d.mod = mod
  · subst hmod
    simp only [Param.heads, beq_self_eq_true, Bool.true_and]
    cases d <;> cases hd
    · exact (ipv4Decode_hdr h hm).bind fun s hs => ensures_pure hs
    · exact ipv6Decode_hdr.bind fun s hs => ensures_pure hs
    · exact tcpDecode_hdr h
    · exact (udpDecode_hdr h hm).bind fun s hs => ensures_pure hs
  · rw [if_neg (by simp [Param.heads, hmod])]
    exact decodeMod_own.mono fun r hr => setCalls_eq_nil fun hin => hmod (hr d hin)

/-- **The first call for a header** is that of the first visit that retains it. -/
theorem Loop.hdr {p : Packet} {start : Option Mod} {w w' : Worker τ} {vs : List Visit}
    (h : Loop cfg tv p.mem start pd w vs w') (hvs : ∀ v ∈ vs, v.Sound p.mem p.data.length)
    (hd : d.kind = .storage) :
    (setCalls d (vs.flatMap Visit.ops)).head? =
      ((vs.map fun v => (v.mod, v.pd)).find? (d.heads p.mem)).map fun v => headCall d v.2 := by
  induction h with
  | done pd w => rfl
  | @call mod pd w w' tcp s vs hmod hrest ih =>
    obtain ⟨hv, hvs⟩ := List.forall_mem_cons.mp hvs
    have hcalls : setCalls d s.ops = if d.heads p.mem (mod, pd) then [headCall d pd] else [] :=
      decodeMod_hdr hv.wf (hv.stop ▸ p.has_all) hd _ hmod
    have hops : setCalls d (Visit.ops ⟨mod, pd, s⟩) = setCalls d s.ops := rfl
    rw [List.flatMap_cons, setCalls_append, hops, hcalls, List.map_cons]
    by_cases hheads : d.heads p.mem (mod, pd) = true
    · rw [if_pos hheads, List.find?_cons_of_pos hheads]
      rfl
    · rw [if_neg hheads, List.find?_cons_of_neg hheads]
      exact ih hvs

/-- **The headers that a packet has** are those that its bytes lead to. -/
theorem process_hdr (cfg : TcpConfig τ) (w : Worker τ) (hw : w.prop.WF) (p : Packet)
    (hd : d.kind = .storage) :
    Returns (w.process cfg p) fun w' => (p.hdrAt d = none → w'.prop.count d = 0) ∧
      ∀ pos, p.hdrAt d = some pos → 0 < w'.prop.count d ∧ w'.prop.HeadAt d pos := by
  have hdirect : d.direct = true := by
    by_contra hn
    exact Param.kind_of_not_direct (Bool.eq_false_iff.mpr hn) hd
  refine (process_loop cfg w p).mono ?_
  rintro w' ⟨vs, hloop, hsound, -, -, hroute⟩
  have hcall := exec_call hdirect hw.init (Property.count_init _) (vs.flatMap Visit.ops)
  have hhdr := hloop.hdr hsound hd
  rw [← hloop.exec_eq] at hcall
  rw [hroute] at hhdr
  unfold Packet.hdrAt
  cases hfind : p.route.find? (d.heads p.mem) with
  | none =>
    rw [hfind, Option.map_none, List.head?_eq_none_iff] at hhdr
    rw [hhdr] at hcall
    exact ⟨fun _ => hcall, fun pos hpos => by cases hpos⟩
  | some v =>
    rw [hfind, Option.map_some, List.head?_eq_some_iff] at hhdr
    obtain ⟨rest, hcalls⟩ := hhdr
    rw [hcalls] at hcall
    obtain ⟨hl, o, c, ho, hcell⟩ := hcall
    refine ⟨fun hn => (by cases hn), ?_⟩
    rintro pos ⟨⟩
    exact ⟨hl, o, ho, by rw [hcell]; exact ⟨rfl, rfl⟩⟩

/-- A header is retained iff the way of the packet leads to it. -/
theorem process_count (cfg : TcpConfig τ) (w : Worker τ) (hw : w.prop.WF) (p : Packet)
    (hd : d.kind = .storage) :
    Returns (w.process cfg p) fun w' => 0 < w'.prop.count d ↔ p.hdrAt d ≠ none := by
  refine (process_hdr cfg w hw p hd).mono ?_
  rintro w' ⟨hnone, hsome⟩
  refine ⟨fun hpos hn => Nat.pos_iff_ne_zero.mp hpos (hnone hn), fun hn => ?_⟩
  obtain ⟨pos, hpos⟩ := Option.ne_none_iff_exists'.mp hn
  exact (hsome pos hpos).1

end Headers

/-! ## Addresses -/

/-- The address in a pointer to a packet; `ps` are the packets so far, the one at hand first. -/
def Ptr.addr (ps : List Packet) : Ptr → Option Nat
  | .pkt off => ps[0]?.map (·.addr + off)
  | .old age off => ps[age + 1]?.map (·.addr + off)
  | _ => none

/-- The bytes of the packet reach over a range, given by its address and its length. -/
def Packet.Spans (p : Packet) (r : Nat × Nat) : Prop :=
  p.addr ≤ r.1 ∧ r.1 + r.2 ≤ p.addr + p.data.length

/-- **A value that was filled with `set` denotes bytes of the packet at hand**, `[ptr, ptr+len)` of
`[buf, buf+len)`. -/
def Cell.Lies (p : Packet) (past : List Packet) (c : Cell) : Prop :=
  c.Ranged → ∃ a, c.ptr.addr (p :: past) = some a ∧ p.Spans (a, c.len)

/-- The value denotes the range, or none at all. -/
def Cell.Denotes (ps : List Packet) (c : Cell) : Option (Nat × Nat) → Prop
  | none => ¬ c.Ranged
  | some r => c.Ranged ∧ c.ptr.addr ps = some r.1 ∧ c.len = r.2

/-- The range that the function sets the slot to. -/
def Defer.range? : Defer → Option (Nat × Nat)
  | .field off len => some (off, len)
  | .calc _ => none

section Addresses

variable {p : Packet} {past : List Packet} {c : Cell} {r : Option (Nat × Nat)}

theorem Ptr.addr_leave (ptr : Ptr) : ptr.leave.addr (p :: past) = ptr.addr past := by
  cases ptr <;> rfl

theorem Cell.ranged_leave : c.leave.Ranged ↔ c.Ranged := by
  have hptr : c.ptr.leave ≠ .own ↔ c.ptr ≠ .own := by
    cases c.ptr <;> simp [Ptr.leave]
  exact ⟨fun ⟨ha, hl, hp⟩ => ⟨ha, hl, hptr.mp hp⟩, fun ⟨ha, hl, hp⟩ => ⟨ha, hl, hptr.mpr hp⟩⟩

/-- The next packet does not change what a value denotes. -/
theorem Cell.Denotes.leave (h : c.Denotes past r) : c.leave.Denotes (p :: past) r := by
  cases r with
  | none => exact fun hr => h (Cell.ranged_leave.mp hr)
  | some r => exact ⟨Cell.ranged_leave.mpr h.1, (Ptr.addr_leave c.ptr).trans h.2.1, h.2.2⟩

/-- A value lies in the packet iff its range does. -/
theorem Cell.Denotes.lies (h : c.Denotes (p :: past) r) :
    c.Lies p past ↔ ∀ x, r = some x → p.Spans x := by
  cases r with
  | none => exact iff_of_true (fun hr => absurd hr h) fun x hx => by cases hx
  | some r =>
    obtain ⟨hranged, haddr, hlen⟩ := h
    constructor
    · rintro hlies x ⟨⟩
      obtain ⟨a, ha, hspans⟩ := hlies hranged
      obtain rfl := Option.some.inj (haddr.symm.trans ha)
      rw [hlen] at hspans
      exact hspans
    · exact fun hspans _ => ⟨r.1, haddr, hlen ▸ hspans r rfl⟩

/-- A position inside of the packet is an address inside of its buffer. -/
theorem Cell.Inside.lies (h : c.Inside p.data.length) : c.Lies p past := by
  intro hr
  obtain ⟨off, hptr, hle⟩ := h hr
  refine ⟨p.addr + off, by rw [hptr]; rfl, Nat.le_add_right _ _, ?_⟩
  show p.addr + off + c.len ≤ p.addr + p.data.length
  omega

/-- A slot denotes the field of the header that it was computed from. -/
theorem Defer.Computed.denotes {f : Defer} {pos : Nat} (h : f.Computed pos c) :
    c.Denotes (p :: past) (f.range?.map fun r => (p.addr + (pos + r.1), r.2)) := by
  rcases f with ⟨off, len⟩ | f
  · obtain ⟨hr, hptr, hlen⟩ := h
    exact ⟨hr, by rw [hptr]; rfl, hlen⟩
  · exact h

end Addresses

/-! ## After a run -/

/-- The range that a packet leaves in a slot: the field of its header, when the slot was read. -/
def leaves (d : Param) (i : Fin d.minors.length) (u : Packet × List Key) : Option (Nat × Nat) :=
  if .minor d i ∈ u.2 then
    (u.1.hdrAt d).bind fun pos =>
      (d.minors.get i).2.range?.map fun r => (u.1.addr + (pos + r.1), r.2)
  else none

/-- **The range that is left in a slot**: that of the last packet with the header for which it was
read. -/
def lingers (hist : List (Packet × List Key)) (d : Param) (i : Fin d.minors.length) :
    Option (Nat × Nat) :=
  hist.reverse.findSome? (leaves d i)

/-- The packets of a history, the last one first. -/
def packets (hist : List (Packet × List Key)) : List Packet := (hist.map Prod.fst).reverse

/-- The slots denote the ranges that the packets so far have left in them. -/
structure Property.Left (hist : List (Packet × List Key)) (q : Property) : Prop where
  wf : q.WF
  held : ∀ d (i : Fin d.minors.length), (q.held d i).Denotes (packets hist) (lingers hist d i)

section Runs

variable {cfg : TcpConfig τ} {hist : List (Packet × List Key)} {q : Property} {d : Param}

theorem packets_snoc (u : Packet × List Key) : packets (hist ++ [u]) = u.1 :: packets hist := by
  simp [packets]

theorem lingers_snoc (u : Packet × List Key) (i : Fin d.minors.length) :
    lingers (hist ++ [u]) d i = (leaves d i u).or (lingers hist d i) := by
  rw [lingers, List.reverse_append, List.reverse_singleton, List.singleton_append,
    List.findSome?_cons]
  cases leaves d i u <;> rfl

theorem leaves_read {p : Packet} {keys : List Key} {i : Fin d.minors.length} {pos : Nat}
    (hkey : .minor d i ∈ keys) (hpos : p.hdrAt d = some pos) :
    leaves d i (p, keys)
      = (d.minors.get i).2.range?.map fun r => (p.addr + (pos + r.1), r.2) := by
  rw [leaves, if_pos hkey, hpos]
  rfl

theorem leaves_eq_none {p : Packet} {keys : List Key} {i : Fin d.minors.length}
    (h : .minor d i ∈ keys → p.hdrAt d = none) : leaves d i (p, keys) = none := by
  unfold leaves
  split
  · rename_i hkey
    rw [h hkey]
    rfl
  · rfl

/-- A slot that is computed from the header holds no range of it. -/
theorem lingers_calc {i : Fin d.minors.length} (hf : (d.minors.get i).2.range? = none) :
    lingers hist d i = none := by
  refine List.findSome?_eq_none_iff.mpr fun u _ => ?_
  unfold leaves
  rw [hf]
  split
  · cases u.1.hdrAt d <;> rfl
  · rfl

theorem Property.HeadAt.unique {pos pos' : Nat} (h : q.HeadAt d pos) (h' : q.HeadAt d pos') :
    pos = pos' := by
  obtain ⟨o, ho, hat⟩ := h
  obtain ⟨o', ho', hat'⟩ := h'
  obtain rfl := Option.some.inj (ho.symm.trans ho')
  exact Ptr.pkt.inj (hat.ptr.symm.trans hat'.ptr)

/-- What decoding a packet leaves in a slot. -/
theorem Decodes.held {m : Mem} {hi : Nat} {dhcp : Option Nat} {q' : Property} {ops : List Op}
    (h : Decodes m hi dhcp q.init q' ops) (hw : q.WF) (d : Param) (i : Nat) :
    q'.held d i = (q.held d i).leave := by
  rw [h.exec, exec_held hw.init, held_init]

/-- **One packet**, and what is read of it. -/
theorem use_lingers {w : Worker τ} (h : w.prop.Left hist) (u : Packet × List Key) :
    Returns (w.use cfg u) fun w' => w'.prop.Left (hist ++ [u]) := by
  obtain ⟨p, keys⟩ := u
  obtain ⟨w0, hw0, ops, hops, -⟩ := process_returns cfg w p
  obtain ⟨hwf, -, hheaded⟩ := hops.links h.wf
  refine .bind_ok hw0 ((reads_returns hheaded p.has_all keys (Sim.refl hwf)).bind ?_)
  rintro q1 ⟨hsim, hread⟩
  refine returns_pure.mpr ⟨hsim.wf_right, fun d i => ?_⟩
  obtain ⟨w0', hw0', hnone, hsome⟩ := process_hdr cfg w h.wf p (Param.kind_of_minor i)
  obtain rfl := Except.ok.inj (hw0.symm.trans hw0')
  rw [packets_snoc, lingers_snoc]
  by_cases hkey : .minor d i ∈ keys ∧ 0 < w0.prop.count d
  · -- the slot was computed from the header of this packet
    obtain ⟨base, hbase, -, hcomputed⟩ := hread.read d i hkey.1 hkey.2
    obtain ⟨pos, hpos⟩ : ∃ pos, p.hdrAt d = some pos := by
      refine Option.ne_none_iff_exists'.mp fun hn => ?_
      exact absurd (hnone hn) (Nat.pos_iff_ne_zero.mp hkey.2)
    obtain rfl := hbase.unique (hsome pos hpos).2
    have hleaves := leaves_read hkey.1 hpos
    have hdenotes : (q1.held d i).Denotes (p :: packets hist) (leaves d i (p, keys)) :=
      hleaves ▸ hcomputed.denotes
    cases hl : leaves d i (p, keys) with
    | none =>
      rw [hl] at hleaves hdenotes
      rw [Option.none_or, lingers_calc (Option.map_eq_none_iff.mp hleaves.symm)]
      exact hdenotes
    | some r =>
      rw [hl] at hdenotes
      exact hdenotes
  · -- the slot is left as it was
    have hleaves : leaves d i (p, keys) = none := by
      refine leaves_eq_none fun hin => ?_
      by_contra hn
      obtain ⟨pos, hpos⟩ := Option.ne_none_iff_exists'.mp hn
      exact hkey ⟨hin, (hsome pos hpos).1⟩
    rw [hread.left d i hkey, hops.held h.wf, hleaves, Option.none_or]
    exact (h.held d i).leave

/-- **After every run of packets the slots are known.** -/
theorem run_lingers {w : Worker τ} (h : w.prop.Left hist) (us : List (Packet × List Key)) :
    Returns (w.run cfg us) fun w' => w'.prop.Left (hist ++ us) := by
  induction us generalizing w hist with
  | nil => exact returns_ok.mpr (by simpa using h)
  | cons u us ih =>
    rw [Worker.run_cons]
    refine (use_lingers h u).bind fun w1 h1 => ?_
    rw [List.append_cons]
    exact ih h1

theorem left_empty : ({} : Property).Left [] := by
  refine ⟨Property.wf_empty, fun d i => ?_⟩
  intro hr
  cases hr.active

/-- A slot is got from its header. -/
theorem obtains_slot {i : Nat} {c : Cell} (hd : d.kind = .storage) (hc : 0 < q.count d)
    (hs : q.slot? ⟨d, 0⟩ i = some c) : q.Obtains c := by
  obtain ⟨cell, slots, ho, hi⟩ := Property.slot?_eq_some.mp hs
  have hlt : i < slots.length := (List.getElem?_eq_some_iff.mp hi).1
  have hwalk : q.walk (.obj ⟨d, 0⟩) [.get i] = .ok (some (.slot ⟨d, 0⟩ i)) := by
    simp [Property.walk, Obj.access, ho, hlt, bind, Except.bind]
  refine .slot ?_ hc hwalk hs
  rintro rfl
  cases hd

/-- When all values lie in the packet, so does the hardware address. -/
theorem Decodes.hwAddr_le {p : Packet} {past : List Packet} {q' q1 : Property} {ops : List Op}
    (h : Decodes p.mem p.data.length p.dhcpAt q.init q' ops) (hw : q.WF) (hsim : Sim q' q1)
    (hall : ∀ c, q1.Obtains c → c.Lies p past) : p.HwAddrFits := by
  intro d hd
  obtain ⟨hl, o, ho, ha, hp, hlen⟩ := (h.hwAddr_obj hw).2 d hd
  obtain ⟨o1, ho1, hsame⟩ := hsim.other hl ho
  have hwalk : q1.walk (.obj ⟨.dhcpClientHwAddr, 0⟩) [] =
      .ok (some (.obj ⟨.dhcpClientHwAddr, 0⟩)) := rfl
  have hlies := hall _ (.obj (by decide) (hsim.live.mp hl) hwalk ho1)
  have hle := p.dhcpAt_le hd
  have hptr : o1.cell.ptr = .pkt (d + 28) := (hsame.cell.ptr ha).symm.trans hp
  have hlen1 : o1.cell.len = (p.mem.byte (d + 2)).toNat := (hsame.cell.len ha).symm.trans hlen
  by_cases hz : o1.cell.len = 0
  · omega
  · obtain ⟨a, haddr, hspans⟩ := hlies ⟨hsame.cell.active ▸ ha, hz, by simp [hptr]⟩
    rw [hptr] at haddr
    obtain rfl : p.addr + (d + 28) = a := Option.some.inj haddr
    have hend : p.addr + (d + 28) + o1.cell.len ≤ p.addr + p.data.length := hspans.2
    omega

end Runs

/-- **All values lie in the packet iff the hardware address of a DHCP header does and no slot of a header
of the packet is left over from elsewhere.** -/
theorem values_inside_iff (cfg : TcpConfig τ) (tcp : TcpState τ) (hist : List (Packet × List Key))
    (p : Packet) (keys : List Key) :
    Returns (Worker.run cfg { tcp } hist) fun w => Returns (w.use cfg (p, keys)) fun w1 =>
      (∀ c, w1.prop.Obtains c → c.Lies p (packets hist)) ↔
        p.HwAddrFits ∧ ∀ d i r, p.hdrAt d ≠ none → lingers hist d i = some r →
          .minor d i ∈ keys ∨ p.Spans r := by
  refine (run_lingers left_empty hist).mono fun w hleft => ?_
  have hw := hleft.wf
  obtain ⟨w0, hw0, ops, hops, -⟩ := process_returns cfg w p
  obtain ⟨hwf, -, hheaded⟩ := hops.links hw
  refine .bind_ok hw0 ((reads_returns hheaded p.has_all keys (Sim.refl hwf)).bind ?_)
  rintro q1 ⟨hsim, hread⟩
  have hhdr : ∀ {d} (i : Fin d.minors.length), 0 < q1.count d ↔ p.hdrAt d ≠ none := by
    intro d i
    obtain ⟨w0', hw0', hcount⟩ := process_count cfg w hw p (Param.kind_of_minor i)
    obtain rfl := Except.ok.inj (hw0.symm.trans hw0')
    rw [← hsim.count]
    exact hcount
  -- a slot that was not read denotes what it did before
  have hstale : ∀ d (i : Fin d.minors.length), .minor d i ∉ keys →
      (q1.held d i).Denotes (p :: packets hist) (lingers hist d i) := by
    intro d i hkey
    rw [hread.left d i fun hk => hkey hk.1, hops.held hw]
    exact (hleft.held d i).leave
  refine returns_pure.mpr ⟨fun hall => ⟨hops.hwAddr_le hw hsim hall, fun d i r hp hl => ?_⟩, fun hright c hc => ?_⟩
  · by_contra hn
    rw [not_or] at hn
    have hdenotes := hstale d i hn.1
    have hranged : (q1.held d i).Ranged := by
      rw [hl] at hdenotes
      exact hdenotes.1
    have hslot := Property.slot?_of_ranged hranged
    have hlies := hall _ (obtains_slot (Param.kind_of_minor i) ((hhdr i).mpr hp) hslot)
    exact hn.2 (hdenotes.lies.mp hlies r hl)
  · rcases hops.obtains_inside hw hsim hright.1 hc with hin | ⟨d, i, hcount, hs⟩
    · exact hin.lies
    · obtain ⟨i, rfl⟩ : ∃ j : Fin d.minors.length, j.val = i := by
        obtain ⟨cell, slots, ho, hi⟩ := Property.slot?_eq_some.mp hs
        have hlen := ((hsim.wf_right.objs _ _ ho).slots slots rfl)
        have hlt : i < slots.length := (List.getElem?_eq_some_iff.mp hi).1
        exact ⟨⟨i, hlen.resolve_left (by omega) ▸ hlt⟩, rfl⟩
      rw [← Property.held_eq hs]
      by_cases hkey : .minor d i ∈ keys
      · obtain ⟨base, -, hbase, hcomputed⟩ := hread.read d i hkey (hsim.count d ▸ hcount)
        exact (hcomputed.inside (d.minors_fit _ (List.get_mem ..)) hbase).lies
      · refine (hstale d i hkey).lies.mpr fun r hr => ?_
        exact (hright.2 d i r ((hhdr i).mp hcount) hr).resolve_left hkey

/-- What the first slot of the UDP header holds for a packet, after one for which it was read: the bytes
at position 40 of that one. -/
example : (do
    let w ← Worker.run statelessConfig { tcp := { table := [] } }
      [(udpBetween 1 9, [.minor .udpHdr ⟨0, by decide⟩])]
    let w ← w.process statelessConfig (udpBetween 2 9)
    return w.prop.held .udpHdr 0) = .ok { active := true, ptr := .old 0 40, len := 2 } := by
  decide +kernel

/-- A DHCP request that ends with its header, and has 255 for the length of the hardware address. -/
def dhcpOverlong : Packet where
  addr := 4096
  data :=
    -- Ethernet, IPv4 and UDP
    [0xff, 0xff, 0xff, 0xff, 0xff, 0xff, 2, 0, 0, 0, 0, 1, 0x08, 0x00]
    ++ [0x45, 0, 0x01, 0x0c, 0, 0, 0, 0, 64, 17, 0, 0, 0, 0, 0, 0, 0xff, 0xff, 0xff, 0xff]
    ++ [0, 68, 0, 67, 0, 0xf8, 0, 0]
    -- DHCP
    ++ [1, 1, 255, 0] ++ List.replicate 232 0 ++ [0x63, 0x82, 0x53, 0x63]
  tv := ⟨0, 0⟩
  fits := by decide +kernel

/-- **A value outside of the packet**: the hardware address has 255 bytes from position 70 on, in a
packet of 282 bytes. -/
theorem hwAddr_outside :
    Returns (Worker.use ⟨true, 300, listHash⟩ { tcp := { table := [] } } (dhcpOverlong, [])) fun w =>
      ∃ c, w.prop.Obtains c ∧ ¬ c.Lies dhcpOverlong [] := by
  refine (process_returns _ _ dhcpOverlong).bind ?_
  rintro w ⟨ops, hops, -⟩
  have hat : dhcpOverlong.dhcpAt = some 42 := by decide +kernel
  obtain ⟨hl, o, ho, ha, hp, hlen⟩ := (hops.hwAddr_obj Property.wf_empty).2 42 hat
  have hwalk : w.prop.walk (.obj ⟨.dhcpClientHwAddr, 0⟩) [] =
      .ok (some (.obj ⟨.dhcpClientHwAddr, 0⟩)) := rfl
  have hlen' : o.cell.len = 255 := hlen.trans (by decide)
  refine returns_ok.mpr ⟨o.cell, .obj (by decide) hl hwalk ho, fun hin => ?_⟩
  obtain ⟨a, haddr, hspans⟩ := hin ⟨ha, by omega, by simp [hp]⟩
  rw [hp] at haddr
  have ha : dhcpOverlong.addr + (42 + 28) = a := Option.some.inj haddr
  have hend : a + o.cell.len ≤ dhcpOverlong.addr + dhcpOverlong.data.length := hspans.2
  have hsize : dhcpOverlong.data.length = 282 := by decide +kernel
  omega

end PacketMachine.Decode
