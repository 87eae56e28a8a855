import PacketMachine.Decode.Transparent

/-!
# More bytes behind the packet

A decoder knows of the packet what it has read. When `m'` has all the bytes of `m` and some more
(`Mem.Sub`), whatever has returned over `m` returns the same over `m'`: the decoders with the same
cursor, and what a user sees of a value.

* `Follows` is proved side by side, as `Alike` is in `Shift`; here a fault of the first side needs
  no partner.

Results:
* `parseLabel_follows`, `nsDecode_follows` and their like, for everything that reads the packet.
* **`decodeMod_follows`**: one module, also when the end of the packet lies further on.
* **`Property.observe_follows`**: the values.
-/

namespace PacketMachine.Decode

open PacketMachine.Lib

variable {m m' : Mem}

/-- `m'` has the bytes of `m`. -/
def Mem.Sub (m m' : Mem) : Prop := ∀ i b, m i = some b → m' i = some b

/-! ## Memory and labels -/

section Reads

variable (hm : Mem.Sub m m')
include hm

theorem Mem.Sub.u8 (i : Nat) : Follows Eq (m.u8 i) (m'.u8 i) := by
  unfold Mem.u8
  cases hb : m i with
  | none => exact follows_error
  | some b =>
    rw [hm i b hb]
    exact follows_ok rfl

theorem Mem.Sub.u16 (i : Nat) : Follows Eq (m.u16 i) (m'.u16 i) :=
  (hm.u8 i).bind_eq fun _ => (hm.u8 (i + 1)).bind_eq fun _ => follows_pure rfl

theorem Mem.Sub.u32 (i : Nat) : Follows Eq (m.u32 i) (m'.u32 i) :=
  (hm.u16 i).bind_eq fun _ => (hm.u16 (i + 2)).bind_eq fun _ => follows_pure rfl

theorem Mem.Sub.bytes (i n : Nat) : Follows Eq (m.bytes i n) (m'.bytes i n) := by
  induction n generalizing i with
  | zero => exact follows_refl _
  | succ n ih =>
    rw [Mem.bytes, Mem.bytes]
    exact (hm.u8 i).bind_eq fun b => (ih (i + 1)).bind_eq fun bs => follows_pure rfl

theorem jump_extends (sp totalLen p remain : Nat) (rp : Option Nat) :
    Follows Eq (jump m sp totalLen p remain rp) (jump m' sp totalLen p remain rp) := by
  unfold jump
  refine (hm.u8 p).bind_eq fun b => .ite (fun _ => ?_) fun _ => follows_refl _
  refine .ite (fun _ => follows_refl _) fun _ => ?_
  exact (hm.u16 p).bind_eq fun h => follows_refl _

theorem appendLabel_follows (p dataLen : Nat) (s : Option Text) :
    Follows Eq (appendLabel m p dataLen s) (appendLabel m' p dataLen s) := by
  cases s with
  | none => exact follows_refl _
  | some s => exact (hm.bytes p dataLen).bind_eq fun bs => follows_refl _

theorem parseLoop_follows (sp totalLen : Nat) :
    ∀ (fuel p remain len : Nat) (rp : Option Nat) (s : Option Text),
      Follows Eq (parseLoop m sp totalLen fuel p remain len rp s)
        (parseLoop m' sp totalLen fuel p remain len rp s)
  | 0, _, _, _, _, _ => follows_error
  | fuel + 1, p, remain, len, rp, s => by
    unfold parseLoop
    refine .ite (fun _ => follows_refl _) fun _ => .ite (fun _ => follows_refl _) fun _ => ?_
    refine (jump_extends hm sp totalLen p remain rp).bind_eq fun r => ?_
    cases r with
    | none => exact follows_refl _
    | some r =>
      refine (hm.u8 r.1).bind_eq fun b => ?_
      refine .ite (fun _ => follows_refl _) fun _ => .ite (fun _ => follows_refl _) fun _ => ?_
      refine (appendLabel_follows hm _ _ s).bind_eq fun s' => ?_
      exact parseLoop_follows sp totalLen fuel _ _ _ _ _

theorem parseLabel_follows (p remain sp totalLen : Nat) (s : Option Text) :
    Follows Eq (parseLabel m p remain sp totalLen s) (parseLabel m' p remain sp totalLen s) :=
  parseLoop_follows hm sp totalLen 257 p remain 0 none _

end Reads

/-! ## Name service -/

section NameService

variable {ns : NameService} {base totalLen : Nat} (hm : Mem.Sub m m')
include hm

theorem readCounts_follows : Follows Eq (readCounts m base) (readCounts m' base) :=
  (hm.u16 _).bind_eq fun _ => (hm.u16 _).bind_eq fun _ => (hm.u16 _).bind_eq fun _ =>
    (hm.u16 _).bind_eq fun _ => follows_refl _

theorem recordBody_follows (hasData : Bool) (ptr : Nat) :
    Follows Eq (recordBody ns m base totalLen hasData ptr)
      (recordBody ns m' base totalLen hasData ptr) := by
  unfold recordBody
  dsimp only
  refine .ite (fun _ => follows_refl _) fun _ => .ite (fun _ => follows_refl _) fun _ => ?_
  refine .ite (fun _ => follows_refl _) fun _ => .ite (fun _ => follows_refl _) fun _ => ?_
  refine (hm.u16 _).bind_eq fun rdLen => .ite (fun _ => follows_refl _) fun _ => ?_
  exact (hm.u16 _).bind_eq fun type => follows_refl _

theorem recordLoop_follows {counts : List Nat} :
    ∀ (left c target rrC : Nat) (arr : Bool) (ptr : Nat),
      Follows Eq (recordLoop ns m base totalLen counts left c target rrC arr ptr)
        (recordLoop ns m' base totalLen counts left c target rrC arr ptr)
  | 0, _, _, _, _, _ => follows_refl _
  | left + 1, c, target, rrC, arr, ptr => by
    unfold recordLoop
    refine (follows_refl _).bind_eq ?_
    rintro ⟨target', rrC', arr'⟩
    dsimp only
    refine .ite (fun _ => follows_refl _) fun _ => (follows_refl _).bind_eq fun ops => ?_
    refine (parseLabel_follows hm _ _ _ _ none).bind_eq ?_
    rintro ⟨pos, s⟩
    cases pos with
    | none => exact follows_refl _
    | some pos =>
      refine (recordBody_follows hm _ pos).bind_eq ?_
      rintro ⟨body, round⟩
      cases round with
      | done ok => exact follows_refl _
      | next ptr => exact (recordLoop_follows left _ _ _ _ _).bind_eq fun r => follows_refl _

theorem nsDecode_follows (pd : Payload) : Follows Eq (ns.nsDecode m pd) (ns.nsDecode m' pd) := by
  unfold NameService.nsDecode
  cases pd.retain 12 with
  | none => exact follows_refl _
  | some r =>
    refine (readCounts_follows hm).bind_eq fun counts => ?_
    dsimp only
    cases r.2.retain r.2.length with
    | none => exact follows_refl _
    | some r' =>
      refine (hm.u16 _).bind_eq fun flags => ?_
      exact (recordLoop_follows hm _ _ _ _ _ _).bind_eq fun rest => follows_refl _

end NameService

/-! ## Modules -/

/-- The rule of a header. -/
theorem withHeader_follows {pd : Payload} (size : Nat) {f g : Nat → Payload → Except Fault Step}
    (hfg : ∀ hdr q, Follows Eq (f hdr q) (g hdr q)) :
    Follows Eq (withHeader pd size f) (withHeader pd size g) := by
  unfold withHeader
  cases pd.retain size with
  | none => exact follows_refl _
  | some r => exact hfg r.1 r.2

section Modules

variable {pd : Payload} (hm : Mem.Sub m m')
include hm

theorem ethernetDecode_follows : Follows Eq (ethernetDecode m pd) (ethernetDecode m' pd) :=
  withHeader_follows 14 fun _ _ => (hm.u16 _).bind_eq fun _ => follows_refl _

theorem dot1qDecode_follows : Follows Eq (dot1qDecode m pd) (dot1qDecode m' pd) :=
  withHeader_follows 4 fun _ _ => (hm.u16 _).bind_eq fun _ => (hm.u16 _).bind_eq fun _ =>
    follows_refl _

theorem pppoeDecode_follows : Follows Eq (pppoeDecode m pd) (pppoeDecode m' pd) := by
  refine withHeader_follows 6 fun hdr q => (hm.u8 _).bind_eq fun b => ?_
  dsimp only
  cases q.retain 2 with
  | none => exact follows_refl _
  | some r => exact (hm.u16 _).bind_eq fun proto => follows_refl _

theorem arpDecode_follows : Follows Eq (arpDecode m pd) (arpDecode m' pd) :=
  withHeader_follows 8 fun _ _ => (hm.u8 _).bind_eq fun _ => (hm.u8 _).bind_eq fun _ =>
    (hm.u16 _).bind_eq fun _ => follows_refl _

theorem ipv4Decode_follows : Follows Eq (ipv4Decode m pd) (ipv4Decode m' pd) := by
  refine withHeader_follows 20 fun hdr q => (hm.u8 _).bind_eq fun first => ?_
  refine (hm.u16 _).bind_eq fun totalLen => .ite (fun _ => follows_refl _) fun _ => ?_
  exact (hm.bytes _ 4).bind_eq fun src => (hm.bytes _ 4).bind_eq fun dst =>
    (hm.u8 _).bind_eq fun proto => follows_refl _

theorem ipv6Decode_follows : Follows Eq (ipv6Decode m pd) (ipv6Decode m' pd) :=
  withHeader_follows 40 fun _ _ => (hm.bytes _ 16).bind_eq fun _ =>
    (hm.bytes _ 16).bind_eq fun _ => (hm.u8 _).bind_eq fun _ => follows_refl _

theorem icmpDecode_follows : Follows Eq (icmpDecode m pd) (icmpDecode m' pd) :=
  withHeader_follows 4 fun _ _ => (hm.u8 _).bind_eq fun _ => follows_refl _

theorem udpDecode_follows : Follows Eq (udpDecode m pd) (udpDecode m' pd) :=
  withHeader_follows 8 fun _ _ => (hm.u16 _).bind_eq fun _ => (hm.u16 _).bind_eq fun _ =>
    follows_refl _

theorem NameService.decode_follows (ns : NameService) :
    Follows Eq (ns.decode m pd) (ns.decode m' pd) :=
  (nsDecode_follows hm pd).bind_eq fun _ => follows_refl _

theorem dhcpOptionsLoop_follows : ∀ (fuel : Nat) (pd : Payload),
    Follows Eq (dhcpOptionsLoop m fuel pd) (dhcpOptionsLoop m' fuel pd)
  | 0, _ => follows_error
  | fuel + 1, pd => by
    unfold dhcpOptionsLoop
    cases pd.retain 2 with
    | none => exact follows_refl _
    | some r =>
      refine (hm.u8 _).bind_eq fun type => .ite (fun _ => follows_refl _) fun _ => ?_
      refine (hm.u8 _).bind_eq fun len => ?_
      dsimp only
      cases r.2.retain len.toNat with
      | none => exact follows_refl _
      | some r' => exact (dhcpOptionsLoop_follows fuel _).bind_eq fun s => follows_refl _

theorem dhcpDecode_follows : Follows Eq (dhcpDecode m pd) (dhcpDecode m' pd) :=
  withHeader_follows 240 fun _ _ => (hm.u8 _).bind_eq fun _ => (hm.u8 _).bind_eq fun _ =>
    (hm.u8 _).bind_eq fun _ => (dhcpOptionsLoop_follows hm _ _).bind_eq fun _ => follows_refl _

end Modules

section Tcp

variable {τ : Type} {cfg : TcpConfig τ} {st : TcpState τ} {e : Endpoints} {tv : Tcp.Timeval}
  {pd : Payload} (hm : Mem.Sub m m')
include hm

theorem setProperties_follows (hdr : Nat) :
    Follows Eq (setProperties m hdr pd) (setProperties m' hdr pd) :=
  (hm.u16 _).bind_eq fun _ => (hm.u16 _).bind_eq fun _ => (hm.u8 _).bind_eq fun _ =>
    follows_refl _

theorem sessionMgmt_follows (hdr segOff segLen : Nat) :
    Follows Eq (sessionMgmt cfg st e tv m hdr segOff segLen)
      (sessionMgmt cfg st e tv m' hdr segOff segLen) := by
  unfold sessionMgmt
  dsimp only
  refine (follows_refl _).bind_eq fun key => (hm.u8 _).bind_eq fun flags => ?_
  refine (hm.u32 _).bind_eq fun seq => (hm.u32 _).bind_eq fun ack => ?_
  exact (hm.u16 _).bind_eq fun win => (hm.bytes _ _).bind_eq fun data => follows_refl _

theorem tcpDecode_follows :
    Follows Eq (tcpDecode cfg st e tv m pd) (tcpDecode cfg st e tv m' pd) := by
  unfold tcpDecode
  cases pd.retain 20 with
  | none => exact follows_refl _
  | some r =>
    refine (setProperties_follows hm r.1).bind_eq ?_
    rintro ⟨q, ops, ok⟩
    dsimp only
    refine .ite (fun _ => follows_refl _) fun _ => .ite (fun _ => ?_) fun _ => follows_refl _
    refine (hm.u16 _).bind_eq fun sport => (hm.u16 _).bind_eq fun dport => ?_
    exact (sessionMgmt_follows hm _ _ _).bind_eq fun r => follows_refl _

/-- **One module** does the same with more bytes behind the packet, also when the end of the packet
lies further on than the window of the cursor. -/
theorem decodeMod_follows {pd' : Payload} (h : Payload.Moved 0 0 pd pd') (mod : Mod) :
    Follows (fun r r' => r'.1 = r.1 ∧ Step.Moved 0 0 r.2 r'.2) (decodeMod cfg tv m st e pd mod)
      (decodeMod cfg tv m' st e pd' mod) := by
  have hmod : Follows Eq (decodeMod cfg tv m st e pd mod) (decodeMod cfg tv m' st e pd mod) := by
    cases mod with
    | arp => exact (arpDecode_follows hm).bind_eq fun _ => follows_refl _
    | dhcp => exact (dhcpDecode_follows hm).bind_eq fun _ => follows_refl _
    | dns => exact (dns.decode_follows hm).bind_eq fun _ => follows_refl _
    | dot1q => exact (dot1qDecode_follows hm).bind_eq fun _ => follows_refl _
    | ethernet => exact (ethernetDecode_follows hm).bind_eq fun _ => follows_refl _
    | icmp => exact (icmpDecode_follows hm).bind_eq fun _ => follows_refl _
    | ipv4 => exact (ipv4Decode_follows hm).bind_eq fun _ => follows_refl _
    | ipv6 => exact (ipv6Decode_follows hm).bind_eq fun _ => follows_refl _
    | mdns => exact (mdns.decode_follows hm).bind_eq fun _ => follows_refl _
    | pppoe => exact (pppoeDecode_follows hm).bind_eq fun _ => follows_refl _
    | tcp => exact tcpDecode_follows hm
    | udp => exact (udpDecode_follows hm).bind_eq fun _ => follows_refl _
  exact hmod.alike (decodeMod_alike (fun _ _ => rfl) h mod)

end Tcp

/-! ## Values -/

section Cells

variable {c : Cell} (hm : Mem.Sub m m')
include hm

theorem Cell.bytes_follows : Follows Eq (c.bytes m) (c.bytes m') := by
  unfold Cell.bytes
  cases c.ptr with
  | pkt off => exact hm.bytes off c.len
  | _ => exact follows_refl _

theorem Cell.repr_follows : Follows Eq (c.repr m) (c.repr m') :=
  .ite (fun _ => (Cell.bytes_follows hm).bind_eq fun _ => follows_refl _) fun _ => follows_refl _

theorem Cell.raw_follows : Follows Eq (c.raw m) (c.raw m') :=
  .ite (fun _ => (Cell.bytes_follows hm).bind_eq fun _ => follows_refl _) fun _ => follows_refl _

theorem Cell.ip4_follows : Follows Eq (c.ip4 m) (c.ip4 m') :=
  .ite (fun _ => (Cell.bytes_follows hm).bind_eq fun _ => follows_refl _) fun _ => follows_refl _

theorem Cell.ip6_follows (ntop6 : List UInt8 → Text) :
    Follows Eq (c.ip6 ntop6 m) (c.ip6 ntop6 m') :=
  .ite (fun _ => (Cell.bytes_follows hm).bind_eq fun _ => follows_refl _) fun _ => follows_refl _

theorem Cell.mac_follows : Follows Eq (c.mac m) (c.mac m') :=
  .ite (fun _ => (Cell.bytes_follows hm).bind_eq fun _ => follows_refl _) fun _ => follows_refl _

theorem Cell.uint64?_follows : Follows Eq (c.uint64? m) (c.uint64? m') :=
  .ite (fun _ => (Cell.bytes_follows hm).bind_eq fun _ => follows_refl _) fun _ => follows_refl _

theorem Cell.uint64_follows : Follows Eq (c.uint64 m) (c.uint64 m') :=
  (Cell.uint64?_follows hm).bind_eq fun _ => follows_refl _

theorem Cell.uint_follows : Follows Eq (c.uint m) (c.uint m') :=
  (Cell.uint64_follows hm).bind_eq fun _ => follows_refl _

theorem nsNameRepr_follows (base totalLen : Nat) :
    Follows Eq (nsNameRepr m c base totalLen) (nsNameRepr m' c base totalLen) :=
  (follows_refl _).bind_eq fun _ => (parseLabel_follows hm _ _ _ _ _).bind_eq fun _ =>
    follows_refl _

theorem txtLoop_follows (start len : Nat) : ∀ (fuel p : Nat) (os : Text),
    Follows Eq (txtLoop m start len fuel p os) (txtLoop m' start len fuel p os)
  | 0, _, _ => follows_error
  | fuel + 1, p, os => by
    unfold txtLoop
    refine .ite (fun _ => follows_refl _) fun _ => (hm.u8 _).bind_eq fun b => ?_
    refine .ite (fun _ => follows_refl _) fun _ => (hm.bytes _ _).bind_eq fun bs => ?_
    exact txtLoop_follows start len fuel _ _

theorem nsDataRepr_follows (ntop6 : List UInt8 → Text) (type base totalLen : Nat) :
    Follows Eq (nsDataRepr ntop6 m c type base totalLen)
      (nsDataRepr ntop6 m' c type base totalLen) := by
  unfold nsDataRepr
  refine .ite (fun _ => Cell.ip4_follows hm) fun _ => ?_
  refine .ite (fun _ => Cell.ip6_follows hm ntop6) fun _ => ?_
  refine .ite (fun _ => ?_) fun _ => .ite (fun _ => ?_) fun _ => ?_
  · exact (follows_refl _).bind_eq fun _ => (parseLabel_follows hm _ _ _ _ _).bind_eq fun _ =>
      follows_refl _
  · exact (follows_refl _).bind_eq fun _ => txtLoop_follows hm _ _ _ _ _
  · exact (follows_refl _).bind_eq fun _ => (hm.bytes _ _).bind_eq fun _ => follows_refl _

/-- An object that holds no others. -/
theorem Obj.leafRepr_follows (ntop6 : List UInt8 → Text) (o : Obj) :
    Follows Eq (o.leafRepr ntop6 m) (o.leafRepr ntop6 m') := by
  obtain ⟨c, ext⟩ := o
  unfold Obj.leafRepr
  cases ext with
  | ipv4Addr => exact Cell.ip4_follows hm
  | portNumber => exact (Cell.uint64?_follows hm).bind_eq fun _ => follows_refl _
  | nsType => exact (Cell.uint_follows hm).bind_eq fun _ => follows_refl _
  | icmpType => exact (Cell.uint_follows hm).bind_eq fun _ => follows_refl _
  | icmpCode type =>
    refine .ite (fun _ => ?_) fun _ => follows_refl _
    exact (Cell.uint_follows hm).bind_eq fun _ => follows_refl _
  | nsName base totalLen => exact nsNameRepr_follows hm base totalLen
  | nsData type base totalLen =>
    exact .ite (fun _ => nsDataRepr_follows hm ntop6 type base totalLen) fun _ => follows_refl _
  | _ => exact Cell.repr_follows hm

end Cells

theorem follows_foldlM {α β : Type} {f g : β → α → Except Fault β}
    (h : ∀ b a, Follows Eq (f b a) (g b a)) (l : List α) (b : β) :
    Follows Eq (l.foldlM f b) (l.foldlM g b) := by
  induction l generalizing b with
  | nil => exact follows_refl _
  | cons a l ih =>
    rw [List.foldlM_cons, List.foldlM_cons]
    exact (h b a).bind_eq fun b' => ih b'

/-- What a user sees, with more bytes behind the packet: the same, where it is anything. -/
structure Look.Sub (l l' : Look) : Prop where
  active : l'.active = l.active
  repr : Follows Eq l.repr l'.repr
  raw : Follows Eq l.raw l'.raw
  uint64 : Follows Eq l.uint64 l'.uint64
  ip4 : Follows Eq l.ip4 l'.ip4
  ip6 : Follows Eq l.ip6 l'.ip6
  mac : Follows Eq l.mac l'.mac
  size : l'.size = l.size

section Observe

variable {q : Property} {ntop6 : List UInt8 → Text} (hm : Mem.Sub m m')
include hm

/-- Arrays and maps, by the depth. -/
theorem Property.repr_follows (n : Nat) (r : Ref) :
    Follows Eq (q.repr ntop6 m n r) (q.repr ntop6 m' n r) := by
  induction n generalizing r with
  | zero => cases r <;> exact follows_error
  | succ n ih =>
    cases r with
    | null => exact follows_error
    | none => exact follows_refl _
    | slot h i =>
      simp only [Property.repr]
      cases q.slot? h i with
      | none => exact follows_refl _
      | some c => exact Cell.repr_follows hm
    | obj i =>
      have hfield : ∀ (key : String) (r : Ref), Follows Eq
          (do return ['"'] ++ key.toList ++ ['"', ':', ' '] ++ (← q.repr ntop6 m n r) ++ [',', ' '])
          (do return ['"'] ++ key.toList ++ ['"', ':', ' '] ++ (← q.repr ntop6 m' n r)
            ++ [',', ' ']) :=
        fun key r => (ih r).bind_eq fun _ => follows_refl _
      simp only [Property.repr]
      cases q.obj? i with
      | none => exact follows_refl _
      | some o =>
        have hleaf := Obj.leafRepr_follows hm ntop6 o
        obtain ⟨c, ext⟩ := o
        cases ext with
        | array items =>
          refine (follows_foldlM (fun os i => ?_) items []).bind_eq fun _ => follows_refl _
          exact (ih (.obj i)).bind_eq fun _ => follows_refl _
        | nsRecord name type data =>
          exact (hfield "data" data).bind_eq fun _ => (hfield "name" name).bind_eq fun _ =>
            (hfield "type" type).bind_eq fun _ => follows_refl _
        | option type length data =>
          exact (hfield "data" data).bind_eq fun _ => (hfield "length" length).bind_eq fun _ =>
            (hfield "type" type).bind_eq fun _ => follows_refl _
        | _ => exact hleaf

/-- The function of a minor parameter computes the same. -/
def Defer.Follow (m m' : Mem) (f : Defer) : Prop :=
  ∀ ptr c, Follows Eq (f.run m ptr c) (f.run m' ptr c)

theorem Defer.follow_u8 (off : Nat) (g : UInt8 → List UInt8) :
    Defer.Follow m m' (.calc fun m ptr => return g (← m.u8 (ptr + off))) :=
  fun _ _ => ((hm.u8 _).bind_eq fun _ => follows_refl _).bind_eq fun _ => follows_refl _

theorem Defer.follow_u32 (g : Nat → List UInt8) :
    Defer.Follow m m' (.calc fun m ptr => return g (← m.u32 ptr)) :=
  fun _ _ => ((hm.u32 _).bind_eq fun _ => follows_refl _).bind_eq fun _ => follows_refl _

/-- **Every minor parameter** is computed from its header. -/
theorem Param.minors_follow (d : Param) : ∀ x ∈ d.minors, x.2.Follow m m' := by
  have hfield : ∀ off len, (Defer.field off len).Follow m m' := fun _ _ _ _ => follows_refl _
  cases d with
  | ipv4Hdr =>
    have hlen := Defer.follow_u8 hm 0 fun b => [(b &&& 0x0f) <<< 2]
    have hver := Defer.follow_u8 hm 0 fun b => [b >>> 4]
    simp only [Param.minors, List.forall_mem_cons]
    and_intros
    all_goals first | exact hfield _ _ | exact hlen | exact hver | simp
  | ipv6Hdr =>
    simp only [Param.minors, List.forall_mem_cons]
    and_intros
    all_goals first | exact hfield _ _ | exact Defer.follow_u32 hm fun n => hostU32 _ | simp
  | tcpHdr =>
    have hflag : ∀ flag, (flagMinor flag).Follow m m' := fun flag =>
      Defer.follow_u8 hm 13 fun b => [if 0 < b &&& flag then 1 else 0]
    have hoff := Defer.follow_u8 hm 12 fun b => [(b &&& 0xf0) >>> 2]
    simp only [Param.minors, List.forall_mem_cons]
    and_intros
    all_goals first | exact hfield _ _ | exact hflag _ | exact hoff | simp
  | udpHdr =>
    simp only [Param.minors, List.forall_mem_cons]
    and_intros
    all_goals first | exact hfield _ _ | simp
  | _ => exact List.forall_mem_nil _

theorem Property.value_follows (key : Key) : Follows Eq (q.value m key) (q.value m' key) := by
  cases key with
  | param d => exact follows_refl _
  | minor d i =>
    refine .ite (fun _ => ?_) fun _ => follows_refl _
    unfold Property.valueMinor
    split
    · dsimp only
      split
      · exact follows_refl _
      · refine (follows_refl _).bind_eq fun ptr => ?_
        have hrun := d.minors_follow hm _ (d.minors.get_mem i)
        exact (hrun ptr _).bind_eq fun slot => follows_refl _
    · exact follows_refl _

theorem Cell.look_sub (c : Cell) {repr repr' : Except Fault Text} (hr : Follows Eq repr repr')
    (size : Nat) : Look.Sub (c.look ntop6 m repr size) (c.look ntop6 m' repr' size) :=
  ⟨rfl, hr, Cell.raw_follows hm, Cell.uint64_follows hm, Cell.ip4_follows hm,
    Cell.ip6_follows hm ntop6, Cell.mac_follows hm, rfl⟩

theorem Property.look_sub (r : Ref) :
    Option.Rel Look.Sub (q.look ntop6 m r) (q.look ntop6 m' r) := by
  cases r with
  | null => exact .none
  | none => exact .some (Cell.look_sub hm _ (follows_refl _) 0)
  | slot h i =>
    simp only [Property.look]
    cases q.slot? h i with
    | none => exact .none
    | some c => exact .some (Cell.look_sub hm c (Cell.repr_follows hm) 0)
  | obj i =>
    simp only [Property.look]
    cases q.obj? i with
    | none => exact .none
    | some o => exact .some (Cell.look_sub hm _ (Property.repr_follows hm 3 _) _)

/-- **What a user sees of a packet is seen as well with more bytes behind it.** -/
theorem Property.observe_follows (key : Key) (path : List Access) :
    Follows (Option.Rel Look.Sub) (q.observe ntop6 m key path) (q.observe ntop6 m' key path) := by
  refine (Property.value_follows hm key).bind_eq ?_
  rintro ⟨q', place⟩
  have hlook : ∀ x : Option Ref,
      Option.Rel Look.Sub (x.bind (q'.look ntop6 m)) (x.bind (q'.look ntop6 m')) := by
    intro x
    cases x with
    | none => exact .none
    | some r => exact Property.look_sub hm r
  cases place with
  | null =>
    cases path with
    | nil => exact follows_pure (.some (Cell.look_sub hm _ (follows_refl _) 0))
    | cons a path => exact follows_pure .none
  | obj h => exact (follows_refl (q'.walk (.obj h) path)).bind_eq fun x => follows_pure (hlook x)
  | slot h i => exact (follows_refl (q'.walk (.slot h i) path)).bind_eq fun x => follows_pure (hlook x)

end Observe

end PacketMachine.Decode
