import PacketMachine.Decode.Header

/-!
# Decoding undoes encoding

A frame of Ethernet, possibly PPPoE, IPv4 and TCP or UDP is written out in network byte order
(`Frame.bytes`) and read back by the names of the parameters (`Frame.fields`). The encoder is no part of
the repository: it states what the formats are.

* The options, the segment, the payload and the padding are any byte strings, and fields that no length
  depends on are arbitrary. The padding lies behind the total length of IPv4.
* A value of no bytes, such as the options of a header without any, is absent.

Result: **`decode_reads_back`**.
-/

namespace PacketMachine.Decode

open PacketMachine.Lib

variable {τ : Type}

/-! ## Frames -/

/-- An IPv4 header with its options. `words` is its length in words of four bytes. -/
structure Ipv4Header where
  ver : Fin 16
  words : Fin 16
  tos : UInt8
  id : UInt16
  offset : UInt16
  ttl : UInt8
  chksum : UInt16
  src : Vector UInt8 4
  dst : Vector UInt8 4
  opt : List UInt8
  words_ge : 5 ≤ words.val
  opt_length : opt.length = 4 * words.val - 20

/-- A TCP header with its options. `words` is the data offset. -/
structure TcpHeader where
  srcPort : UInt16
  dstPort : UInt16
  seq : UInt32
  ack : UInt32
  words : Fin 16
  reserved : Fin 16
  flags : UInt8
  window : UInt16
  chksum : UInt16
  urgptr : UInt16
  opt : List UInt8
  words_ge : 5 ≤ words.val
  opt_length : opt.length = 4 * words.val - 20

structure UdpHeader where
  srcPort : UInt16
  dstPort : UInt16
  length : UInt16
  chksum : UInt16

/-- What is between the Ethernet header and IPv4. -/
inductive Link where
  | direct
  /-- A PPPoE header of six bytes and the protocol 0x0021. -/
  | pppoe (hdr : Vector UInt8 6)

/-- What IPv4 carries. -/
inductive Transport where
  | tcp (hdr : TcpHeader) (segment : List UInt8)
  | udp (hdr : UdpHeader) (payload : List UInt8)

def Link.type : Link → UInt16
  | direct => 0x0800
  | pppoe _ => 0x8864

def Link.bytes : Link → List UInt8
  | direct => []
  | pppoe hdr => hdr.toList ++ netU16 0x0021

def TcpHeader.bytes (t : TcpHeader) : List UInt8 :=
  netU16 t.srcPort ++ (netU16 t.dstPort ++ (netU32 t.seq ++ (netU32 t.ack ++
    ([UInt8.ofNat (16 * t.words + t.reserved)] ++ ([t.flags] ++ (netU16 t.window ++
      (netU16 t.chksum ++ (netU16 t.urgptr ++ t.opt))))))))

def UdpHeader.bytes (u : UdpHeader) : List UInt8 :=
  netU16 u.srcPort ++ (netU16 u.dstPort ++ (netU16 u.length ++ netU16 u.chksum))

def Transport.proto : Transport → UInt8
  | tcp _ _ => 6
  | udp _ _ => 17

def Transport.bytes : Transport → List UInt8
  | tcp hdr segment => hdr.bytes ++ segment
  | udp hdr payload => hdr.bytes ++ payload

/-- The header in front of `len` bytes of a protocol. -/
def Ipv4Header.bytes (ip : Ipv4Header) (proto : UInt8) (len : Nat) : List UInt8 :=
  [UInt8.ofNat (16 * ip.ver + ip.words)] ++ ([ip.tos] ++ (netU16 (UInt16.ofNat (4 * ip.words + len)) ++
    (netU16 ip.id ++ (netU16 ip.offset ++ ([ip.ttl] ++ ([proto] ++ (netU16 ip.chksum ++
      (ip.src.toList ++ (ip.dst.toList ++ ip.opt)))))))))

/-- A frame. The datagram is no longer than its length field can say. -/
structure Frame where
  dst : Vector UInt8 6
  src : Vector UInt8 6
  link : Link
  ip : Ipv4Header
  inner : Transport
  pad : List UInt8
  fits : 4 * ip.words.val + inner.bytes.length ≤ 65535

def Frame.bytes (f : Frame) : List UInt8 :=
  f.dst.toList ++ (f.src.toList ++ (netU16 f.link.type ++ (f.link.bytes ++
    (f.ip.bytes f.inner.proto f.inner.bytes.length ++ (f.inner.bytes ++ f.pad)))))

/-! ## What is to be read -/

/-- What a user reads: the bytes, or the number of `uint64`. -/
inductive Field where
  | raw (bytes : List UInt8)
  | num (n : Nat)

/-- A value shows this. One of no bytes is `Property::null_`. -/
def Field.Reads (m : Mem) (c : Cell) : Field → Prop
  | raw bytes => c.content m = .ok (if bytes = [] then none else some bytes)
  | num n => c.active = true ∧ c.uint64 m = .ok n

/-- The value that `value(name)` refers to. -/
def Property.fetch (q : Property) (m : Mem) (name : String) : Except Fault Cell := do
  match ← q.valueName m name with
  | (_, .null) => return {}
  | (q, .obj h) => return ((q.obj? h).map Obj.cell).getD {}
  | (q, .slot h i) => return (q.slot? h i).getD {}

/-- The flag with this number. -/
def TcpHeader.flag (t : TcpHeader) (i : Nat) : Field := .num (t.flags.toNat.testBit i).toNat

def TcpHeader.fields (t : TcpHeader) (segment : List UInt8) : List (String × Field) :=
  [("TCP.src_port", .num t.srcPort.toNat), ("TCP.dst_port", .num t.dstPort.toNat),
    ("TCP.optdata", .raw t.opt), ("TCP.segment", .raw segment),
    ("TCP.hdr.seq", .num t.seq.toNat), ("TCP.hdr.ack", .num t.ack.toNat),
    ("TCP.hdr.offset", .num (4 * t.words)), ("TCP.hdr.flags", .num t.flags.toNat),
    ("TCP.hdr.window", .num t.window.toNat), ("TCP.hdr.chksum", .num t.chksum.toNat),
    ("TCP.hdr.urgptr", .num t.urgptr.toNat),
    ("TCP.hdr.flag_fin", t.flag 0), ("TCP.hdr.flag_syn", t.flag 1), ("TCP.hdr.flag_rst", t.flag 2),
    ("TCP.hdr.flag_push", t.flag 3), ("TCP.hdr.flag_ack", t.flag 4), ("TCP.hdr.flag_urg", t.flag 5),
    ("TCP.hdr.flag_ece", t.flag 6), ("TCP.hdr.flag_cwr", t.flag 7)]

def UdpHeader.fields (u : UdpHeader) : List (String × Field) :=
  [("UDP.src_port", .num u.srcPort.toNat), ("UDP.dst_port", .num u.dstPort.toNat),
    ("UDP.hdr.length", .num u.length.toNat), ("UDP.hdr.chksum", .num u.chksum.toNat)]

def Transport.fields : Transport → List (String × Field)
  | tcp hdr segment => hdr.fields segment
  | udp hdr _ => hdr.fields

def Frame.ipFields (f : Frame) : List (String × Field) :=
  [("IPv4.src", .raw f.ip.src.toList), ("IPv4.dst", .raw f.ip.dst.toList), ("IPv4.opt", .raw f.ip.opt),
    ("IPv4.data", .raw f.inner.bytes), ("IPv4.hdr.ver", .num f.ip.ver),
    ("IPv4.hdr.hdr_len", .num (4 * f.ip.words)), ("IPv4.hdr.tos", .num f.ip.tos.toNat),
    ("IPv4.hdr.total_len", .num (4 * f.ip.words + f.inner.bytes.length)),
    ("IPv4.hdr.id", .num f.ip.id.toNat), ("IPv4.hdr.offset", .num f.ip.offset.toNat),
    ("IPv4.hdr.ttl", .num f.ip.ttl.toNat), ("IPv4.hdr.proto", .num f.inner.proto.toNat),
    ("IPv4.hdr.chksum", .num f.ip.chksum.toNat)]

/-- **The values that a frame was built from**, by the names of the parameters. -/
def Frame.fields (f : Frame) : List (String × Field) :=
  [("Ethernet.dst", .raw f.dst.toList), ("Ethernet.src", .raw f.src.toList),
    ("Ethernet.type", .num f.link.type.toNat)] ++ f.ipFields ++ f.inner.fields

/-! ## The names -/

theorem mem_params (d : Param) : d ∈ params := List.mem_of_getElem? (params_id d)

/-- A parameter is found by its name. -/
theorem lookupParamKey_name (d : Param) : lookupParamKey d.name = some (.param d) := by
  have hall : ∀ d ∈ params, lookupParamKey d.name = some (.param d) := by decide +kernel
  exact hall d (mem_params d)

/-- A minor parameter is found by its name. -/
theorem lookupParamKey_minor (d : Param) (i : Fin d.minors.length) :
    lookupParamKey (d.name ++ "." ++ (d.minors.get i).1) = some (.minor d i) := by
  have hall : ∀ d ∈ params, ∀ i : Fin d.minors.length,
      lookupParamKey (d.name ++ "." ++ (d.minors.get i).1) = some (.minor d i) := by decide +kernel
  exact hall d (mem_params d) i

/-! ## Reading one field -/

section Fetch

variable {q : Property} {m : Mem} {ops : List Op} {d : Param} {name : String} {f : Field} {c c' : Cell}
  {off : Nat}

theorem Field.Reads.same (hf : f.Reads m c) (h : c.Same c') : f.Reads m c' := by
  cases f with
  | raw bytes => exact (h.content_eq m).symm.trans hf
  | num n =>
    refine ⟨h.active ▸ hf.1, ?_⟩
    unfold Cell.uint64
    rw [← h.uint64?_eq m]
    exact hf.2

/-- Within the vectors a name is read by its key. -/
theorem fetch_shows {key : Key} (hw : q.WF) (hkey : lookupParamKey name = some key)
    (hr : ∃ d ∈ retained ops, key.pool.id ≤ d.id) (h : (q.init.exec ops).Shows m key c)
    (hf : f.Reads m c) : Returns ((q.init.exec ops).fetch m name) (f.Reads m) := by
  have hlt := (lt_length_exec hw.init.sized ops key.pool.id).mpr (.inr hr)
  have hfetch : (q.init.exec ops).fetch m name = (q.init.exec ops).read m key := by
    rw [Property.fetch, Property.valueName, hkey]
    dsimp only
    rw [valueKey_eq (hw.init.exec ops).sized hlt]
    rfl
  rw [hfetch]
  exact h.mono fun c' hc' => hf.same hc'

theorem mem_retained {g : Cell → Cell} {gs : List (Cell → Cell)} (h : setCalls d ops = g :: gs) :
    d ∈ retained ops := by
  by_contra hd
  rw [setCalls_eq_nil hd] at h
  cases h

/-- A call for another parameter, if it is made. -/
theorem setCalls_optional {d' : Param} {hd : d'.kind.plain = true} (h : d ≠ d') (bs : List UInt8)
    (ptr : Ptr) (len : Nat) :
    setCalls d (if bs = [] then [] else [.set d' ptr len .big hd]) = [] := by
  refine setCalls_eq_nil fun hmem => h ?_
  split at hmem
  · cases hmem
  · exact List.mem_singleton.mp hmem

theorem fetch_param {len : Nat} (hw : q.WF) (hkey : lookupParamKey name = some (.param d))
    (hd : d.direct = true) (h : setCalls d ops = [(·.set (.pkt off) len)])
    (hf : f.Reads m (({} : Cell).set (.pkt off) len)) :
    Returns ((q.init.exec ops).fetch m name) (f.Reads m) :=
  fetch_shows hw hkey ⟨d, mem_retained h, Nat.le_refl _⟩
    (shows_call hd hw.init (Property.count_init d) h fun c => Cell.same_set _ _ _ (by simp)) hf

theorem fetch_minor {len : Nat} {i : Fin d.minors.length} {slot : Cell} (hw : q.WF)
    (h : setCalls d ops = [(·.set (.pkt off) len)]) (hkey : lookupParamKey name = some (.minor d i))
    (hrun : (d.minors.get i).2.run m off {} = .ok slot) (hf : f.Reads m slot) :
    Returns ((q.init.exec ops).fetch m name) (f.Reads m) :=
  fetch_shows hw hkey ⟨d, mem_retained h, Nat.le_refl _⟩
    (shows_minor hw.init (Property.count_init d) h (fun _ => rfl) i hrun) hf

/-- A parameter that is not filled, when one with a larger id is. -/
theorem fetch_absent (hw : q.WF) (hkey : lookupParamKey name = some (.param d)) (hd : d.direct = true)
    (h : setCalls d ops = []) (hr : ∃ d' ∈ retained ops, d.id ≤ d'.id) :
    Returns ((q.init.exec ops).fetch m name) ((Field.raw []).Reads m) :=
  fetch_shows hw hkey hr (shows_absent hd hw.init (Property.count_init d) h) rfl

theorem reads_raw {bs : List UInt8} (h : m.Holds off bs) (hne : bs ≠ []) :
    (Field.raw bs).Reads m (({} : Cell).set (.pkt off) bs.length) := by
  show (do return some (← m.bytes off bs.length)) = _
  rw [h.bytes, if_neg hne]
  rfl

theorem reads_vector {n : Nat} (a : Vector UInt8 n) (h : m.Holds off a.toList) (hn : 0 < n) :
    (Field.raw a.toList).Reads m (({} : Cell).set (.pkt off) n) := by
  have hr := reads_raw h (List.ne_nil_of_length_pos (by simpa using hn))
  rwa [Vector.length_toList] at hr

theorem reads_num {bs : List UInt8} {n : Nat} (h : m.Holds off bs) (hn : numberOf .big bs = n)
    (hlen : bs.length = 1 ∨ bs.length = 2 ∨ bs.length = 4) :
    (Field.num n).Reads m (({} : Cell).set (.pkt off) bs.length) := by
  refine ⟨rfl, ?_⟩
  have huint : (({} : Cell).set (.pkt off) bs.length).isUint = true := by
    rcases hlen with h | h | h <;> simp [Cell.isUint, Cell.set, h]
  have hbytes : (({} : Cell).set (.pkt off) bs.length).bytes m = .ok bs := h.bytes
  rw [Cell.uint64, Cell.uint64?, if_pos huint, hbytes, ← hn]
  rfl

theorem reads_u8 {b : UInt8} (h : m.Holds off [b]) :
    (Field.num b.toNat).Reads m (({} : Cell).set (.pkt off) 1) :=
  reads_num h (by simp [numberOf]) (.inl rfl)

theorem reads_u16 {n : UInt16} (h : m.Holds off (netU16 n)) :
    (Field.num n.toNat).Reads m (({} : Cell).set (.pkt off) 2) :=
  reads_num h (numberOf_u16 n) (.inr (.inl rfl))

theorem reads_u32 {n : UInt32} (h : m.Holds off (netU32 n)) :
    (Field.num n.toNat).Reads m (({} : Cell).set (.pkt off) 4) :=
  reads_num h (numberOf_u32 n) (.inr (.inr rfl))

/-- A minor parameter that is computed from a byte of the header. -/
theorem Mem.Holds.calc {b : UInt8} (h : m.Holds off [b]) (g : UInt8 → UInt8) :
    (Defer.calc fun m ptr => return [g (← m.u8 ptr)]).run m off {} = .ok (({} : Cell).cpy [g b]) := by
  rw [Defer.run, Mem.u8, h.1]
  rfl

theorem reads_cpy {b : UInt8} {n : Nat} (h : b.toNat = n) :
    (Field.num n).Reads m (({} : Cell).cpy [b]) :=
  ⟨rfl, congrArg Except.ok (by simp [numberOf, Cell.cpy, h])⟩

end Fetch

/-! ## The way through a frame -/

/-- Where IPv4 starts. -/
def Frame.ipAt (f : Frame) : Nat := 14 + f.link.bytes.length

/-- Where the transport header starts. -/
def Frame.innerAt (f : Frame) : Nat := f.ipAt + 4 * f.ip.words

/-- The cursor of `IPv4`. -/
def Frame.ipPd (f : Frame) (p : Packet) : Payload :=
  ⟨p.addr, f.ipAt, p.data.length, p.data.length - f.ipAt⟩

/-- The cursor of `TCP` or `UDP`, without the padding. -/
def Frame.innerPd (f : Frame) (p : Packet) : Payload :=
  ⟨p.addr, f.innerAt, p.data.length, f.inner.bytes.length⟩

section Layout

theorem ipv4HdrLen_first : ∀ ver words : Fin 16, ipv4HdrLen (UInt8.ofNat (16 * ver + words)) = 4 * words := by
  decide +kernel

theorem first_ver : ∀ ver words : Fin 16, (UInt8.ofNat (16 * ver + words) >>> 4).toNat = ver := by
  decide +kernel

theorem offset_words : ∀ words reserved : Fin 16,
    ((UInt8.ofNat (16 * words + reserved) &&& 0xf0) >>> 2).toNat = 4 * words := by
  decide +kernel

theorem tcpOptLen_offset : ∀ words reserved : Fin 16, 5 ≤ words.val →
    tcpOptLen (UInt8.ofNat (16 * words + reserved)) = 4 * words - 20 := by
  decide +kernel

variable {f : Frame} {p : Packet}

theorem Ipv4Header.length_bytes (ip : Ipv4Header) (proto : UInt8) (len : Nat) :
    (ip.bytes proto len).length = 4 * ip.words := by
  have := ip.words_ge
  have := ip.opt_length
  simp only [Ipv4Header.bytes, List.length_append, length_netU16, Vector.length_toList,
    List.length_cons, List.length_nil]
  omega

theorem Frame.length_eq (hp : p.data = f.bytes) :
    p.data.length = f.innerAt + f.inner.bytes.length + f.pad.length := by
  simp only [hp, Frame.bytes, List.length_append, length_netU16, Vector.length_toList,
    Ipv4Header.length_bytes, Frame.innerAt, Frame.ipAt]
  omega

/-- Where the parts of a frame lie. -/
theorem Frame.holds (hp : p.data = f.bytes) :
    p.mem.Holds 0 f.dst.toList ∧ p.mem.Holds 6 f.src.toList ∧ p.mem.Holds 12 (netU16 f.link.type) ∧
      p.mem.Holds 14 f.link.bytes ∧
      p.mem.Holds f.ipAt (f.ip.bytes f.inner.proto f.inner.bytes.length) ∧
      p.mem.Holds f.innerAt f.inner.bytes := by
  have h := p.holds
  simp only [hp, Frame.bytes, Mem.holds_append, length_netU16, Vector.length_toList, Nat.reduceAdd,
    Ipv4Header.length_bytes] at h
  obtain ⟨h1, h2, h3, h4, h5, h6, -⟩ := h
  exact ⟨h1, h2, h3, h4, h5, h6⟩

/-- Where the fields of an IPv4 header lie. -/
theorem Ipv4Header.holds {m : Mem} {i len : Nat} {ip : Ipv4Header} {proto : UInt8}
    (h : m.Holds i (ip.bytes proto len)) :
    m.Holds i [UInt8.ofNat (16 * ip.ver + ip.words)] ∧ m.Holds (i + 1) [ip.tos] ∧
      m.Holds (i + 2) (netU16 (UInt16.ofNat (4 * ip.words + len))) ∧ m.Holds (i + 4) (netU16 ip.id) ∧
      m.Holds (i + 6) (netU16 ip.offset) ∧ m.Holds (i + 8) [ip.ttl] ∧ m.Holds (i + 9) [proto] ∧
      m.Holds (i + 10) (netU16 ip.chksum) ∧ m.Holds (i + 12) ip.src.toList ∧
      m.Holds (i + 16) ip.dst.toList ∧ m.Holds (i + 20) ip.opt := by
  simpa only [Ipv4Header.bytes, Mem.holds_append, length_netU16, Vector.length_toList, List.length_cons,
    List.length_nil, Nat.add_assoc, Nat.reduceAdd] using h

theorem TcpHeader.holds {m : Mem} {i : Nat} {t : TcpHeader} {segment : List UInt8}
    (h : m.Holds i (t.bytes ++ segment)) :
    m.Holds i (netU16 t.srcPort) ∧ m.Holds (i + 2) (netU16 t.dstPort) ∧ m.Holds (i + 4) (netU32 t.seq) ∧
      m.Holds (i + 8) (netU32 t.ack) ∧ m.Holds (i + 12) [UInt8.ofNat (16 * t.words + t.reserved)] ∧
      m.Holds (i + 13) [t.flags] ∧ m.Holds (i + 14) (netU16 t.window) ∧
      m.Holds (i + 16) (netU16 t.chksum) ∧ m.Holds (i + 18) (netU16 t.urgptr) ∧
      m.Holds (i + 20) t.opt ∧ m.Holds (i + (20 + t.opt.length)) segment := by
  simpa only [TcpHeader.bytes, List.append_assoc, Mem.holds_append, length_netU16, length_netU32,
    List.length_cons, List.length_nil, Nat.add_assoc, Nat.reduceAdd] using h

theorem UdpHeader.holds {m : Mem} {i : Nat} {u : UdpHeader} {payload : List UInt8}
    (h : m.Holds i (u.bytes ++ payload)) :
    m.Holds i (netU16 u.srcPort) ∧ m.Holds (i + 2) (netU16 u.dstPort) ∧ m.Holds (i + 4) (netU16 u.length) ∧
      m.Holds (i + 6) (netU16 u.chksum) := by
  simp only [UdpHeader.bytes, List.append_assoc, Mem.holds_append, length_netU16, Nat.add_assoc,
    Nat.reduceAdd] at h
  exact ⟨h.1, h.2.1, h.2.2.1, h.2.2.2.1⟩

theorem Frame.total_eq (f : Frame) : (UInt16.ofNat (4 * f.ip.words + f.inner.bytes.length)).toNat
    = 4 * f.ip.words + f.inner.bytes.length := by
  have := f.fits
  rw [UInt16.toNat_ofNat']
  exact Nat.mod_eq_of_lt (by omega)

/-- The first byte and the total length of the IPv4 header. -/
theorem Frame.ipv4_lengths (hp : p.data = f.bytes) :
    ipv4HdrLen (p.mem.byte f.ipAt) = 4 * f.ip.words ∧
      p.mem.word (f.ipAt + 2) = 4 * f.ip.words + f.inner.bytes.length ∧
      p.mem.byte (f.ipAt + 9) = f.inner.proto := by
  obtain ⟨h0, -, h2, -, -, -, h9, -⟩ := Ipv4Header.holds (Frame.holds hp).2.2.2.2.1
  exact ⟨h0.byte ▸ ipv4HdrLen_first _ _, h2.word.trans f.total_eq, h9.byte⟩

end Layout

section Way

variable {f : Frame} {p : Packet} {cfg : TcpConfig τ} {vs : List Visit}

theorem Frame.visits_ipv4 (hp : p.data = f.bytes) (hvs : Visited cfg p vs) :
    ∃ v ∈ vs, v.mod = .ipv4 ∧ v.pd = f.ipPd p := by
  have hlen := Frame.length_eq hp
  obtain ⟨-, -, htype, hlink, -, -⟩ := Frame.holds hp
  unfold Frame.innerAt at hlen
  unfold Frame.ipPd
  unfold Frame.ipAt at hlen ⊢
  obtain ⟨v, hv, hmod, hpd⟩ := hvs.first
  have hnext := hvs.next v hv
  rw [hmod, hpd] at hnext
  have hword : p.mem.word ((Payload.reset p).ptr + 12) = f.link.type.toNat := htype.word
  have h14 : 14 ≤ (Payload.reset p).length := by
    simp only [Payload.reset]
    omega
  have heth : nextOf p.mem .ethernet (Payload.reset p)
      = (ethernetNext f.link.type.toNat).map (·, (Payload.reset p).skip 14) := by
    rw [← hword]
    exact if_pos h14
  cases hl : f.link with
  | direct =>
    rw [hl] at heth
    exact hnext .ipv4 _ heth
  | pppoe hdr =>
    rw [hl] at heth hlink hlen
    obtain ⟨u, hu, humod, hupd⟩ := hnext .pppoe _ heth
    have hnext' := hvs.next u hu
    rw [humod, hupd] at hnext'
    have hproto : p.mem.word (14 + 6) = 0x21 := by
      rw [Link.bytes, Mem.holds_append, Vector.length_toList] at hlink
      exact hlink.2.word
    have h8 : 8 ≤ ((Payload.reset p).skip 14).length := by
      simp only [Payload.reset, Payload.skip]
      simp only [Link.bytes, List.length_append, Vector.length_toList, length_netU16] at hlen
      omega
    refine hnext' .ipv4 _ ?_
    have hskip : ((Payload.reset p).skip 14).skip 8 = ⟨p.addr, 14 + (Link.pppoe hdr).bytes.length,
        p.data.length, p.data.length - (14 + (Link.pppoe hdr).bytes.length)⟩ := by
      simp [Payload.skip, Payload.reset, Link.bytes, length_netU16, Nat.sub_sub]
    simp only [nextOf, if_pos h8, hskip]
    simp [Payload.reset, Payload.skip, hproto]

theorem Frame.wf_ipPd (hp : p.data = f.bytes) : (f.ipPd p).WF := by
  have hlen := Frame.length_eq hp
  have := p.fits
  unfold Frame.innerAt at hlen
  exact ⟨by simp only [Frame.ipPd]; omega, p.fits⟩

/-- **The options are skipped and the padding is cut.** -/
theorem Frame.ipv4Inner_eq (hp : p.data = f.bytes) : ipv4Inner p.mem (f.ipPd p) = f.innerPd p := by
  have hlen := Frame.length_eq hp
  have h5 := f.ip.words_ge
  obtain ⟨hhdr, htotal, -⟩ := Frame.ipv4_lengths hp
  have hpl : (f.ipPd p).length = p.data.length - f.ipAt := rfl
  have hp20 : ((f.ipPd p).skip 20).length = p.data.length - f.ipAt - 20 := rfl
  unfold Frame.innerAt at hlen
  have hopts : (ipv4Options ((f.ipPd p).skip 20) (4 * f.ip.words)).pd
      = (f.ipPd p).skip (4 * f.ip.words) := by
    rw [ipv4Options_pd ((Frame.wf_ipPd hp).skip (by omega))]
    by_cases h : 20 < 4 * f.ip.words.val
    · rw [if_pos ⟨h, by omega⟩]
      simp only [Payload.skip, Payload.mk.injEq, true_and]
      omega
    · rw [if_neg fun hc => h hc.1, show 4 * f.ip.words.val = 20 by omega]
  rw [ipv4Inner, show (f.ipPd p).ptr = f.ipAt from rfl, hhdr, htotal, hopts, Nat.add_sub_cancel_left,
    Payload.shrink, if_neg (by simp only [Payload.skip, hpl]; omega)]
  rfl

/-- The module behind IPv4. -/
def Transport.mod : Transport → Mod
  | tcp _ _ => .tcp
  | udp _ _ => .udp

theorem Frame.ipv4_fits (hp : p.data = f.bytes) : 20 ≤ (f.ipPd p).length ∧
    ipv4HdrLen (p.mem.byte (f.ipPd p).ptr) ≤ p.mem.word ((f.ipPd p).ptr + 2) := by
  have hlen := Frame.length_eq hp
  have h5 := f.ip.words_ge
  obtain ⟨hhdr, htotal, -⟩ := Frame.ipv4_lengths hp
  unfold Frame.innerAt at hlen
  simp only [Frame.ipPd, hhdr, htotal]
  omega

theorem Frame.visits_inner (hp : p.data = f.bytes) (hvs : Visited cfg p vs) :
    ∃ v ∈ vs, v.mod = f.inner.mod ∧ v.pd = f.innerPd p := by
  obtain ⟨v, hv, hmod, hpd⟩ := Frame.visits_ipv4 hp hvs
  have hnext := hvs.next v hv
  rw [hmod, hpd] at hnext
  refine hnext _ _ ?_
  have hproto : p.mem.byte ((f.ipPd p).ptr + 9) = f.inner.proto := (Frame.ipv4_lengths hp).2.2
  have hinner : ipv4Next f.inner.proto = some f.inner.mod := by cases f.inner <;> rfl
  rw [← Frame.ipv4Inner_eq hp, nextOf, if_pos (Frame.ipv4_fits hp), hproto, hinner]
  rfl

end Way

/-! ## Layer by layer -/

section Layers

variable {f : Frame} {p : Packet} {cfg : TcpConfig τ} {vs : List Visit} {q : Property}

/-- A visit of a module: its call of `decode`, which decides the parameters of the module. -/
theorem Visited.visit {mod : Mod} {pd : Payload} (hvs : Visited cfg p vs)
    (hvisit : ∃ v ∈ vs, v.mod = mod ∧ v.pd = pd) : pd.WF ∧ p.mem.Has 0 pd.stop ∧
      ∃ st e st' s, decodeMod cfg p.tv p.mem st e pd mod = .ok (st', s) ∧
        ∀ d : Param, d.mod = mod → setCalls d (vs.flatMap Visit.ops) = setCalls d s.ops := by
  obtain ⟨v, hv, rfl, rfl⟩ := hvisit
  obtain ⟨hwf, hm⟩ := hvs.wf v hv
  obtain ⟨st, e, st', hcall⟩ := hvs.called v hv
  exact ⟨hwf, hm, st, e, st', v.step, hcall, hvs.calls v hv⟩

theorem Frame.reads_ethernet (hp : p.data = f.bytes) (hvs : Visited cfg p vs) (hw : q.WF) :
    ∀ x ∈ [("Ethernet.dst", Field.raw f.dst.toList), ("Ethernet.src", .raw f.src.toList),
      ("Ethernet.type", .num f.link.type.toNat)],
      Returns ((q.init.exec (vs.flatMap Visit.ops)).fetch p.mem x.1) (x.2.Reads p.mem) := by
  have hlen := Frame.length_eq hp
  obtain ⟨hdst, hsrc, htype, -⟩ := Frame.holds hp
  unfold Frame.innerAt Frame.ipAt at hlen
  obtain ⟨hwf, hm, st, e, st', s, hcall, hcalls⟩ := hvs.visit hvs.first
  have h14 : 14 ≤ (Payload.reset p).length := by
    simp only [Payload.reset]
    omega
  rw [decodeMod, ethernetDecode_eq hwf hm h14] at hcall
  obtain ⟨-, rfl⟩ := Prod.mk.inj (Except.ok.inj hcall)
  simp only [List.forall_mem_cons, List.not_mem_nil, false_imp_iff, implies_true, and_true]
  refine ⟨?_, ?_, ?_⟩
  · exact fetch_param hw (lookupParamKey_name .ethernetDst) rfl (hcalls .ethernetDst rfl)
      (reads_vector _ hdst (by decide))
  · exact fetch_param hw (lookupParamKey_name .ethernetSrc) rfl (hcalls .ethernetSrc rfl)
      (reads_vector _ hsrc (by decide))
  · exact fetch_param hw (lookupParamKey_name .ethernetType) rfl (hcalls .ethernetType rfl)
      (reads_u16 htype)

/-- The call for the options of IPv4. -/
theorem Frame.ipv4Options_ops (hp : p.data = f.bytes) :
    (ipv4Options ((f.ipPd p).skip 20) (4 * f.ip.words)).ops
      = if f.ip.opt = [] then [] else [.set .ipv4Opt (.pkt (f.ipAt + 20)) f.ip.opt.length] := by
  have hlen := Frame.length_eq hp
  have h5 := f.ip.words_ge
  have hopt := f.ip.opt_length
  have hp20 : ((f.ipPd p).skip 20).length = p.data.length - f.ipAt - 20 := rfl
  unfold Frame.innerAt at hlen
  unfold ipv4Options
  rw [Payload.retain_eq ((Frame.wf_ipPd hp).skip (Frame.ipv4_fits hp).1)]
  by_cases h : f.ip.opt = []
  · rw [h, List.length_nil] at hopt
    rw [if_pos h, if_neg (by omega)]
  · have hpos := List.length_pos_iff.mpr h
    rw [if_neg h, if_pos (by omega), if_pos (by omega), hopt]
    rfl

theorem Frame.reads_ipv4 (hp : p.data = f.bytes) (hvs : Visited cfg p vs) (hw : q.WF) :
    ∀ x ∈ f.ipFields,
      Returns ((q.init.exec (vs.flatMap Visit.ops)).fetch p.mem x.1) (x.2.Reads p.mem) := by
  obtain ⟨-, -, -, -, hip, hinner⟩ := Frame.holds hp
  obtain ⟨hfirst, htos, htotal, hid, hoffset, httl, hproto, hchk, hsrc, hdst, hopt⟩ :=
    Ipv4Header.holds hip
  obtain ⟨h20, hle⟩ := Frame.ipv4_fits hp
  obtain ⟨hwf, hm, st, e, st', s, hcall, hcalls⟩ := hvs.visit (Frame.visits_ipv4 hp hvs)
  rw [decodeMod, ipv4Decode_eq hwf hm h20 hle, Frame.ipv4Inner_eq hp,
    show (f.ipPd p).ptr = f.ipAt from rfl, (Frame.ipv4_lengths hp).1, Frame.ipv4Options_ops hp] at hcall
  obtain ⟨-, rfl⟩ := Prod.mk.inj (Except.ok.inj hcall)
  -- the options are filled apart from the rest
  have hrest : ∀ d : Param, d.mod = .ipv4 → d ≠ .ipv4Opt → setCalls d (vs.flatMap Visit.ops)
      = setCalls d [.set .ipv4Hdr (.pkt f.ipAt) 20, .srcAddr (p.mem.block (f.ipAt + 12) 4),
          .dstAddr (p.mem.block (f.ipAt + 16) 4), .set .ipv4Src (.pkt (f.ipAt + 12)) 4,
          .set .ipv4Dst (.pkt (f.ipAt + 16)) 4]
        ++ setCalls d [.set .ipv4Data (.pkt f.innerAt) f.inner.bytes.length] := by
    intro d hd hne
    rw [hcalls d hd, setCalls_append, setCalls_append, setCalls_optional hne, List.append_nil]
    rfl
  have hhdr := hrest .ipv4Hdr rfl (by simp)
  have hdata : f.inner.bytes ≠ [] := by
    cases f.inner <;> simp [Transport.bytes, TcpHeader.bytes, UdpHeader.bytes, netU16]
  simp only [Frame.ipFields, List.forall_mem_cons, List.not_mem_nil, false_imp_iff, implies_true, and_true]
  refine ⟨?_, ?_, ?_, ?_, ?_, ?_, ?_, ?_, ?_, ?_, ?_, ?_, ?_⟩
  · exact fetch_param hw (lookupParamKey_name .ipv4Src) rfl (hrest .ipv4Src rfl (by simp))
      (reads_vector _ hsrc (by decide))
  · exact fetch_param hw (lookupParamKey_name .ipv4Dst) rfl (hrest .ipv4Dst rfl (by simp))
      (reads_vector _ hdst (by decide))
  · have hoptCalls := hcalls .ipv4Opt rfl
    rw [setCalls_append, setCalls_append] at hoptCalls
    by_cases h : f.ip.opt = []
    · rw [if_pos h] at hoptCalls
      rw [h]
      refine fetch_absent hw (lookupParamKey_name .ipv4Opt) rfl hoptCalls ⟨.ipv4Src, ?_, by decide⟩
      exact mem_retained (hrest .ipv4Src rfl (by simp))
    · rw [if_neg h] at hoptCalls
      exact fetch_param hw (lookupParamKey_name .ipv4Opt) rfl hoptCalls (reads_raw hopt h)
  · exact fetch_param hw (lookupParamKey_name .ipv4Data) rfl (hrest .ipv4Data rfl (by simp))
      (reads_raw hinner hdata)
  · exact fetch_minor hw hhdr (lookupParamKey_minor .ipv4Hdr ⟨8, by decide⟩) (hfirst.calc (· >>> 4))
      (reads_cpy (first_ver f.ip.ver f.ip.words))
  · exact fetch_minor hw hhdr (lookupParamKey_minor .ipv4Hdr ⟨1, by decide⟩)
      (hfirst.calc fun b => (b &&& 0x0f) <<< 2) (reads_cpy (ipv4HdrLen_first f.ip.ver f.ip.words))
  · exact fetch_minor hw hhdr (lookupParamKey_minor .ipv4Hdr ⟨5, by decide⟩) rfl (reads_u8 htos)
  · exact fetch_minor hw hhdr (lookupParamKey_minor .ipv4Hdr ⟨6, by decide⟩) rfl
      (f.total_eq ▸ reads_u16 htotal)
  · exact fetch_minor hw hhdr (lookupParamKey_minor .ipv4Hdr ⟨2, by decide⟩) rfl (reads_u16 hid)
  · exact fetch_minor hw hhdr (lookupParamKey_minor .ipv4Hdr ⟨3, by decide⟩) rfl (reads_u16 hoffset)
  · exact fetch_minor hw hhdr (lookupParamKey_minor .ipv4Hdr ⟨7, by decide⟩) rfl (reads_u8 httl)
  · exact fetch_minor hw hhdr (lookupParamKey_minor .ipv4Hdr ⟨4, by decide⟩) rfl (reads_u8 hproto)
  · exact fetch_minor hw hhdr (lookupParamKey_minor .ipv4Hdr ⟨0, by decide⟩) rfl (reads_u16 hchk)

theorem flag_bit (b : UInt8) {flag : UInt8} {i : Nat} (h : flag.toNat = 2 ^ i) :
    (if 0 < b &&& flag then (1 : UInt8) else 0).toNat = (b.toNat.testBit i).toNat := by
  have hand : (b &&& flag).toNat = (b.toNat.testBit i).toNat * 2 ^ i := by
    rw [UInt8.toNat_and, h, Nat.and_two_pow]
  have hlt : 0 < b &&& flag ↔ 0 < (b.toNat.testBit i).toNat * 2 ^ i := by
    rw [UInt8.lt_iff_toNat_lt, hand]
    rfl
  rw [if_congr hlt rfl rfl]
  cases b.toNat.testBit i <;> simp

theorem Frame.reads_udp {u : UdpHeader} {payload : List UInt8} (hp : p.data = f.bytes)
    (hinner : f.inner = .udp u payload) (hvs : Visited cfg p vs) (hw : q.WF) : ∀ x ∈ u.fields,
      Returns ((q.init.exec (vs.flatMap Visit.ops)).fetch p.mem x.1) (x.2.Reads p.mem) := by
  obtain ⟨-, -, -, -, -, hbytes⟩ := Frame.holds hp
  obtain ⟨hwf, hm, st, e, st', s, hcall, hcalls⟩ := hvs.visit (Frame.visits_inner hp hvs)
  have h8 : 8 ≤ (f.innerPd p).length := by
    simp only [Frame.innerPd, hinner, Transport.bytes, UdpHeader.bytes, List.length_append, length_netU16]
    omega
  rw [hinner] at hcall hcalls hbytes
  obtain ⟨hsrc, hdst, hlen, hchk⟩ := UdpHeader.holds hbytes
  rw [Transport.mod, decodeMod, udpDecode_eq hwf hm h8] at hcall
  obtain ⟨-, rfl⟩ := Prod.mk.inj (Except.ok.inj hcall)
  have hhdr := hcalls .udpHdr rfl
  simp only [UdpHeader.fields, List.forall_mem_cons, List.not_mem_nil, false_imp_iff, implies_true,
    and_true]
  refine ⟨?_, ?_, ?_, ?_⟩
  · exact fetch_param hw (lookupParamKey_name .udpSrcPort) rfl (hcalls .udpSrcPort rfl) (reads_u16 hsrc)
  · exact fetch_param hw (lookupParamKey_name .udpDstPort) rfl (hcalls .udpDstPort rfl) (reads_u16 hdst)
  · exact fetch_minor hw hhdr (lookupParamKey_minor .udpHdr ⟨1, by decide⟩) rfl (reads_u16 hlen)
  · exact fetch_minor hw hhdr (lookupParamKey_minor .udpHdr ⟨0, by decide⟩) rfl (reads_u16 hchk)

/-- The calls of a visit of TCP: those for the header, and others for the session. -/
theorem tcpDecode_calls {m : Mem} {pd : Payload} {st st' : TcpState τ} {e : Endpoints}
    {tv : Tcp.Timeval} {s : Step} (h : pd.WF) (hm : m.Has 0 pd.stop) (hs : tcpSpan m pd ≤ pd.length)
    (hcall : tcpDecode cfg st e tv m pd = .ok (st', s)) {d : Param} (hd : d ∉ ssnParams) :
    setCalls d s.ops = setCalls d (tcpHead m pd) := by
  rw [tcpDecode_eq h hm hs] at hcall
  split at hcall
  · obtain ⟨r, hr, hret⟩ := returns_of_bind hcall
    obtain ⟨-, rfl⟩ := Prod.mk.inj (Except.ok.inj hret)
    have hnil : setCalls d r.2 = [] := setCalls_eq_nil fun hmem => hd (sessionMgmt_own r hr d hmem)
    rw [setCalls_append, hnil, List.append_nil]
  · obtain ⟨-, rfl⟩ := Prod.mk.inj (Except.ok.inj hcall)
    rfl

/-- The calls for the TCP header of a frame: those for the options and the segment are made when these
are there. -/
theorem Frame.calls_tcp {t : TcpHeader} {segment : List UInt8} (hp : p.data = f.bytes)
    (hinner : f.inner = .tcp t segment) (hvs : Visited cfg p vs) {d : Param} (hd : d.mod = .tcp)
    (hssn : d ∉ ssnParams) : setCalls d (vs.flatMap Visit.ops)
      = setCalls d [.srcPort (UInt16.ofNat (p.mem.word f.innerAt)),
          .dstPort (UInt16.ofNat (p.mem.word (f.innerAt + 2))), .set .tcpSrcPort (.pkt f.innerAt) 2,
          .set .tcpDstPort (.pkt (f.innerAt + 2)) 2, .set .tcpHdr (.pkt f.innerAt) 20]
        ++ setCalls d (if t.opt = [] then [] else [.set .tcpOptdata (.pkt (f.innerAt + 20)) t.opt.length])
        ++ setCalls d (if segment = [] then []
          else [.set .tcpSegment (.pkt (f.innerAt + (20 + t.opt.length))) segment.length]) := by
  obtain ⟨-, -, -, -, -, hbytes⟩ := Frame.holds hp
  obtain ⟨hwf, hm, st, e, st', s, hcall, hcalls⟩ := hvs.visit (Frame.visits_inner hp hvs)
  rw [hinner] at hcall hcalls hbytes
  obtain ⟨-, -, -, -, hoff, -⟩ := TcpHeader.holds hbytes
  have hspan : tcpSpan p.mem (f.innerPd p) = 20 + t.opt.length := by
    rw [tcpSpan, show (f.innerPd p).ptr = f.innerAt from rfl, hoff.byte,
      tcpOptLen_offset _ _ t.words_ge, t.opt_length]
  have hlen : (f.innerPd p).length = 20 + t.opt.length + segment.length := by
    simp only [Frame.innerPd, hinner, Transport.bytes, TcpHeader.bytes, List.length_append, length_netU16,
      length_netU32, List.length_cons, List.length_nil]
    omega
  have hflip : ∀ (bs : List UInt8) (op : Op),
      (if bs.length > 0 then [op] else []) = if bs = [] then [] else [op] := by
    intro bs op
    cases bs <;> simp
  have hgt : (20 + t.opt.length > 20) = (t.opt.length > 0) := propext (by omega)
  rw [Transport.mod, decodeMod] at hcall
  rw [hcalls d hd, tcpDecode_calls hwf hm (by omega) hcall hssn, tcpHead, setCalls_append,
    setCalls_append, hspan, hlen, Nat.add_sub_cancel_left, Nat.add_sub_cancel_left, hflip]
  simp only [hgt, hflip]
  rfl

theorem Frame.reads_tcp {t : TcpHeader} {segment : List UInt8} (hp : p.data = f.bytes)
    (hinner : f.inner = .tcp t segment) (hvs : Visited cfg p vs) (hw : q.WF) :
    ∀ x ∈ t.fields segment,
      Returns ((q.init.exec (vs.flatMap Visit.ops)).fetch p.mem x.1) (x.2.Reads p.mem) := by
  obtain ⟨-, -, -, -, -, hbytes⟩ := Frame.holds hp
  rw [hinner] at hbytes
  obtain ⟨hsrc, hdst, hseq, hack, hoff, hflags, hwin, hchk, hurg, hopt, hseg⟩ := TcpHeader.holds hbytes
  have hall := fun {d : Param} => Frame.calls_tcp (d := d) hp hinner hvs
  have hhead : ∀ d : Param, d.mod = .tcp → d ∉ ssnParams → d ≠ .tcpOptdata → d ≠ .tcpSegment →
      setCalls d (vs.flatMap Visit.ops)
        = setCalls d [.srcPort (UInt16.ofNat (p.mem.word f.innerAt)),
          .dstPort (UInt16.ofNat (p.mem.word (f.innerAt + 2))), .set .tcpSrcPort (.pkt f.innerAt) 2,
          .set .tcpDstPort (.pkt (f.innerAt + 2)) 2, .set .tcpHdr (.pkt f.innerAt) 20] := by
    intro d hd hssn ho hs
    rw [hall hd hssn, setCalls_optional ho, setCalls_optional hs, List.append_nil, List.append_nil]
  have hhdr := hhead .tcpHdr rfl (by decide) (by simp) (by simp)
  have hport := hhead .tcpSrcPort rfl (by decide) (by simp) (by simp)
  have hdport := hhead .tcpDstPort rfl (by decide) (by simp) (by simp)
  have hflag : ∀ {flag : UInt8} {i : Nat}, flag.toNat = 2 ^ i →
      (t.flag i).Reads p.mem (({} : Cell).cpy [if 0 < t.flags &&& flag then 1 else 0]) :=
    fun h => reads_cpy (flag_bit t.flags h)
  have hcalc : ∀ flag : UInt8, (flagMinor flag).run p.mem f.innerAt {}
      = .ok (({} : Cell).cpy [if 0 < t.flags &&& flag then 1 else 0]) := by
    intro flag
    rw [flagMinor, Defer.run, Mem.u8, hflags.1]
    rfl
  have hwords : (Defer.calc fun m ptr => return [((← m.u8 (ptr + 12)) &&& 0xf0) >>> 2]).run p.mem
      f.innerAt {} = .ok (({} : Cell).cpy [(UInt8.ofNat (16 * t.words + t.reserved) &&& 0xf0) >>> 2]) := by
    rw [Defer.run, Mem.u8, hoff.1]
    rfl
  simp only [TcpHeader.fields, List.forall_mem_cons, List.not_mem_nil, false_imp_iff, implies_true,
    and_true]
  refine ⟨?_, ?_, ?_, ?_, ?_, ?_, ?_, ?_, ?_, ?_, ?_, ?_, ?_, ?_, ?_, ?_, ?_, ?_, ?_⟩
  · exact fetch_param hw (lookupParamKey_name .tcpSrcPort) rfl hport (reads_u16 hsrc)
  · exact fetch_param hw (lookupParamKey_name .tcpDstPort) rfl hdport (reads_u16 hdst)
  · have hoptCalls := hall (d := .tcpOptdata) rfl (by decide)
    rw [setCalls_optional (show Param.tcpOptdata ≠ .tcpSegment by simp)] at hoptCalls
    by_cases h : t.opt = []
    · rw [if_pos h] at hoptCalls
      rw [h]
      exact fetch_absent hw (lookupParamKey_name .tcpOptdata) rfl hoptCalls
        ⟨.tcpSrcPort, mem_retained hport, by decide⟩
    · rw [if_neg h] at hoptCalls
      exact fetch_param hw (lookupParamKey_name .tcpOptdata) rfl hoptCalls (reads_raw hopt h)
  · have hsegCalls := hall (d := .tcpSegment) rfl (by decide)
    rw [setCalls_optional (show Param.tcpSegment ≠ .tcpOptdata by simp)] at hsegCalls
    by_cases h : segment = []
    · rw [if_pos h] at hsegCalls
      rw [h]
      exact fetch_absent hw (lookupParamKey_name .tcpSegment) rfl hsegCalls
        ⟨.tcpSrcPort, mem_retained hport, by decide⟩
    · rw [if_neg h] at hsegCalls
      exact fetch_param hw (lookupParamKey_name .tcpSegment) rfl hsegCalls (reads_raw hseg h)
  · exact fetch_minor hw hhdr (lookupParamKey_minor .tcpHdr ⟨12, by decide⟩) rfl (reads_u32 hseq)
  · exact fetch_minor hw hhdr (lookupParamKey_minor .tcpHdr ⟨0, by decide⟩) rfl (reads_u32 hack)
  · exact fetch_minor hw hhdr (lookupParamKey_minor .tcpHdr ⟨11, by decide⟩) hwords
      (reads_cpy (offset_words t.words t.reserved))
  · exact fetch_minor hw hhdr (lookupParamKey_minor .tcpHdr ⟨10, by decide⟩) rfl (reads_u8 hflags)
  · exact fetch_minor hw hhdr (lookupParamKey_minor .tcpHdr ⟨14, by decide⟩) rfl (reads_u16 hwin)
  · exact fetch_minor hw hhdr (lookupParamKey_minor .tcpHdr ⟨1, by decide⟩) rfl (reads_u16 hchk)
  · exact fetch_minor hw hhdr (lookupParamKey_minor .tcpHdr ⟨13, by decide⟩) rfl (reads_u16 hurg)
  · exact fetch_minor hw hhdr (lookupParamKey_minor .tcpHdr ⟨5, by decide⟩) (hcalc 0x01) (hflag rfl)
  · exact fetch_minor hw hhdr (lookupParamKey_minor .tcpHdr ⟨8, by decide⟩) (hcalc 0x02) (hflag rfl)
  · exact fetch_minor hw hhdr (lookupParamKey_minor .tcpHdr ⟨7, by decide⟩) (hcalc 0x04) (hflag rfl)
  · exact fetch_minor hw hhdr (lookupParamKey_minor .tcpHdr ⟨6, by decide⟩) (hcalc 0x08) (hflag rfl)
  · exact fetch_minor hw hhdr (lookupParamKey_minor .tcpHdr ⟨2, by decide⟩) (hcalc 0x10) (hflag rfl)
  · exact fetch_minor hw hhdr (lookupParamKey_minor .tcpHdr ⟨9, by decide⟩) (hcalc 0x20) (hflag rfl)
  · exact fetch_minor hw hhdr (lookupParamKey_minor .tcpHdr ⟨4, by decide⟩) (hcalc 0x40) (hflag rfl)
  · exact fetch_minor hw hhdr (lookupParamKey_minor .tcpHdr ⟨3, by decide⟩) (hcalc 0x80) (hflag rfl)

end Layers

/-- **Every field of a frame reads back as it was encoded**, after any history of packets and reads,
with or without session management and in any state of the TCP module. -/
theorem decode_reads_back (cfg : TcpConfig τ) (tcp tcp' : TcpState τ) (hist : List (Packet × List Key))
    (f : Frame) (p : Packet) (hp : p.data = f.bytes) :
    Returns (Worker.run cfg { tcp } hist) fun w =>
      Returns (Worker.process cfg { w with tcp := tcp' } p) fun w' =>
        ∀ x ∈ f.fields, Returns (w'.prop.fetch p.mem x.1) (x.2.Reads p.mem) := by
  refine (run_returns Property.wf_empty hist).mono fun w hw => ?_
  refine (process_visited cfg _ p).mono ?_
  rintro w' ⟨vs, hexec, hvs⟩ x hx
  rw [hexec]
  simp only [Frame.fields, List.mem_append] at hx
  rcases hx with (hx | hx) | hx
  · exact Frame.reads_ethernet hp hvs hw x hx
  · exact Frame.reads_ipv4 hp hvs hw x hx
  · cases hinner : f.inner with
    | tcp t segment =>
      rw [hinner] at hx
      exact Frame.reads_tcp hp hinner hvs hw x hx
    | udp u payload =>
      rw [hinner] at hx
      exact Frame.reads_udp hp hinner hvs hw x hx

/-- A TCP segment of two bytes over PPPoE, with options in both headers and three bytes of padding. -/
def pppoeFrame : Frame where
  dst := #v[2, 0, 0, 0, 0, 1]
  src := #v[2, 0, 0, 0, 0, 2]
  link := .pppoe #v[0x11, 0, 0, 7, 0, 54]
  ip := {
    ver := 4, words := 6, tos := 0, id := 1, offset := 0x4000, ttl := 64, chksum := 0
    src := #v[10, 0, 0, 1], dst := #v[10, 0, 0, 2], opt := [1, 1, 1, 0]
    words_ge := by decide, opt_length := by decide }
  inner := .tcp {
    srcPort := 49152, dstPort := 80, seq := 100, ack := 300, words := 6, reserved := 0, flags := 0x18
    window := 8192, chksum := 0, urgptr := 0, opt := [1, 1, 1, 0]
    words_ge := by decide, opt_length := by decide } [0x68, 0x69]
  pad := [0, 0, 0]
  fits := by decide

/-- It reads back. -/
theorem decode_reads_back_pppoe : ∃ p : Packet, p.data = pppoeFrame.bytes ∧
    Returns (Worker.run ⟨true, 300, listHash⟩ { tcp := { table := [] } } []) fun w =>
      Returns (Worker.process ⟨true, 300, listHash⟩ { w with tcp := { table := [] } } p) fun w' =>
        ∀ x ∈ pppoeFrame.fields, Returns (w'.prop.fetch p.mem x.1) (x.2.Reads p.mem) :=
  ⟨⟨4096, pppoeFrame.bytes, ⟨0, 0⟩, by decide +kernel⟩, rfl,
    decode_reads_back ⟨true, 300, listHash⟩ { table := [] } { table := [] } [] pppoeFrame _ rfl⟩

end PacketMachine.Decode
