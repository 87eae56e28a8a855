import PacketMachine.Source.Packet

/-!
# `Capture`: packets from libpcap

Model of `Capture`, `PcapDev` and `PcapFile` (`capture.hpp`, `capture.cc`). libpcap is not part of
the repository: what `pcap_open_live`, `pcap_open_offline`, `pcap_next_ex` and `pcap_geterr` return
is a parameter of the calls (`Next`).

* libpcap hands out the bytes of a packet in a block of its own, and `caplen` is a `bpf_u_int32`.
  The length on the wire (`pkthdr->len`) is not read.
* A return code that libpcap does not document runs into `assert(0)`.
* `error()` keeps its text until the next `set_error`.

Results:
* `read_packet`, `read_rest`: what one `read` does, by the return code.
-/

namespace PacketMachine.Source

open PacketMachine.Lib

/-! ## The code -/

/-- A packet as libpcap gives it. -/
structure Frame where
  data : List UInt8
  tv : Tcp.Timeval
  lt : data.length < 2 ^ 32

/-- What `pcap_next_ex` returns, with what it leaves. -/
inductive Next where
  /-- 1: a packet was read. -/
  | packet (f : Frame)
  /-- 0: the timeout expired. -/
  | timeout
  /-- -1: an error occurred, which `pcap_geterr` names. -/
  | failed (text : String)
  /-- -2: there are no more packets. -/
  | eof
  /-- Any other number. -/
  | other (rc : Int)

/-- `Capture::Result`. -/
inductive Result where
  | ok
  | none
  | error
  | exit
  deriving DecidableEq, Repr

/-- The two sources. -/
inductive Kind where
  | dev
  | file
  deriving DecidableEq, Repr

/-- `Capture`, with the members of its source: `pd` says that `pd_` is not `nullptr`. -/
structure Capture where
  kind : Kind
  srcName : String
  pd : Bool
  ready : Bool
  error : String
  deriving DecidableEq, Repr

/-- The constructors of both sources: `opened` is `errbuf` when the call of libpcap returns
`nullptr`. -/
def Capture.new (kind : Kind) (name : String) (opened : Option String) : Capture where
  kind := kind
  srcName := name
  pd := opened.isNone
  ready := opened.isNone
  error := opened.getD ""

/-- `PcapDev::PcapDev`. -/
def PcapDev.new (devName : String) (opened : Option String) : Capture :=
  .new .dev devName opened

/-- `PcapFile::PcapFile`. -/
def PcapFile.new (filePath : String) (opened : Option String) : Capture :=
  .new .file filePath opened

/-- `set_error`. -/
def Capture.setError (c : Capture) (text : String) : Capture := { c with error := text }

/-- `set_ready`. -/
def Capture.setReady (c : Capture) (ready : Bool) : Capture := { c with ready := ready }

/-- The body of `read` of both sources. -/
def Capture.pcapRead (c : Capture) (h : Heap) (pkt : Packet) (next : Next) (found : Bool) :
    Except MemFault (Capture × Heap × Packet × Result) :=
  if ¬ c.ready then return (c.setError "pcap is not ready", h, pkt, .error)
  else match next with
    | .packet f => do
      let src := h.push (f.data.map some)
      let (h, pkt, ok) ← pkt.store src.1 (.addr src.2 0) f.data.length found
      if ok then return (c, h, (pkt.setCapLen f.data.length).setTv f.tv, .ok)
      else return (c.setError "memory allocation error", h, pkt, .error)
    | .timeout => return (c, h, pkt, .none)
    | .failed text => return ((c.setError text).setReady false, h, pkt, .error)
    | .eof => return (c.setReady false, h, pkt, .exit)
    | .other _ => throw (.assertion "0")

/-- `PcapDev::read`. -/
def PcapDev.read := Capture.pcapRead

/-- `PcapFile::read`. -/
def PcapFile.read := Capture.pcapRead

/-- `cap_->read(pkt)`. -/
def Capture.read (c : Capture) : Heap → Packet → Next → Bool →
    Except MemFault (Capture × Heap × Packet × Result) :=
  match c.kind with
  | .dev => PcapDev.read c
  | .file => PcapFile.read c

theorem Capture.read_eq (c : Capture) : c.read = c.pcapRead := by
  unfold Capture.read
  split <;> rfl

/-! ## One call -/

/-- The packet is what libpcap gave. -/
structure Carries (h : Heap) (pkt : Packet) (f : Frame) : Prop where
  bears : pkt.Bears h f.data
  capLen : pkt.capLen = f.data.length
  tv : pkt.tv = f.tv

/-- What the call that fills a packet leaves of the memory. -/
structure Filled (h h' : Heap) (pkt pkt' : Packet) : Prop where
  owns : Owns h' pkt'
  /-- The buffer is the old one, or a block that was not there. -/
  buf : ∀ i, pkt'.buf = some i → pkt.buf = some i ∨ h.blocks.length ≤ i
  /-- Every other block stays. -/
  same : ∀ j, pkt.buf ≠ some j → j < h.blocks.length → h'.block? j = h.block? j
  le : h.blocks.length ≤ h'.blocks.length

section Read

variable {h : Heap} {pkt : Packet} {c : Capture}

/-- **A packet that libpcap gives is stored**, unless there is no memory for it. -/
theorem read_packet (hr : c.ready = true) (hp : Owns h pkt) (f : Frame) (found : Bool) :
    if pkt.NeedsMemory f.data.length → found = true then
      ∃ h' pkt', c.read h pkt (.packet f) found = .ok (c, h', pkt', .ok) ∧
        Filled h h' pkt pkt' ∧ Carries h' pkt' f
    else ∃ h' pkt', c.read h pkt (.packet f) found
        = .ok (c.setError "memory allocation error", h', pkt', .error) ∧
      Filled h h' pkt pkt' := by
  have howns : Owns (h.push (f.data.map some)).1 pkt := hp.congr rfl rfl fun i hi => by
    unfold Heap.size?
    rw [block?_push, if_neg (Nat.ne_of_lt (hp.lt hi))]
  have hlen : (h.push (f.data.map some)).1.blocks.length = h.blocks.length + 1 := by
    simp [Heap.push]
  have hspec := store_spec found howns (holds_push h f.data) fun i off hi he => by
    obtain ⟨rfl, -⟩ := Pointer.addr.inj he
    exact lt_irrefl _ (hp.lt hi)
  have hpush : ∀ j, j < h.blocks.length →
      (h.push (f.data.map some)).1.block? j = h.block? j := fun j hj => by
    rw [block?_push, if_neg (Nat.ne_of_lt hj)]
  rw [Capture.read_eq]
  unfold Capture.pcapRead
  rw [hr]
  by_cases hf : pkt.NeedsMemory f.data.length → found = true
  · rw [if_pos hf] at hspec ⊢
    obtain ⟨h', pkt', hst, hstored⟩ := hspec
    simp only [not_true_eq_false, if_false, hst]
    have hbears := hstored.bears
    refine ⟨h', (pkt'.setCapLen f.data.length).setTv f.tv, rfl, ⟨hstored.owns, ?_, ?_, ?_⟩,
      ⟨hbears.len, hbears.held, hbears.live, hbears.room⟩, rfl, rfl⟩
    · intro i hi
      rcases hstored.buf with he | he
      · exact .inl (he ▸ hi)
      · refine .inr ?_
        have hi' := Option.some.inj (hi.symm.trans he)
        omega
    · intro j hj hlt
      rw [hstored.same j hj (by omega), hpush j hlt]
    · have := hstored.le
      omega
  · rw [if_neg hf] at hspec ⊢
    simp only [not_true_eq_false, if_false, hspec]
    refine ⟨(h.push (f.data.map some)).1, _, rfl, ?_, ?_, fun j _ => hpush j, by omega⟩
    · rintro i ⟨⟩
    · rintro i ⟨⟩

/-- **The other ways of `read`** leave the memory and the packet alone. -/
theorem read_rest {next : Next} (hn : c.ready = true → ∀ f, next ≠ .packet f) (found : Bool)
    {r : Capture × Heap × Packet × Result} (hr : c.read h pkt next found = .ok r) :
    r.2.1 = h ∧ r.2.2.1 = pkt ∧ (r.2.2.2 = .none ∧ r.1 = c ∧ c.ready = true ∨
      r.1.ready = false ∧ (r.2.2.2 = .exit ∧ next = .eof ∨
        r.2.2.2 = .error ∧ (c.ready = true ∧ next = .failed r.1.error ∨
          c.ready = false ∧ r.1.error = "pcap is not ready"))) := by
  rw [Capture.read_eq] at hr
  unfold Capture.pcapRead at hr
  by_cases hready : c.ready = true
  · rw [hready, if_neg (by simp)] at hr
    cases next with
    | packet f => exact absurd rfl (hn hready f)
    | timeout =>
      obtain rfl := Except.ok.inj hr
      exact ⟨rfl, rfl, .inl ⟨rfl, rfl, hready⟩⟩
    | failed text =>
      obtain rfl := Except.ok.inj hr
      exact ⟨rfl, rfl, .inr ⟨rfl, .inr ⟨rfl, .inl ⟨hready, rfl⟩⟩⟩⟩
    | eof =>
      obtain rfl := Except.ok.inj hr
      exact ⟨rfl, rfl, .inr ⟨rfl, .inl ⟨rfl, rfl⟩⟩⟩
    | other rc => cases hr
  · rw [if_pos hready] at hr
    obtain rfl := Except.ok.inj hr
    have hfalse := Bool.eq_false_iff.mpr hready
    exact ⟨rfl, rfl, .inr ⟨hfalse, .inr ⟨rfl, .inr ⟨hfalse, rfl⟩⟩⟩⟩

end Read

end PacketMachine.Source
