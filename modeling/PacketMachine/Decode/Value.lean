import PacketMachine.Decode.Label

/-!
# `Value`: a byte range, and how it is read

Model of `Value` (`value.hpp`, `value.cc:46-299`) and of the `repr` of its leaf classes: `IPv4Addr`
and `PortNumber` (`value.hpp`), `NSName`, `NSData` and `NSType` (`modules/utils.cc:345-437`),
`IcmpType` and `IcmpCode` (`modules/icmp.cc:46-129`).

* A `Cell` is the state of the base class. `ptr_` points into the packet, into `buf_` of the value
  itself, into memory of another object, into a packet that was decoded earlier, or nowhere.
* An accessor that would read outside of what the pointer is good for is a `Fault`; so is printing a
  variable that was never assigned.
* `inet_ntop(AF_INET6, ..)` is a parameter (`ntop6`).

The members over a memory of blocks, with the widths and masks of `uint64` and the array of `ip4`,
are in `Values`; `Values.accessors_agree` relates the two.
-/

namespace PacketMachine.Decode

open PacketMachine.Lib

/-- `Value::Endian`. -/
inductive Endian where
  | little
  | big
  deriving DecidableEq, Repr

/-- `ptr_`. -/
inductive Ptr where
  | null
  /-- A position of the packet at hand. -/
  | pkt (off : Nat)
  /-- `buf_` of the value. -/
  | own
  /-- Bytes that another object owns. -/
  | ext (data : List UInt8)
  /-- A position of an earlier packet, with `age` others behind it. -/
  | old (age off : Nat)
  deriving DecidableEq, Repr

/-- The members of `Value`. The constructor leaves `endian_` unset; it is read only when `active_`. -/
structure Cell where
  active : Bool := false
  ptr : Ptr := .null
  len : Nat := 0
  buf : List UInt8 := []
  endian : Endian := .big
  deriving DecidableEq, Repr

/-- `Value::set`. -/
def Cell.set (c : Cell) (ptr : Ptr) (len : Nat) (e : Endian := .big) : Cell :=
  { c with active := true, endian := e, ptr := ptr, len := len }

/-- `Value::cpy`: `buf_` grows when it is too short and keeps what lies behind the new bytes. -/
def Cell.cpy (c : Cell) (bytes : List UInt8) (e : Endian := .big) : Cell :=
  { active := true, endian := e, ptr := .own, len := bytes.length,
    buf := bytes ++ c.buf.drop bytes.length }

/-- `Value::clear`. -/
def Cell.clear (c : Cell) : Cell := { c with active := false }

/-- The bytes from `ptr_` on, `len_` of them. The buffer of an earlier packet has gone back to the
capture. -/
def Cell.bytes (m : Mem) (c : Cell) : Except Fault (List UInt8) :=
  match c.ptr with
  | .null => if c.len = 0 then .ok [] else .error (.read 0)
  | .pkt off => m.bytes off c.len
  | .own => .ok (c.buf.take c.len)
  | .ext data => .ok (data.take c.len)
  | .old _ _ => if c.len = 0 then .ok [] else .error (.assertion "the packet is at hand")

/-! ## Accessors -/

/-- `isprint` in the C locale. -/
def isPrint (b : UInt8) : Bool := 0x20 ≤ b && b ≤ 0x7e

def printable (bs : List UInt8) : Text :=
  bs.map fun b => if isPrint b then Char.ofNat b.toNat else '.'

/-- `Value::repr`. -/
def Cell.repr (m : Mem) (c : Cell) : Except Fault Text :=
  if c.active then return printable (← c.bytes m) else .ok []

/-- The bytes that an active value stands for. -/
def Cell.content (m : Mem) (c : Cell) : Except Fault (Option (List UInt8)) :=
  if c.active then return some (← c.bytes m) else .ok none

/-- `Value::raw`: the bytes behind the pointer it returns, `none` for `nullptr`. -/
def Cell.raw (m : Mem) (c : Cell) : Except Fault (Option (List UInt8)) :=
  if c.active ∧ c.ptr ≠ .null then return some (← c.bytes m) else .ok none

def digit (n : Nat) : Char := Char.ofNat (n % 10 + 48)

/-- A number of at most three digits, as `Value::ip4` writes it. -/
def decimal (n : Nat) : Text :=
  (if n ≥ 100 then [digit (n / 100)] else []) ++ (if n ≥ 10 then [digit (n / 10)] else []) ++ [digit n]

/-- `Value::ip4`: each number with a dot, the last dot overwritten by the end of the string. -/
def Cell.ip4 (m : Mem) (c : Cell) : Except Fault Text :=
  if c.active ∧ c.len = 4 then
    return ((← c.bytes m).flatMap fun b => decimal b.toNat ++ ['.']).dropLast
  else .ok []

/-- `Value::ip6`. -/
def Cell.ip6 (ntop6 : List UInt8 → Text) (m : Mem) (c : Cell) : Except Fault Text :=
  if c.active ∧ c.len = 16 then return ntop6 (← c.bytes m) else .ok []

def hexDigit (n : Nat) : Char := Char.ofNat (if n < 10 then n + 48 else n + 87)

/-- `Value::mac`. -/
def Cell.mac (m : Mem) (c : Cell) : Except Fault Text :=
  if c.active ∧ c.len = 6 then
    return ((← c.bytes m).flatMap fun b =>
      [hexDigit (b.toNat / 16), hexDigit (b.toNat % 16), ':']).dropLast
  else .ok []

/-- The number of a byte string in an endianness. -/
def numberOf (e : Endian) (bs : List UInt8) : Nat :=
  match e with
  | .big => bs.foldl (fun n b => n * 256 + b.toNat) 0
  | .little => bs.foldr (fun b n => b.toNat + 256 * n) 0

/-- `Value::is_uint`. -/
def Cell.isUint (c : Cell) : Bool :=
  c.active && (c.len == 1 || c.len == 2 || c.len == 4 || c.len == 8)

/-- `Value::uint64(uint64_t*)`: `none` when it returns `false`. -/
def Cell.uint64? (m : Mem) (c : Cell) : Except Fault (Option Nat) :=
  if c.isUint then return some (numberOf c.endian (← c.bytes m)) else .ok none

/-- `Value::uint64()`. -/
def Cell.uint64 (m : Mem) (c : Cell) : Except Fault Nat := return (← c.uint64? m).getD 0

/-- `Value::uint()`. -/
def Cell.uint (m : Mem) (c : Cell) : Except Fault Nat := return (← c.uint64 m) % 2 ^ 32

/-! ## The `repr` of the leaf classes -/

def textOfNat (n : Nat) : Text := (toString n).toList

/-- `PortNumber::repr`: `d` is not assigned when the value is no number. -/
def portRepr (m : Mem) (c : Cell) : Except Fault Text := do
  match ← c.uint64? m with
  | some d => return textOfNat d
  | none => .error (.assertion "d is initialised")

/-- The position a leaf class starts to read at. Only a value that was set to a range of the packet
has one. -/
def Cell.start (c : Cell) : Except Fault Nat :=
  match c.active, c.ptr with
  | true, .pkt off => .ok off
  | _, _ => .error (.assertion "raw() points into the packet")

/-- `NSName::repr`. -/
def nsNameRepr (m : Mem) (c : Cell) (base totalLen : Nat) : Except Fault Text := do
  let ptr ← c.start
  match ← parseLabel m ptr c.len base totalLen (some []) with
  | (some _, s) => return s.getD []
  | (none, _) => return ['?']

/-- The loop of `NSData::repr` for `TXT`: `p` is the distance from `start_ptr`. -/
def txtLoop (m : Mem) (start len : Nat) : Nat → Nat → Text → Except Fault Text
  | 0, _, _ => .error .fuel
  | fuel + 1, p, os =>
    if ¬ p < len then .ok os
    else do
      let os := if p > 0 then os ++ [','] else os
      let dLen := (← m.u8 (start + p)).toNat
      if p + 1 + dLen > len then return os
      else
        let bs ← m.bytes (start + p + 1) dLen
        txtLoop m start len fuel (p + 1 + dLen) (os ++ textOf bs)

/-- `NSData::repr`. -/
def nsDataRepr (ntop6 : List UInt8 → Text) (m : Mem) (c : Cell) (type base totalLen : Nat) :
    Except Fault Text :=
  if type = 1 then c.ip4 m
  else if type = 28 then c.ip6 ntop6 m
  else if type = 2 ∨ type = 5 ∨ type = 6 ∨ type = 12 ∨ type = 15 ∨ type = 33 then do
    let ptr ← c.start
    match ← parseLabel m ptr c.len base totalLen (some []) with
    | (some _, s) => return s.getD []
    | (none, _) => return []
  else if type = 16 then do
    let ptr ← c.start
    txtLoop m ptr c.len (c.len + 1) 0 []
  else do
    let ptr ← c.start
    return printable (← m.bytes ptr c.len)

/-- `NSType::repr`. -/
def nsTypeRepr (m : Mem) (c : Cell) : Except Fault Text := do
  let type ← c.uint m
  return match type with
    | 1 => "A".toList
    | 2 => "NS".toList
    | 5 => "CNAME".toList
    | 6 => "SOA".toList
    | 12 => "PTR".toList
    | 15 => "MX".toList
    | 16 => "TXT".toList
    | 28 => "AAAA".toList
    | 33 => "SRV".toList
    | n => textOfNat n

/-- `IcmpType::repr`. -/
def icmpTypeRepr (m : Mem) (c : Cell) : Except Fault Text := do
  let type ← c.uint m
  return match type with
    | 0 => "Echo Reply".toList
    | 3 => "Destination Unreachable".toList
    | 4 => "Source Quench".toList
    | 5 => "Redirect".toList
    | 8 => "Echo Request".toList
    | 9 => "Router Advertisement".toList
    | 10 => "Router Solicitation".toList
    | 11 => "Time Exceeded".toList
    | 12 => "Parameter".toList
    | 13 => "Timestamp".toList
    | 14 => "Timestamp Reply".toList
    | 15 => "Information Request".toList
    | 16 => "Information Reply".toList
    | 17 => "Address Mask Request".toList
    | 18 => "Address Mask Reply".toList
    | _ => []

/-- The text of an ICMP code for its type. -/
def icmpCodeText (type code : Nat) : Text :=
  match type, code with
  | 3, 0 => "Net Unreachable".toList
  | 3, 1 => "Host Unreachable".toList
  | 3, 2 => "Protocol Unreachable".toList
  | 3, 3 => "Port Unreachable".toList
  | 3, 4 => "Fragmentation Needed and DF was Set".toList
  | 3, 5 => "Source Route Failed".toList
  | 3, 6 => "Destination Network Unknown".toList
  | 3, 7 => "Destination Host Unknown".toList
  | 3, 8 => "Source Host Isolated".toList
  | 3, 9 => "Communication with Destination Network is Administratively Prohibited".toList
  | 3, 10 => "Communication with Destinaltion Host is Administratively Prohibited".toList
  | 3, 11 => "Destination Network Unreachable for ToS".toList
  | 3, 12 => "Destination Host Unreachable for ToS".toList
  | 3, 13 => "Communication Administratively Prohibited".toList
  | 3, 14 => "Host Precedence Violation".toList
  | 3, 15 => "Precedence cutoff in effect".toList
  | 3, _ => []
  | 5, 0 => "Redirect Datagram for the Network (or subnet)".toList
  | 5, 1 => "Redirect Datagram for the Host".toList
  | 5, 2 => "Redirect Datagram for the ToS and Network".toList
  | 5, 3 => "Redirect Datagram for the ToS and Host".toList
  | 5, _ => []
  | 9, 0 => "Normal router advertisement".toList
  | 9, 16 => "Does not route common traffic".toList
  | 9, _ => []
  | 11, 0 => "Time to Live exceeded in Transit".toList
  | 11, 1 => "Fragment Reassembly Time Exceeded".toList
  | 11, _ => []
  | 12, 0 => "Pointer indicates the error".toList
  | 12, 1 => "Missing a Required Option".toList
  | 12, 2 => "Bad Length".toList
  | 12, _ => []
  | _, n => textOfNat n

/-- `IcmpCode::repr`. -/
def icmpCodeRepr (m : Mem) (c : Cell) (type : Nat) : Except Fault Text :=
  return icmpCodeText type (← c.uint m)

/-! ## Safety of the name service classes -/

section Safety

variable {m : Mem}

theorem txtLoop_returns {start len : Nat} (h : m.Has start len) :
    ∀ (fuel : Nat) {p : Nat} {os : Text}, len - p < fuel →
      Returns (txtLoop m start len fuel p os) fun _ => True
  | 0, _, _, hf => absurd hf (Nat.not_lt_zero _)
  | fuel + 1, p, os, hf => by
    unfold txtLoop
    split
    · exact returns_ok.mpr trivial
    · refine .bind_ok (Mem.u8_eq h (by omega) (by omega)) ?_
      dsimp only
      split
      · exact returns_pure.mpr trivial
      · refine (Mem.bytes_returns (h.sub (by omega) (by omega))).bind ?_
        intro bs _
        exact txtLoop_returns h fuel (by omega)

/-- A value that was set to a range of the packet. -/
structure Cell.At (c : Cell) (off : Nat) : Prop where
  active : c.active = true
  ptr : c.ptr = .pkt off

theorem Cell.At.start {c : Cell} {off : Nat} (h : c.At off) : c.start = .ok off := by
  simp [Cell.start, h.active, h.ptr]

theorem Cell.At.bytes {c : Cell} {off : Nat} (h : c.At off) (hm : m.Has off c.len) :
    Returns (c.bytes m) fun _ => True := by
  rw [Cell.bytes, h.ptr]
  exact (Mem.bytes_returns hm).mono fun _ _ => trivial

/-- **`NSName::repr` reads only the name and the message.** -/
theorem nsNameRepr_returns {c : Cell} {off base totalLen : Nat} (h : c.At off)
    (hm : m.Has off c.len) (hb : m.Has base totalLen) :
    Returns (nsNameRepr m c base totalLen) fun _ => True := by
  unfold nsNameRepr
  refine .bind_ok h.start ((parseLabel_returns hb hm _).bind ?_)
  rintro ⟨q, s⟩ _
  cases q <;> exact returns_pure.mpr trivial

/-- **`NSData::repr` reads only the data and the message**, for every type. -/
theorem nsDataRepr_returns {c : Cell} {off base totalLen : Nat} (h : c.At off)
    (hm : m.Has off c.len) (hb : m.Has base totalLen) (ntop6 : List UInt8 → Text) (type : Nat) :
    Returns (nsDataRepr ntop6 m c type base totalLen) fun _ => True := by
  unfold nsDataRepr
  split
  · unfold Cell.ip4
    split
    · exact (h.bytes hm).bind fun _ _ => returns_pure.mpr trivial
    · exact returns_ok.mpr trivial
  · split
    · unfold Cell.ip6
      split
      · exact (h.bytes hm).bind fun _ _ => returns_pure.mpr trivial
      · exact returns_ok.mpr trivial
    · split
      · refine .bind_ok h.start ((parseLabel_returns hb hm _).bind ?_)
        rintro ⟨q, s⟩ _
        cases q <;> exact returns_pure.mpr trivial
      · split
        · exact .bind_ok h.start (txtLoop_returns hm _ (by omega))
        · exact .bind_ok h.start ((Mem.bytes_returns hm).bind fun _ _ => returns_pure.mpr trivial)

end Safety

end PacketMachine.Decode
