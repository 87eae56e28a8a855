import PacketMachine.Lib.Bytes
import PacketMachine.Lib.Returns

/-!
# Memory in blocks

The memory of a program in C: numbered blocks of bytes, and pointers to a position of one of them.

* A byte that was never written has no value, and to read it is a fault. So is an access outside of
  its block or to a block that is freed.
* A pointer may be anywhere; an access checks it. `null` is good for no bytes.
* `realloc` and `alloc` find the memory they are asked for. A block that is resized gets a new
  number.

Rules: `Holds h p b` says that the bytes `b` lie at `p`. `load_eq_ok_iff` and `store_eq_ok_iff` say
when an access returns, `Holds.same` and `Holds.realloc` what is left of the other bytes. `Written`
is the state of a block that is written through a moving pointer.
-/

namespace PacketMachine.Lib

/-- What goes wrong with an access. -/
inductive MemFault where
  | null
  | freed
  | bounds
  | indeterminate
  | overlap
  | assertion (text : String)
  deriving DecidableEq, Repr

/-- A block; `none` is a byte that was never written. -/
abbrev Block := List (Option UInt8)

/-- A pointer to a byte of a block. -/
inductive Pointer where
  | null
  | addr (block : Nat) (off : Int)
  deriving DecidableEq, Repr

/-- `p + k`. -/
def Pointer.add : Pointer → Int → Pointer
  | null, _ => null
  | addr i off, k => addr i (off + k)

theorem Pointer.add_zero (p : Pointer) : p.add 0 = p := by
  cases p with
  | null => rfl
  | addr i off => rw [add, Int.add_zero]

theorem Pointer.add_add (p : Pointer) (k l : Int) : (p.add k).add l = p.add (k + l) := by
  cases p with
  | null => rfl
  | addr i off => rw [add, add, add, Int.add_assoc]

/-- The blocks by their numbers; `none` is one that is freed. -/
structure Heap where
  blocks : List (Option Block) := []

/-- A block that is not freed. -/
def Heap.block? (h : Heap) (i : Nat) : Option Block := (h.blocks[i]?).join

/-- The size of a block that is not freed. -/
def Heap.size? (h : Heap) (i : Nat) : Option Nat := (h.block? i).map List.length

/-- The memory with another content of a block. -/
def Heap.put (h : Heap) (i : Nat) (bs : Block) : Heap := ⟨h.blocks.set i (some bs)⟩

/-- The values of bytes that were all written. -/
def written : Block → Option (List UInt8)
  | [] => some []
  | none :: _ => none
  | some x :: bs => (written bs).map (x :: ·)

/-- Reads `n` bytes. -/
def Heap.load (h : Heap) (p : Pointer) (n : Nat) : Except MemFault (List UInt8) :=
  match p with
  | .null => if n = 0 then .ok [] else .error .null
  | .addr i off =>
    match h.block? i with
    | none => .error .freed
    | some bs =>
      if 0 ≤ off ∧ off + n ≤ bs.length then
        match written ((bs.drop off.toNat).take n) with
        | some b => .ok b
        | none => .error .indeterminate
      else .error .bounds

/-- Writes bytes. -/
def Heap.store (h : Heap) (p : Pointer) (b : List UInt8) : Except MemFault Heap :=
  match p with
  | .null => if b = [] then .ok h else .error .null
  | .addr i off =>
    match h.block? i with
    | none => .error .freed
    | some bs =>
      if 0 ≤ off ∧ off + b.length ≤ bs.length then
        .ok (h.put i (bs.take off.toNat ++ b.map some ++ bs.drop (off.toNat + b.length)))
      else .error .bounds

/-- `*p`. -/
def Heap.byte (h : Heap) (p : Pointer) : Except MemFault UInt8 := do
  return (← h.load p 1).headD 0

/-- A number of `w` bits, as a little-endian host reads it. -/
def Heap.word (h : Heap) (w : Nat) (p : Pointer) : Except MemFault (BitVec w) := do
  return BitVec.ofNat w (littleEndian (← h.load p (w / 8)))

/-- The ranges of `n` bytes have a byte in common. -/
def Pointer.overlaps : Pointer → Pointer → Nat → Bool
  | addr i off, addr j off', n => i = j ∧ off < off' + n ∧ off' < off + n
  | _, _, _ => false

theorem null_overlaps (p : Pointer) (n : Nat) : Pointer.null.overlaps p n = false := by
  cases p <;> rfl

theorem overlaps_of_ne {i : Nat} {p : Pointer} (hp : ∀ off, p ≠ .addr i off) (off : Int) (n : Nat) :
    (Pointer.addr i off).overlaps p n = false := by
  cases p with
  | null => rfl
  | addr j off' =>
    have hij : i ≠ j := by
      rintro rfl
      exact hp off' rfl
    simp [Pointer.overlaps, hij]

/-- `memcpy`: the ranges must not overlap. -/
def Heap.memcpy (h : Heap) (dst src : Pointer) (n : Nat) : Except MemFault Heap := do
  if dst.overlaps src n then .error .overlap
  else h.store dst (← h.load src n)

/-- The memory with one block more, and the number of that block. -/
def Heap.push (h : Heap) (bs : Block) : Heap × Nat := (⟨h.blocks ++ [some bs]⟩, h.blocks.length)

/-- A new block of `n` bytes. -/
def Heap.alloc (h : Heap) (n : Nat) : Heap × Nat := h.push (List.replicate n none)

/-- `free`. -/
def Heap.free (h : Heap) : Option Nat → Heap
  | none => h
  | some i => ⟨h.blocks.set i none⟩

/-- `realloc` of a block: the new block starts with the bytes of the old one, which is freed. -/
def Heap.realloc (h : Heap) (o : Option Nat) (n : Nat) : Heap × Nat :=
  let bs := (o.bind h.block?).getD []
  (h.free o).push (bs.take n ++ List.replicate (n - bs.length) none)

/-- `*p++ = x`. -/
def Heap.emit (h : Heap) (p : Pointer) (x : UInt8) : Except MemFault (Heap × Pointer) := do
  return (← h.store p [x], p.add 1)

/-- The string at `p`, up to its `'\0'`. -/
def Heap.string (h : Heap) (p : Pointer) : Except MemFault (List UInt8) :=
  match p with
  | .null => .error .null
  | .addr i off =>
    match h.block? i with
    | none => .error .freed
    | some bs =>
      let s := (bs.drop off.toNat).takeWhile (· ≠ some 0)
      if 0 ≤ off ∧ off.toNat + s.length < bs.length then
        match written s with
        | some b => .ok b
        | none => .error .indeterminate
      else .error .bounds

/-! ## What lies at a pointer -/

theorem written_eq_some_iff {bs : Block} {b : List UInt8} :
    written bs = some b ↔ bs = b.map some := by
  induction bs generalizing b with
  | nil => cases b <;> simp [written]
  | cons x bs ih =>
    cases x with
    | none => cases b <;> simp [written]
    | some x => cases b <;> simp [written, ih, and_comm]

/-- The bytes lie at the pointer. -/
def Heap.Holds (h : Heap) (p : Pointer) (b : List UInt8) : Prop :=
  match p with
  | .null => b = []
  | .addr i off => ∃ pre post,
    h.block? i = some (pre ++ b.map some ++ post) ∧ off = (pre.length : Int)

section Access

variable {h h' : Heap} {p : Pointer} {b b' : List UInt8} {n i j : Nat} {off : Int}
  {bs pre post old : Block}

theorem split_at (bs : Block) (k n : Nat) :
    bs = bs.take k ++ (bs.drop k).take n ++ bs.drop (k + n) := by
  rw [List.append_assoc, ← List.drop_drop, List.take_append_drop, List.take_append_drop]

/-- **A read returns** exactly what lies at the pointer. -/
theorem load_eq_ok_iff : h.load p n = .ok b ↔ h.Holds p b ∧ b.length = n := by
  cases p with
  | null =>
    change (if n = 0 then Except.ok [] else Except.error MemFault.null) = Except.ok b ↔
      b = [] ∧ b.length = n
    by_cases hn : n = 0
    · rw [if_pos hn, hn, List.length_eq_zero_iff, and_self, Except.ok.injEq]
      exact eq_comm
    · rw [if_neg hn]
      refine iff_of_false (by simp) ?_
      rintro ⟨rfl, rfl⟩
      exact hn rfl
  | addr i off =>
    constructor
    · intro hl
      unfold Heap.load at hl
      cases hbs : h.block? i with
      | none => simp [hbs] at hl
      | some bs =>
        simp only [hbs] at hl
        split at hl
        · rename_i hr
          cases hw : written ((bs.drop off.toNat).take n) with
          | none => simp [hw] at hl
          | some b' =>
            simp only [hw, Except.ok.injEq] at hl
            subst hl
            have hmid := written_eq_some_iff.mp hw
            have hlen := congrArg List.length hmid
            simp only [List.length_take, List.length_drop, List.length_map] at hlen
            refine ⟨⟨bs.take off.toNat, bs.drop (off.toNat + n), ?_, ?_⟩, by omega⟩
            · rw [hbs, ← hmid, ← split_at]
            · rw [List.length_take]
              omega
        · cases hl
    · rintro ⟨⟨pre, post, hbs, rfl⟩, rfl⟩
      have hmid :
          written (((pre ++ b.map some ++ post).drop pre.length).take b.length) = some b := by
        rw [written_eq_some_iff, List.append_assoc, List.drop_left]
        exact List.take_left' (List.length_map _)
      unfold Heap.load
      simp only [hbs, Int.toNat_natCast, hmid]
      rw [if_pos]
      simp only [List.length_append, List.length_map]
      omega

theorem byte_eq {x : UInt8} (hb : h.Holds p [x]) : h.byte p = .ok x := by
  have hl : h.load p 1 = .ok [x] := load_eq_ok_iff.mpr ⟨hb, rfl⟩
  rw [Heap.byte, hl]
  rfl

theorem word_eq {w : Nat} (hb : h.Holds p b) (hw : 8 * b.length = w) :
    h.word w p = .ok (BitVec.ofNat w (littleEndian b)) := by
  have hl : h.load p (w / 8) = .ok b := load_eq_ok_iff.mpr ⟨hb, by omega⟩
  rw [Heap.word, hl]
  rfl

/-- A part of the bytes lies behind the ones before it. -/
theorem Heap.Holds.part {b₁ b₂ b₃ : List UInt8} (hb : h.Holds p (b₁ ++ b₂ ++ b₃)) :
    h.Holds (p.add b₁.length) b₂ := by
  cases p with
  | null =>
    have hnil : b₁ ++ b₂ ++ b₃ = [] := hb
    simp only [List.append_eq_nil_iff] at hnil
    exact hnil.1.2
  | addr i off =>
    obtain ⟨pre, post, hbs, rfl⟩ := hb
    refine ⟨pre ++ b₁.map some, b₃.map some ++ post, ?_, ?_⟩
    · rw [hbs]
      simp
    · rw [List.length_append, List.length_map, Nat.cast_add]

/-- Each of the bytes lies at its index. -/
theorem Heap.Holds.index (hb : h.Holds p b) {k : Nat} (hk : k < b.length) :
    h.Holds (p.add k) [b[k]] := by
  have hsplit : b = b.take k ++ [b[k]] ++ b.drop (k + 1) := by
    rw [List.append_assoc, List.singleton_append, ← List.drop_eq_getElem_cons hk,
      List.take_append_drop]
  rw [hsplit] at hb
  have hpart := hb.part
  rwa [List.length_take_of_le (Nat.le_of_lt hk)] at hpart

/-! ## What a write leaves -/

theorem block?_lt (hi : h.block? i = some bs) : i < h.blocks.length := by
  by_contra hge
  rw [Heap.block?, List.getElem?_eq_none (Nat.le_of_not_lt hge)] at hi
  cases hi

theorem block?_put (hi : h.block? i = some old) (bs : Block) (j : Nat) :
    (h.put i bs).block? j = if j = i then some bs else h.block? j := by
  have hlt := block?_lt hi
  unfold Heap.block? Heap.put
  rw [List.getElem?_set]
  by_cases hj : i = j
  · subst hj
    simp [hlt]
  · rw [if_neg hj, if_neg (Ne.symm hj)]

/-- **A write returns** exactly when its bytes are there, and replaces them. -/
theorem store_eq_ok_iff : h.store (.addr i off) b = .ok h' ↔ ∃ pre old post,
    h.block? i = some (pre ++ old ++ post) ∧ off = (pre.length : Int) ∧ old.length = b.length ∧
      h' = h.put i (pre ++ b.map some ++ post) := by
  constructor
  · intro hs
    unfold Heap.store at hs
    cases hbs : h.block? i with
    | none => simp [hbs] at hs
    | some bs =>
      simp only [hbs] at hs
      split at hs
      · obtain rfl := Except.ok.inj hs
        refine ⟨bs.take off.toNat, (bs.drop off.toNat).take b.length,
          bs.drop (off.toNat + b.length), by rw [← split_at], ?_, ?_, rfl⟩
        · rw [List.length_take]
          omega
        · rw [List.length_take, List.length_drop]
          omega
      · cases hs
  · rintro ⟨pre, old, post, hbs, rfl, hold, rfl⟩
    unfold Heap.store
    simp only [hbs, Int.toNat_natCast]
    rw [if_pos (by simp only [List.length_append]; omega), List.append_assoc pre, List.take_left,
      ← List.append_assoc, ← hold, ← List.length_append, List.drop_left]

/-- **A write changes no size.** -/
theorem size?_store (hs : h.store p b = .ok h') : h'.size? = h.size? := by
  cases p with
  | null =>
    change (if b = [] then Except.ok h else Except.error MemFault.null) = Except.ok h' at hs
    split at hs
    · obtain rfl := Except.ok.inj hs
      rfl
    · cases hs
  | addr i off =>
    obtain ⟨pre, old, post, hbs, -, hold, rfl⟩ := store_eq_ok_iff.mp hs
    funext j
    unfold Heap.size?
    rw [block?_put hbs]
    by_cases hj : j = i
    · rw [if_pos hj, hj, hbs, Option.map_some, Option.map_some]
      simp only [List.length_append, List.length_map, hold]
    · rw [if_neg hj]

theorem size?_memcpy {q : Pointer} (hc : h.memcpy q p n = .ok h') : h'.size? = h.size? := by
  unfold Heap.memcpy at hc
  split at hc
  · cases hc
  · cases hl : h.load p n with
    | error e =>
      rw [hl] at hc
      cases hc
    | ok b =>
      rw [hl] at hc
      exact size?_store hc

/-- A copy of no bytes needs no block. -/
theorem memcpy_null (hb : h.Holds p []) : h.memcpy .null p 0 = .ok h := by
  have hload : h.load p 0 = .ok [] := load_eq_ok_iff.mpr ⟨hb, rfl⟩
  unfold Heap.memcpy
  rw [null_overlaps, if_neg (by decide), hload]
  rfl

/-- A copy of bytes to the front of a block. -/
theorem memcpy_front (hb : h.Holds p b) (ho : (Pointer.addr i 0).overlaps p b.length = false)
    (hi : h.block? i = some old) (hl : b.length ≤ old.length) :
    h.memcpy (.addr i 0) p b.length = .ok (h.put i (b.map some ++ old.drop b.length)) := by
  have hload : h.load p b.length = .ok b := load_eq_ok_iff.mpr ⟨hb, rfl⟩
  have hstore : h.store (.addr i 0) b = .ok (h.put i (b.map some ++ old.drop b.length)) := by
    rw [store_eq_ok_iff]
    refine ⟨[], old.take b.length, old.drop b.length, ?_, rfl, List.length_take_of_le hl, ?_⟩
    · rw [hi, List.nil_append, List.take_append_drop]
    · rw [List.nil_append]
  unfold Heap.memcpy
  rw [ho, if_neg (by decide), hload]
  exact hstore

/-! ## Other blocks -/

/-- All blocks but one are what they were. -/
def Heap.SameBut (h h' : Heap) (i : Nat) : Prop := ∀ j, j ≠ i → h'.block? j = h.block? j

theorem Heap.SameBut.refl (h : Heap) (i : Nat) : h.SameBut h i := fun _ _ => rfl

theorem Heap.SameBut.trans {h'' : Heap} (h₁ : h.SameBut h' i) (h₂ : h'.SameBut h'' i) :
    h.SameBut h'' i :=
  fun j hj => (h₂ j hj).trans (h₁ j hj)

theorem sameBut_put (hi : h.block? i = some old) (bs : Block) : h.SameBut (h.put i bs) i := by
  intro j hj
  rw [block?_put hi, if_neg hj]

theorem block?_push (h : Heap) (bs : Block) (j : Nat) :
    (h.push bs).1.block? j = if j = h.blocks.length then some bs else h.block? j := by
  unfold Heap.block? Heap.push
  by_cases hj : j = h.blocks.length
  · rw [if_pos hj, hj, List.getElem?_concat_length, Option.join_some]
  · rw [if_neg hj, List.getElem?_append]
    split
    · rfl
    · rw [List.getElem?_eq_none (l := h.blocks) (by omega), List.getElem?_eq_none]
      rw [List.length_singleton]
      omega

theorem sameBut_push (h : Heap) (bs : Block) : h.SameBut (h.push bs).1 h.blocks.length := by
  intro j hj
  rw [block?_push, if_neg hj]

/-- The bytes of a new block. -/
theorem holds_push (h : Heap) (b : List UInt8) :
    (h.push (b.map some)).1.Holds (.addr (h.push (b.map some)).2 0) b := by
  refine ⟨[], [], ?_, rfl⟩
  rw [List.nil_append, List.append_nil]
  exact (block?_push h _ _).trans (if_pos rfl)

/-- The bytes of other blocks stay. -/
theorem Heap.Holds.same (hb : h.Holds p b) (hs : h.SameBut h' i) (hp : ∀ off, p ≠ .addr i off) :
    h'.Holds p b := by
  cases p with
  | null => exact hb
  | addr j off =>
    obtain ⟨pre, post, hbs, hoff⟩ := hb
    refine ⟨pre, post, ?_, hoff⟩
    rw [hs j, hbs]
    rintro rfl
    exact hp off rfl

/-- What is there does not lie in a block that comes later. -/
theorem Heap.Holds.ne_new (hb : h.Holds p b) (off : Int) : p ≠ .addr h.blocks.length off := by
  rintro rfl
  obtain ⟨pre, post, hbs, -⟩ := hb
  exact absurd (block?_lt hbs) (lt_irrefl _)

/-! ## A block that grows -/

theorem free_length (h : Heap) (o : Option Nat) : (h.free o).blocks.length = h.blocks.length := by
  cases o with
  | none => rfl
  | some i => exact List.length_set

theorem block?_free (h : Heap) (o : Option Nat) (j : Nat) :
    (h.free o).block? j = if o = some j then none else h.block? j := by
  cases o with
  | none => rfl
  | some i =>
    unfold Heap.block? Heap.free
    rw [List.getElem?_set]
    by_cases hj : i = j
    · subst hj
      by_cases hlt : i < h.blocks.length <;> simp [hlt]
    · rw [if_neg hj, if_neg (by simpa using hj)]

theorem realloc_number (h : Heap) (o : Option Nat) (n : Nat) :
    (h.realloc o n).2 = h.blocks.length :=
  free_length h o

theorem realloc_length (h : Heap) (o : Option Nat) (n : Nat) :
    (h.realloc o n).1.blocks.length = h.blocks.length + 1 := by
  unfold Heap.realloc Heap.push
  rw [List.length_append, free_length, List.length_singleton]

/-- Every block but the old one is what it was, live or not. -/
theorem block?_realloc_of_ne (h : Heap) {o : Option Nat} (n : Nat) (ho : o ≠ some j)
    (hj : j < h.blocks.length) : (h.realloc o n).1.block? j = h.block? j := by
  unfold Heap.realloc
  rw [block?_push, free_length, if_neg (Nat.ne_of_lt hj), block?_free, if_neg ho]

theorem size?_realloc (h : Heap) (o : Option Nat) (n : Nat) :
    (h.realloc o n).1.size? (h.realloc o n).2 = some n := by
  rw [realloc_number]
  unfold Heap.size? Heap.realloc
  rw [block?_push, free_length, if_pos rfl, Option.map_some, List.length_append, List.length_take,
    List.length_replicate]
  congr 1
  omega

/-- Every block but the old one stays. -/
theorem block?_realloc {o : Option Nat} (ho : o ≠ some j) (hj : h.block? j = some bs) :
    (h.realloc o n).1.block? j = some bs := by
  unfold Heap.realloc
  rw [block?_push, free_length, if_neg (Nat.ne_of_lt (block?_lt hj)), block?_free, if_neg ho, hj]

/-- What does not lie in the old block stays. -/
theorem Heap.Holds.realloc {o : Option Nat} (hb : h.Holds p b)
    (hp : ∀ i off, o = some i → p ≠ .addr i off) : (h.realloc o n).1.Holds p b := by
  cases p with
  | null => exact hb
  | addr j off =>
    obtain ⟨pre, post, hbs, hoff⟩ := hb
    exact ⟨pre, post, block?_realloc (fun ho => hp j off ho rfl) hbs, hoff⟩

/-! ## A block that is written from its front -/

/-- The bytes at the front of a block of `n` bytes. -/
def Heap.Starts (h : Heap) (i n : Nat) (b : List UInt8) : Prop :=
  ∃ rest, h.block? i = some (b.map some ++ rest) ∧ b.length + rest.length = n

/-- **The rule of a moving pointer.** A byte is written behind the first `k`; what came after them
is given up. -/
theorem Heap.Starts.store {k : Nat} (hs : h.Starts i n b) (hk : k ≤ b.length) (hn : k < n)
    (hoff : off = (k : Int)) (x : UInt8) : ∃ h',
      h.store (.addr i off) [x] = .ok h' ∧ h'.Starts i n (b.take k ++ [x]) ∧ h.SameBut h' i := by
  obtain ⟨rest, hbs, hlen⟩ := hs
  have hsplit : b.map some ++ rest =
      (b.take k).map some ++ (b.map some ++ rest).drop k := by
    rw [List.map_take, ← List.take_append_of_le_length (by rwa [List.length_map]),
      List.take_append_drop]
  cases hd : (b.map some ++ rest).drop k with
  | nil =>
    have hle := List.drop_eq_nil_iff.mp hd
    rw [List.length_append, List.length_map] at hle
    omega
  | cons o post =>
    rw [hsplit, hd, ← List.singleton_append, ← List.append_assoc] at hbs
    have hlk : ((b.take k).map some).length = k := by
      rw [List.length_map, List.length_take_of_le hk]
    refine ⟨_, store_eq_ok_iff.mpr ⟨_, [o], post, hbs, by rw [hlk, hoff], rfl, rfl⟩,
      ⟨post, ?_, ?_⟩, sameBut_put hbs _⟩
    · rw [block?_put hbs, if_pos rfl, List.map_append]
    · have hl := congrArg List.length hd
      rw [List.length_drop, List.length_append, List.length_map, List.length_cons] at hl
      rw [List.length_append, List.length_take_of_le hk, List.length_singleton]
      omega

theorem Heap.Starts.size? (hs : h.Starts i n b) : h.size? i = some n := by
  obtain ⟨rest, hbs, hlen⟩ := hs
  rw [Heap.size?, hbs, Option.map_some, List.length_append, List.length_map, hlen]

/-- The front of the block is written with these bytes, `p` is behind them, and all other blocks are
as in `h₀`. -/
structure Written (h₀ : Heap) (i n : Nat) (b : List UInt8) (h : Heap) (p : Pointer) : Prop where
  starts : h.Starts i n b
  behind : p = .addr i b.length
  same : h₀.SameBut h i

/-- A new block is written from its front. -/
theorem written_alloc (h : Heap) (n : Nat) :
    Written (h.alloc n).1 h.blocks.length n [] (h.alloc n).1 (.addr h.blocks.length 0) where
  starts := by
    refine ⟨List.replicate n none, ?_, ?_⟩
    · exact (block?_push h _ _).trans (if_pos rfl)
    · rw [List.length_nil, List.length_replicate, Nat.zero_add]
  behind := rfl
  same := .refl _ _

theorem Written.store {h₀ : Heap} (hw : Written h₀ i n b h p) (hn : b.length < n) (x : UInt8) :
    Returns (h.store p [x]) fun h' => Written h₀ i n (b ++ [x]) h' (p.add 1) := by
  obtain ⟨hs, rfl, hsame⟩ := hw
  obtain ⟨h', hstore, hs', hsame'⟩ := hs.store (le_refl b.length) hn rfl x
  rw [List.take_length] at hs'
  refine ⟨h', hstore, hs', ?_, hsame.trans hsame'⟩
  rw [Pointer.add, List.length_append, List.length_singleton, Nat.cast_add, Nat.cast_one]

theorem Written.emit {h₀ : Heap} (hw : Written h₀ i n b h p) (hn : b.length < n) (x : UInt8) :
    Returns (h.emit p x) fun r => Written h₀ i n (b ++ [x]) r.1 r.2 :=
  (hw.store hn x).bind fun _ hw' => returns_pure.mpr hw'

/-- The last byte is replaced. -/
theorem Written.back {h₀ : Heap} {y : UInt8} (hw : Written h₀ i n (b ++ [y]) h p) (x : UInt8) :
    Returns (h.store (p.add (-1)) [x]) fun h' => h'.Starts i n (b ++ [x]) ∧ h₀.SameBut h' i := by
  obtain ⟨hs, rfl, hsame⟩ := hw
  have hlt : b.length < n := by
    obtain ⟨rest, -, hlen⟩ := hs
    rw [List.length_append, List.length_singleton] at hlen
    omega
  have hoff : ((b ++ [y]).length : Int) + -1 = (b.length : Int) := by
    rw [List.length_append, List.length_singleton]
    omega
  obtain ⟨h', hstore, hs', hsame'⟩ := hs.store (k := b.length) (by simp) hlt hoff x
  rw [List.take_left] at hs'
  exact ⟨h', hstore, hs', hsame.trans hsame'⟩

/-- **A string is read up to its end.** -/
theorem string_of_starts (hs : h.Starts i n (b ++ [0])) (hb : (0 : UInt8) ∉ b) :
    h.string (.addr i 0) = .ok b := by
  obtain ⟨rest, hbs, -⟩ := hs
  have htake : ((b ++ [0]).map some ++ rest).takeWhile (fun o => o ≠ some (0 : UInt8)) =
      b.map some := by
    rw [List.map_append, List.append_assoc, List.takeWhile_append_of_pos]
    · simp
    · intro o ho
      obtain ⟨x, hx, rfl⟩ := List.mem_map.mp ho
      simp only [ne_eq, Option.some.injEq, decide_not, Bool.not_eq_true', decide_eq_false_iff_not]
      rintro rfl
      exact hb hx
  unfold Heap.string
  simp only [hbs, Int.toNat_zero, List.drop_zero, htake]
  rw [if_pos, written_eq_some_iff.mpr rfl]
  simp only [List.length_map, List.length_append, List.length_singleton]
  omega

end Access

end PacketMachine.Lib
