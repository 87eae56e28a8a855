import Mathlib

/-!
# Tables that a loop fills

A sorted map that is filled entry by entry, and a list whose elements are numbered as they are
appended.

* `insertAll` keeps the first entry of a key, `assignAll` the last one. `getElem?_insertAll` and
  `getElem?_assignAll` say what is found then.
* `Lists`: a map has exactly the entries of a list. `lists_foldl` is the rule for a loop that adds
  them.
* `foldl_number`: a loop that gives each element the length of the list so far numbers the elements.
-/

namespace PacketMachine.Lib

open Std

universe u v w

variable {κ : Type u} {α : Type v} {β : Type w} {cmp : κ → κ → Ordering}

/-! ## Maps -/

/-- Inserts the entries whose key is new. -/
def insertAll (m : TreeMap κ α cmp) (l : List (κ × α)) : TreeMap κ α cmp :=
  l.foldl (fun m e => m.insertIfNew e.1 e.2) m

/-- Inserts the entries or replaces what their key had. -/
def assignAll (m : TreeMap κ α cmp) (l : List (κ × α)) : TreeMap κ α cmp :=
  l.foldl (fun m e => m.insert e.1 e.2) m

/-- The last value that a list has for a key. -/
def lastOf [DecidableEq κ] (l : List (κ × α)) (k : κ) : Option α :=
  (l.filter (·.1 = k)).getLast?.map Prod.snd

section Maps

variable [TransCmp cmp] [LawfulEqCmp cmp] {m : TreeMap κ α cmp} {l : List (κ × α)} {k : κ} {a : α}

theorem getElem?_insertAll_or (hl : (l.map Prod.fst).Nodup) :
    (insertAll m l)[k]? = some a ↔ m[k]? = some a ∨ m[k]? = none ∧ (k, a) ∈ l := by
  induction l generalizing m with
  | nil => simp [insertAll]
  | cons e l ih =>
    obtain ⟨k', a'⟩ := e
    rw [List.map_cons, List.nodup_cons] at hl
    have hmem : k' ∉ m ↔ m[k']? = none := by
      rw [TreeMap.mem_iff_isSome_getElem?, Option.not_isSome_iff_eq_none]
    have hcmp : cmp k' k = .eq ↔ k' = k := LawfulEqCmp.compare_eq_iff_eq
    change (insertAll (m.insertIfNew k' a') l)[k]? = _ ↔ _
    rw [ih hl.2, TreeMap.getElem?_insertIfNew]
    by_cases hk : k' = k
    · subst hk
      have hno : (k', a) ∉ l := fun h => hl.1 (List.mem_map.mpr ⟨_, h, rfl⟩)
      by_cases hn : m[k']? = none
      · rw [if_pos ⟨hcmp.mpr rfl, hmem.mpr hn⟩, hn]
        simp [hno, eq_comm]
      · rw [if_neg fun h => hn (hmem.mp h.2)]
        simp [hn]
    · rw [if_neg fun h => hk (hcmp.mp h.1)]
      simp [Ne.symm hk]

/-- What is found was there or is an entry. -/
theorem of_getElem?_insertAll (h : (insertAll m l)[k]? = some a) : m[k]? = some a ∨ (k, a) ∈ l := by
  induction l generalizing m with
  | nil => exact .inl h
  | cons e l ih =>
    rcases ih (m := m.insertIfNew e.1 e.2) h with hm | hmem
    · rw [TreeMap.getElem?_insertIfNew] at hm
      by_cases hk : cmp e.1 k = .eq ∧ e.1 ∉ m
      · rw [if_pos hk] at hm
        obtain rfl := LawfulEqCmp.compare_eq_iff_eq.mp hk.1
        exact .inr (List.mem_cons.mpr (.inl (Prod.ext rfl (Option.some.inj hm).symm)))
      · exact .inl (by rwa [if_neg hk] at hm)
    · exact .inr (List.mem_cons_of_mem _ hmem)

/-- **When no key comes twice, exactly the entries are found.** -/
theorem getElem?_insertAll (hl : (l.map Prod.fst).Nodup) :
    (insertAll (∅ : TreeMap κ α cmp) l)[k]? = some a ↔ (k, a) ∈ l := by
  simp [getElem?_insertAll_or hl]

/-- **The last value of a key is found.** -/
theorem getElem?_assignAll [DecidableEq κ] (m : TreeMap κ α cmp) (l : List (κ × α)) (k : κ) :
    (assignAll m l)[k]? = (lastOf l k).or m[k]? := by
  induction l using List.reverseRecOn with
  | nil => rfl
  | append_singleton l e ih =>
    have hsnoc : assignAll m (l ++ [e]) = (assignAll m l).insert e.1 e.2 := by
      simp [assignAll]
    rw [hsnoc, TreeMap.getElem?_insert, ih]
    simp only [LawfulEqCmp.compare_eq_iff_eq]
    by_cases hk : e.1 = k
    · simp [lastOf, hk]
    · simp [lastOf, hk]

/-- The keys of a sorted map come once each. -/
theorem nodup_keys_toList (m : TreeMap κ α cmp) : (m.toList.map Prod.fst).Nodup := by
  refine List.pairwise_map.mpr (TreeMap.distinct_keys_toList.imp fun hne heq => hne ?_)
  exact LawfulEqCmp.compare_eq_iff_eq.mpr heq

theorem mem_iff_toList {m : TreeMap κ α cmp} : k ∈ m ↔ ∃ a, (k, a) ∈ m.toList := by
  rw [TreeMap.mem_iff_isSome_getElem?, Option.isSome_iff_exists]
  exact exists_congr fun a => TreeMap.mem_toList_iff_getElem?_eq_some.symm

/-- A map that is copied into another one adds the entries whose key is new. -/
theorem getElem?_copy {m' : TreeMap κ α cmp} :
    (insertAll m m'.toList)[k]? = some a ↔ m[k]? = some a ∨ m[k]? = none ∧ m'[k]? = some a := by
  rw [getElem?_insertAll_or (nodup_keys_toList m'), TreeMap.mem_toList_iff_getElem?_eq_some]

theorem mem_assignAll : k ∈ assignAll m l ↔ k ∈ m ∨ k ∈ l.map Prod.fst := by
  induction l generalizing m with
  | nil => simp [assignAll]
  | cons e l ih =>
    change k ∈ assignAll (m.insert e.1 e.2) l ↔ _
    rw [ih, TreeMap.mem_insert, LawfulEqCmp.compare_eq_iff_eq, List.map_cons, List.mem_cons,
      eq_comm, or_assoc, or_left_comm]

theorem mem_insertAll : k ∈ insertAll m l ↔ k ∈ m ∨ k ∈ l.map Prod.fst := by
  induction l generalizing m with
  | nil => simp [insertAll]
  | cons e l ih =>
    change k ∈ insertAll (m.insertIfNew e.1 e.2) l ↔ _
    rw [ih, TreeMap.mem_insertIfNew, LawfulEqCmp.compare_eq_iff_eq, List.map_cons, List.mem_cons,
      eq_comm, or_assoc, or_left_comm]

omit [TransCmp cmp] [LawfulEqCmp cmp] in
/-- When no key comes twice, the last value is the only one. -/
theorem lastOf_eq_some_iff [DecidableEq κ] (hl : (l.map Prod.fst).Nodup) :
    lastOf l k = some a ↔ (k, a) ∈ l := by
  induction l using List.reverseRecOn with
  | nil => simp [lastOf]
  | append_singleton l e ih =>
    rw [List.map_append, List.nodup_append] at hl
    obtain ⟨hl, -, hlast⟩ := hl
    obtain ⟨k', a'⟩ := e
    by_cases hk : k' = k
    · subst hk
      have hno : (k', a) ∉ l := fun h => hlast _ (List.mem_map.mpr ⟨_, h, rfl⟩) _ (by simp) rfl
      simp [lastOf, hno, eq_comm]
    · rw [List.mem_append, ← ih hl]
      simp [lastOf, hk, Ne.symm hk]

omit [TransCmp cmp] [LawfulEqCmp cmp] in
/-- Entries that keep their key or go do not make a key come twice. -/
theorem nodup_keys_filterMap (hl : (l.map Prod.fst).Nodup) (f : κ × α → Option β) :
    ((l.filterMap fun e => (f e).map fun b => (e.1, b)).map Prod.fst).Nodup := by
  have hsub : ∀ l : List (κ × α), List.Sublist
      ((l.filterMap fun e => (f e).map fun b => (e.1, b)).map Prod.fst) (l.map Prod.fst) := by
    intro l
    induction l with
    | nil => exact List.Sublist.slnil
    | cons e l ih =>
      cases hval : f e with
      | none => simpa [hval] using ih.trans (List.sublist_cons_self _ _)
      | some v => simpa [hval] using ih
  exact hl.sublist (hsub l)

/-- The map has exactly the entries of the list. -/
def Lists (m : TreeMap κ α cmp) (l : List (κ × α)) : Prop := ∀ k a, m[k]? = some a ↔ (k, a) ∈ l

omit [LawfulEqCmp cmp] in
theorem lists_empty : Lists (∅ : TreeMap κ α cmp) [] := by simp [Lists]

theorem lists_insertAll (hl : (l.map Prod.fst).Nodup) :
    Lists (insertAll (∅ : TreeMap κ α cmp) l) l :=
  fun _ _ => getElem?_insertAll hl

/-- **A loop over the map** goes through the entries of a sorted list in the order of the list. -/
theorem Lists.toList_eq (h : Lists m l) (hl : l.Pairwise fun e e' => cmp e.1 e'.1 = .lt) :
    m.toList = l := by
  have hne : ∀ {e e' : κ × α}, cmp e.1 e'.1 = .lt → e ≠ e' := by
    rintro e _ hlt rfl
    simp [ReflCmp.compare_self] at hlt
  have hm := TreeMap.ordered_keys_toList (t := m)
  have hperm : m.toList.Perm l :=
    (List.perm_ext_iff_of_nodup (hm.imp hne) (hl.imp hne)).mpr fun e =>
      TreeMap.mem_toList_iff_getElem?_eq_some.trans (h e.1 e.2)
  refine List.Perm.eq_of_pairwise (fun e e' _ _ hlt hlt' => ?_) hm hl hperm
  exact absurd hlt' (OrientedCmp.not_lt_of_lt hlt)

/-- The same for the insertions of a sorted list. -/
theorem toList_insertAll (hl : l.Pairwise fun e e' => cmp e.1 e'.1 = .lt) :
    (insertAll (∅ : TreeMap κ α cmp) l).toList = l := by
  refine Lists.toList_eq (lists_insertAll ?_) hl
  refine List.pairwise_map.mpr (hl.imp fun {e e'} hlt heq => ?_)
  simp [heq, ReflCmp.compare_self] at hlt

omit [TransCmp cmp] [LawfulEqCmp cmp] in
/-- Nothing is found under a key that no entry has. -/
theorem Lists.getElem?_eq_none (h : Lists m l) (hk : ∀ a, (k, a) ∉ l) : m[k]? = none := by
  cases hm : m[k]? with
  | none => rfl
  | some a => exact absurd ((h k a).mp hm) (hk a)

/-- New entries are added to the others. -/
theorem Lists.insertAll {l' : List (κ × α)} (h : Lists m l) (hl' : (l'.map Prod.fst).Nodup)
    (hnew : ∀ e ∈ l, ∀ e' ∈ l', e.1 ≠ e'.1) : Lists (insertAll m l') (l ++ l') := by
  intro k a
  rw [getElem?_insertAll_or hl', h, List.mem_append]
  refine or_congr_right ⟨fun hk => hk.2, fun hk => ⟨?_, hk⟩⟩
  exact h.getElem?_eq_none fun a' ha' => hnew _ ha' _ hk rfl

/-- A map with new entries is copied into another one. -/
theorem Lists.copy {m' : TreeMap κ α cmp} {l' : List (κ × α)} (h : Lists m l) (h' : Lists m' l')
    (hnew : ∀ e ∈ l, ∀ e' ∈ l', e.1 ≠ e'.1) : Lists (Lib.insertAll m m'.toList) (l ++ l') := by
  intro k a
  rw [getElem?_copy, h, h', List.mem_append]
  refine or_congr_right ⟨fun hk => hk.2, fun hk => ⟨?_, hk⟩⟩
  exact h.getElem?_eq_none fun a' ha' => hnew _ ha' _ hk rfl

omit [LawfulEqCmp cmp] in
/-- **A loop that adds the entries of one element after the other**, when no two elements share a
key. -/
theorem lists_foldl {γ : Type*} {step : TreeMap κ α cmp → γ → TreeMap κ α cmp}
    {entries : γ → List (κ × α)}
    (hstep : ∀ m l c, Lists m l → (∀ e ∈ l, ∀ e' ∈ entries c, e.1 ≠ e'.1) →
      Lists (step m c) (l ++ entries c))
    {cs : List γ} (hcs : cs.Pairwise fun c c' => ∀ e ∈ entries c, ∀ e' ∈ entries c', e.1 ≠ e'.1) :
    Lists (cs.foldl step ∅) (cs.flatMap entries) := by
  induction cs using List.reverseRecOn with
  | nil => exact lists_empty
  | append_singleton cs c ih =>
    rw [List.pairwise_append] at hcs
    obtain ⟨hcs, -, hlast⟩ := hcs
    rw [List.foldl_append, List.flatMap_append, List.flatMap_singleton]
    refine hstep _ _ c (ih hcs) fun e he => ?_
    obtain ⟨c', hc', he⟩ := List.mem_flatMap.mp he
    exact hlast c' hc' c (List.mem_singleton_self c) e he

omit [LawfulEqCmp cmp] in
/-- What is found behind a loop is an entry of an element that it went through. -/
theorem of_getElem?_foldl {γ : Type*} {step : TreeMap κ α cmp → γ → TreeMap κ α cmp}
    {entries : γ → List (κ × α)}
    (hstep : ∀ m c, (step m c)[k]? = some a → m[k]? = some a ∨ (k, a) ∈ entries c) {cs : List γ}
    (h : (cs.foldl step ∅)[k]? = some a) : ∃ c ∈ cs, (k, a) ∈ entries c := by
  induction cs using List.reverseRecOn with
  | nil => simp at h
  | append_singleton cs c ih =>
    rw [List.foldl_append] at h
    rcases hstep _ c h with h | h
    · obtain ⟨c', hc', hmem⟩ := ih h
      exact ⟨c', List.mem_append_left _ hc', hmem⟩
    · exact ⟨c, by simp, h⟩

end Maps

/-! ## Vectors with a default -/

/-- A vector that grows by the default is the same to a reader. -/
theorem getD_append_replicate (v : List α) (n i : Nat) (a : α) :
    ((v ++ List.replicate n a)[i]?).getD a = (v[i]?).getD a := by
  rw [List.getElem?_append]
  by_cases h : i < v.length
  · rw [if_pos h]
  · rw [if_neg h, List.getElem?_eq_none (Nat.le_of_not_lt h), List.getElem?_replicate]
    split <;> rfl

theorem getD_set {v : List α} {i : Nat} (hi : i < v.length) (j : Nat) (a b : α) :
    ((v.set i a)[j]?).getD b = if j = i then a else (v[j]?).getD b := by
  rw [List.getElem?_set]
  by_cases h : i = j
  · subst h
    simp [hi]
  · rw [if_neg h, if_neg (Ne.symm h)]

theorem getD_modify (f : List α → List α) (hf : f [] = []) (v : List (List α)) (i j : Nat) :
    ((v.modify i f)[j]?).getD [] = if j = i then f ((v[j]?).getD []) else (v[j]?).getD [] := by
  rw [List.getElem?_modify]
  by_cases h : i = j
  · subst h
    cases v[i]? <;> simp [hf]
  · rw [if_neg (Ne.symm h)]
    cases v[j]? <;> simp [h]

theorem modify_eq_set_getElem (f : α → α) {v : List α} {i : Nat} (hi : i < v.length) :
    v.modify i f = v.set i (f v[i]) := by
  refine List.ext_getElem? fun j => ?_
  rw [List.getElem?_modify, List.getElem?_set]
  by_cases h : i = j
  · subst h
    simp [hi]
  · simp [h]

/-! ## Numbered lists -/

/-- **A loop that numbers what it goes through**: each element is treated with the number of the
elements before it. -/
theorem foldl_number {σ : Type*} {μ : Type*} (step : σ → α → σ) (size : σ → Nat) (part : σ → μ)
    (step' : μ → α × Nat → μ) (hsize : ∀ s a, size (step s a) = size s + 1)
    (hpart : ∀ s a, part (step s a) = step' (part s) (a, size s)) (l : List α) (s : σ) :
    part (l.foldl step s) = (l.zipIdx (size s)).foldl step' (part s) := by
  induction l generalizing s with
  | nil => rfl
  | cons a l ih => rw [List.foldl_cons, ih, hpart, hsize, List.zipIdx_cons, List.foldl_cons]

theorem pairwise_zipIdx {R : α → α → Prop} {l : List α} (h : l.Pairwise R) :
    l.zipIdx.Pairwise fun e e' => R e.1 e'.1 := by
  have hmap : l.zipIdx.map Prod.fst = l := List.zipIdx_map_fst ..
  rw [← hmap] at h
  exact List.pairwise_map.mp h

end PacketMachine.Lib
