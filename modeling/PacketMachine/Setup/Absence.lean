import PacketMachine.Setup.Property

/-!
# Looking up a name that may have no value

`has_value` and `value` of a name, and of the key that `lookup_param_key` gives for it
(`property.cc:204-263`), for the definitions of any `Decoder`, with their accesses to the vectors.

* `param_idx_` and `param_` start empty, and `retain_value` lets them grow to the id that it is
  given. An id is used as it comes, and `NULL_KEY` has the id -1.
* The function of a minor parameter is called behind all accesses to the vectors, and may fail on
  its own (`Looked.throws`).

Results:
* `length_exec`: the vectors reach exactly to the largest id that was ever retained.
* **`absence_defined_iff`**: all four look-ups of a name stay inside the vectors, and tell whether
  it has a value, exactly when the name is known and an id not below its own was retained before.
-/

namespace PacketMachine.Setup

open PacketMachine.Lib Std
open PacketMachine.Decode (Fault indexed indexed_of_lt lt_of_indexed)

variable {M P κ S δ O : Type}

/-- The ids that were ever retained. -/
def retainedEver (ops : List (Op M S)) : List Nat :=
  ops.flatMap fun op =>
    match op with
    | .retain pid => [pid]
    | _ => []

/-- The parameter that the name leads to was retained since the last `init`. -/
def Retained (d : Decoder δ (Class κ)) (ops : List (Op M S)) (name : String) : Prop :=
  ∃ (i : Nat) (s : Def δ (Class κ)), d.lookupParamKey name = ⟨i, some s⟩ ∧ i ∈ retainedNow ops

/-- **What `value` has come to, its accesses to the vectors all inside**, when `retained` says
whether there is a value. -/
inductive Looked (w : Methods M P κ S δ O) (d : Decoder δ (Class κ)) (q : Property κ S) (m : M)
    (name : String) (retained : Prop) : Except Fault (Property κ S × Place) → Prop
  | returns {res : Property κ S × Place} (h : res.2 = .null ↔ ¬ retained) :
    Looked w d q m name retained (.ok res)
  /-- The name is that of a minor parameter, whose function fails on what it is given. -/
  | throws {i j n : Nat} {s : Def δ (Class κ)} {f : δ} {new : Class κ} {o : Object κ S}
    {v : Value κ S} {e : Fault} (hret : retained) (hkey : d.lookupParamKey name = ⟨i, some s⟩)
    (hminor : s.cls = .minor j f new n) (hobj : (q.objs i)[0]? = some o)
    (hslot : (resizeSlots w o.slots n new)[j]? = some v)
    (hfails : w.defer f m (w.raw o.state) v.state = .error e) :
    Looked w d q m name retained (.error e)

/-- **The look-ups of a name are defined**, by the name and by the key that it has, and tell whether
it has a value. -/
structure Property.Answers (w : Methods M P κ S δ O) (d : Decoder δ (Class κ)) (q : Property κ S)
    (m : M) (ops : List (Op M S)) (name : String) : Prop where
  hasValue : Returns (q.hasValue d name) fun b => b = true ↔ Retained d ops name
  hasValueKey : Returns (q.hasValueKey (d.lookupParamKey name)) fun b =>
    b = true ↔ Retained d ops name
  value : Looked w d q m name (Retained d ops name) (q.value w d m name)
  valueKey : Looked w d q m name (Retained d ops name) (q.valueKey w m (d.lookupParamKey name))

/-! ## The vectors grow with what is retained -/

section Length

variable {w : Methods M P κ S δ O} {mods : ModMap δ (Class κ)} {q q' : Property κ S} {op : Op M S}
  {ops : List (Op M S)}

theorem length_retainValue (hs : q.Sized) (d : Def δ (Class κ)) :
    (q.retainValue w d).paramIdx.length = max q.paramIdx.length (d.id + 1) := by
  simp only [Property.retainValue, Property.grow, List.length_set, List.length_append,
    List.length_replicate, hs.length]
  omega

theorem Read.length {m : M} {name : String} {res : Property κ S × Place}
    (h : Read w mods q m name res) : res.1.paramIdx.length = q.paramIdx.length := by
  cases h <;> rfl

theorem length_step (h : q.WF mods) (hstep : step w (Decoder.build mods) q op = some q') (n : Nat) :
    n < q'.paramIdx.length ↔ n < q.paramIdx.length ∨ ∃ j ∈ retainedEver [op], n ≤ j := by
  cases op with
  | init =>
    obtain rfl := Option.some.inj hstep
    simp [Property.init, retainedEver]
  | retain pid =>
    obtain ⟨r, -, rfl⟩ := step_retain hstep
    have hid : (r.finalize pid).id = pid := rfl
    rw [length_retainValue h.sized, hid]
    simp only [retainedEver, List.flatMap_cons, List.flatMap_nil, List.append_nil,
      List.mem_singleton, exists_eq_left]
    omega
  | write pid idx f =>
    obtain rfl := Option.some.inj hstep
    simp [Property.write, Property.modify, retainedEver]
  | read m name =>
    obtain ⟨place, hread⟩ := step_read h hstep
    rw [hread.length]
    simp [retainedEver]

/-- **The vectors reach to the largest id that was retained**, in every run. -/
theorem length_exec (hrun : exec (step w (Decoder.build mods)) {} ops = some q) (n : Nat) :
    n < q.paramIdx.length ↔ ∃ j ∈ retainedEver ops, n ≤ j := by
  refine (exec_induct
    (I := fun ops q => q.WF mods ∧
      ∀ n, n < q.paramIdx.length ↔ ∃ j ∈ retainedEver ops, n ≤ j)
    ⟨wf_empty mods, fun n => by simp [retainedEver]⟩ ?_ ops hrun).2 n
  intro ops q op q' hi hstep
  refine ⟨hi.1.step hstep, fun n => ?_⟩
  rw [length_step hi.1 hstep, hi.2]
  simp only [retainedEver, List.flatMap_append, List.mem_append, or_and_right, exists_or]

end Length

/-! ## The look-ups -/

section Lookups

variable {w : Methods M P κ S δ O} {mods : ModMap δ (Class κ)} {q : Property κ S}
  {ops : List (Op M S)} {m : M} {name : String} {i : Nat} {s : Def δ (Class κ)}

/-- For a name that has a key, the look-ups by name are those by its key. -/
theorem known_eq (hkey : (Decoder.build mods).lookupParamKey name = ⟨i, some s⟩) :
    q.hasValue (Decoder.build mods) name = q.hasValueKey ⟨i, some s⟩ ∧
      q.value w (Decoder.build mods) m name = q.valueKey w m ⟨i, some s⟩ := by
  constructor
  · simp only [Property.hasValue, hkey, not_same_nullKey]
    rfl
  · simp only [Property.value, hkey, not_same_nullKey]
    rfl

theorem retained_iff (hcount : ∀ pid, q.count pid = (retainedNow ops).count pid)
    (hkey : (Decoder.build mods).lookupParamKey name = ⟨i, some s⟩) :
    Retained (Decoder.build mods) ops name ↔ 0 < q.count i := by
  rw [hcount, List.count_pos_iff]
  constructor
  · rintro ⟨i', s', hkey', hmem⟩
    have hid : (i : Int) = i' := congrArg ParamKey.id (hkey.symm.trans hkey')
    exact Int.ofNat.inj hid ▸ hmem
  · exact fun hmem => ⟨i, s, hkey, hmem⟩

/-- **`value` where the vectors reach**, by cases on the definition that the name has. -/
theorem looked_of_lt (h : q.WF mods) (hcount : ∀ pid, q.count pid = (retainedNow ops).count pid)
    (hkey : (Decoder.build mods).lookupParamKey name = ⟨i, some s⟩) (hlt : i < q.paramIdx.length) :
    Looked w (Decoder.build mods) q m name (Retained (Decoder.build mods) ops name)
      (q.value w (Decoder.build mods) m name) := by
  have hret := retained_iff hcount hkey
  obtain ⟨i', r, s', hi, hs, hkey'⟩ := (lookup_cases mods name).resolve_left fun hnull => by
    rw [hkey] at hnull
    cases congrArg ParamKey.definition hnull
  have hsame := hkey.symm.trans hkey'
  obtain rfl : i = i' := Int.ofNat.inj (congrArg ParamKey.id hsame)
  obtain rfl := Option.some.inj (congrArg ParamKey.definition hsame)
  by_cases hc : 0 < q.count i
  · obtain ⟨-, rfl | hsub⟩ := mem_entries hs
    · rw [value_param h.sized hkey hc]
      exact .returns (by simp [hret, hc])
    · obtain ⟨new, defMap, j, f, defer, hd, hj, rfl⟩ := mem_subDefs.mp hsub
      obtain ⟨o, v, hobj, hslot, -, hval⟩ := value_minor (w := w) (m := m) h hi hd hj hkey hc
      rw [hval]
      cases hdefer : w.defer defer m (w.raw o.state) v.state with
      | error e => exact .throws (hret.mpr hc) hkey rfl hobj hslot hdefer
      | ok state => exact .returns (by simp [hret, hc])
  · rw [value_absent hkey hlt (Nat.eq_zero_of_not_pos hc)]
    exact .returns (by simp [hret, hc])

/-- **The look-ups of a name.** For any modules and in every run, the look-ups of a name, by the
name and by its key, are all inside the vectors and tell whether it has a value, exactly when the
name is known and an id not below its own was retained before, for this packet or an earlier one. -/
theorem absence_defined_iff (w : Methods M P κ S δ O) (config : Config) (mods : ModMap δ (Class κ))
    (d : Decoder δ (Class κ)) (hinit : (Decoder.init config mods).2 = .done d) (ops : List (Op M S))
    (q : Property κ S) (hrun : exec (step w d) {} ops = some q) (m : M) (name : String) :
    q.Answers w d m ops name ↔
      ∃ (i : Nat) (s : Def δ (Class κ)), d.lookupParamKey name = ⟨i, some s⟩ ∧
        ∃ j ∈ retainedEver ops, i ≤ j := by
  obtain rfl := init_done hinit
  obtain ⟨hwf, hcount⟩ := count_exec hrun
  constructor
  · intro hans
    obtain ⟨b, hb, -⟩ := hans.hasValueKey
    -- the id of the key was an index of `param_idx_`
    obtain ⟨n, hn, hlt⟩ := lt_of_indexed (returns_of_bind hb)
    rcases lookup_cases mods name with hkey | ⟨i, r, s, -, -, hkey⟩
    · rw [hkey] at hn
      cases hn
    · rw [hkey] at hn
      obtain rfl : i = n := Int.ofNat.inj hn
      exact ⟨i, s, hkey, (length_exec hrun i).mp hlt⟩
  · rintro ⟨i, s, hkey, hever⟩
    have hlt := (length_exec hrun i).mpr hever
    have hhas : Returns (q.hasValue (Decoder.build mods) name) fun b =>
        b = true ↔ Retained (Decoder.build mods) ops name := by
      rw [hasValue_known hkey hlt, retained_iff hcount hkey]
      exact returns_ok.mpr decide_eq_true_iff
    have hval := looked_of_lt (w := w) (m := m) hwf hcount hkey hlt
    obtain ⟨hhaskey, hvalkey⟩ := known_eq (w := w) (q := q) (m := m) hkey
    refine ⟨hhas, ?_, hval, ?_⟩
    · rwa [hkey, ← hhaskey]
    · rwa [hkey, ← hvalkey]

/-- The look-ups of a parameter that the packet before has had are defined. -/
theorem absence_defined_batch : ∃ q : Property Empty Decode.Cell,
    exec (step (packetMethods fun _ => []) (Decoder.build batchHeader)) {}
      [.init, .retain 0, .init] = some q ∧
      q.Answers (packetMethods fun _ => []) (Decoder.build batchHeader) (fun _ => none)
        [.init, .retain 0, .init] "Ethernet.p" :=
  ⟨_, rfl, (absence_defined_iff (packetMethods fun _ => []) {} batchHeader _ batchHeader_init
    [.init, .retain 0, .init] _ rfl (fun _ => none) "Ethernet.p").mpr
      ⟨0, _, rfl, 0, by decide, Nat.le_refl 0⟩⟩

end Lookups

end PacketMachine.Setup
