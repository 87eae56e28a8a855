import PacketMachine.Setup.Property
import PacketMachine.Decode.Same

/-!
# Minor parameters are isolated

All minor parameters of a header share one pooled `ValueStorage`, which stays for later packets
(`module.cc:66-143`, `property.cc:222-250`). Here is what a reader of one of them gets all the same.

* `currentCalls` are the calls that the decoders of the current packet made on the first value of a
  parameter, since they retained it. Reads are none of them.
* A function of a minor parameter is one of the bytes of the header when it leaves the same to be
  seen whatever was in its slot before (`Overwrites`). The functions of the built-in modules are
  (`packetMethods_overwrites`).

Results:
* `current_exec`: the state of the major value is made by the calls for the current packet.
* `Read.first`: a read leaves it alone.
* **`minor_isolated`**: what is seen of a minor parameter is what its own function makes of the
  major value; reads before, in between and behind make no difference.
-/

namespace PacketMachine.Setup

open PacketMachine.Lib Std

variable {M P κ S δ O : Type}

/-- What the function leaves to be seen does not depend on what was there before. -/
def Methods.Overwrites (w : Methods M P κ S δ O) (new : Class κ) (defer : δ) : Prop :=
  ∀ (m : M) (ptr : P) (s s' : S),
    (w.defer defer m ptr s).map (w.look m new) = (w.defer defer m ptr s').map (w.look m new)

/-- Whether a value was retained since `init`, and the calls on the first one. -/
def currentStep (pid : Nat) (st : Bool × List (S → S)) : Op M S → Bool × List (S → S)
  | .init => (false, [])
  | .retain pid' => if pid' = pid then (true, if st.1 then st.2 else []) else st
  | .write pid' idx f => if pid' = pid ∧ idx = 0 then (st.1, st.2 ++ [f]) else st
  | .read _ _ => st

/-- The calls on the first value of an id, since it was retained for the current packet. -/
def currentCalls (pid : Nat) (ops : List (Op M S)) : List (S → S) :=
  (ops.foldl (currentStep pid) (false, [])).2

/-- The state after calls. -/
def afterCalls (calls : List (S → S)) (s : S) : S := calls.foldl (fun s f => f s) s

/-- What the caller of `value` sees: where the value lies, and what its accessors show. -/
def Property.seen (w : Methods M P κ S δ O) (d : Decoder δ (Class κ)) (q : Property κ S) (m : M)
    (name : String) : Except Decode.Fault (Place × Option O) :=
  (q.value w d m name).map fun res =>
    (res.2, (res.1.at? w res.2).map fun v => w.look m v.cls v.state)

/-! ## The major value -/

section Major

variable {w : Methods M P κ S δ O} {mods : ModMap δ (Class κ)} {q q' : Property κ S} {m : M}
  {name : String}
  {pid : Nat} {ops : List (Op M S)}

/-- **A read leaves the first objects as they are**, their slots apart. -/
theorem Read.first {res : Property κ S × Place} (hread : Read w mods q m name res) {o : Object κ S}
    (ho : (q.objs pid)[0]? = some o) :
    ∃ o', (res.1.objs pid)[0]? = some o' ∧ o'.toValue = o.toValue := by
  cases hread with
  | null habsent => exact ⟨o, ho, rfl⟩
  | obj hi hkey hc => exact ⟨o, ho, rfl⟩
  | @slot i j r new defMap f defer o₁ v state hi hd hj hkey hc ho₁ hv hcls hstate =>
    rw [Property.setSlots, objs_modify]
    by_cases hp : pid = i
    · rw [if_pos hp, List.getElem?_modify, ho]
      exact ⟨_, rfl, rfl⟩
    · rw [if_neg hp]
      exact ⟨o, ho, rfl⟩

theorem retainValue_first (hs : q.Sized) (d : Def δ (Class κ)) :
    ((q.retainValue w d).objs pid)[0]? =
      if pid = d.id ∧ q.count pid = 0 then some (q.fresh w d) else (q.objs pid)[0]? := by
  have hle := hs.count_le pid
  rw [objs_retainValue]
  by_cases hp : pid = d.id
  · by_cases hc : q.count pid = 0
    · have hboth : pid = d.id ∧ q.count pid = 0 := ⟨hp, hc⟩
      rw [if_pos hp, if_pos hboth, hc]
      cases q.objs pid <;> rfl
    · have hnot : ¬ (pid = d.id ∧ q.count pid = 0) := fun hboth => hc hboth.2
      rw [if_pos hp, if_neg hnot]
      by_cases hl : q.count pid < (q.objs pid).length
      · rw [if_pos hl, List.getElem?_set_ne hc]
      · rw [if_neg hl, List.getElem?_append_left (by omega)]
  · have hnot : ¬ (pid = d.id ∧ q.count pid = 0) := fun hboth => hp hboth.1
    rw [if_neg hp, if_neg hnot]

/-- The object is new or cleared. -/
theorem fresh_state (w : Methods M P κ S δ O) (q : Property κ S) (d : Def δ (Class κ)) :
    (q.fresh w d).state = w.new (q.fresh w d).cls ∨
      ∃ old, (q.fresh w d).state = w.clear (q.fresh w d).cls old := by
  unfold Property.fresh
  split
  · rename_i o _
    exact .inr ⟨o.state, rfl⟩
  · exact .inl rfl

/-- What is known of the first value of an id, behind the calls. -/
structure Known (w : Methods M P κ S δ O) (pid : Nat) (st : Bool × List (S → S))
    (q : Property κ S) :
    Prop where
  counted : st.1 = true ↔ 0 < q.count pid
  first : 0 < q.count pid → ∃ o s₀, (q.objs pid)[0]? = some o ∧
    (s₀ = w.new o.cls ∨ ∃ old, s₀ = w.clear o.cls old) ∧ o.state = afterCalls st.2 s₀

theorem Known.retain {st : Bool × List (S → S)} (h : Known w pid st q) (hs : q.Sized)
    (d : Def δ (Class κ)) :
    Known w pid (currentStep pid st (.retain d.id : Op M S)) (q.retainValue w d) := by
  by_cases hp : d.id = pid
  · have hcount := count_retainValue (w := w) hs d pid
    rw [if_pos hp.symm] at hcount
    rw [currentStep, if_pos hp]
    refine ⟨iff_of_true rfl (by omega), fun _ => ?_⟩
    rw [retainValue_first hs]
    by_cases hc : q.count pid = 0
    · -- the first value since `init`
      have hboth : pid = d.id ∧ q.count pid = 0 := ⟨hp.symm, hc⟩
      have hfalse : ¬ st.1 = true := fun htrue => Nat.ne_of_gt (h.counted.mp htrue) hc
      rw [if_pos hboth, if_neg hfalse]
      exact ⟨_, _, rfl, fresh_state w q d, rfl⟩
    · have hnot : ¬ (pid = d.id ∧ q.count pid = 0) := fun hboth => hc hboth.2
      have hpos := Nat.pos_of_ne_zero hc
      rw [if_neg hnot, if_pos (h.counted.mpr hpos)]
      exact h.first hpos
  · have hcount := count_retainValue (w := w) hs d pid
    have hnot : ¬ (pid = d.id ∧ q.count pid = 0) := fun hboth => hp hboth.1.symm
    rw [if_neg (Ne.symm hp)] at hcount
    rw [currentStep, if_neg hp]
    refine ⟨by rw [hcount]; exact h.counted, fun hpos => ?_⟩
    rw [retainValue_first hs, if_neg hnot]
    exact h.first (hcount ▸ hpos)

theorem Known.write {st : Bool × List (S → S)} (h : Known w pid st q) (pid' idx : Nat) (f : S → S) :
    Known w pid (currentStep pid st (.write pid' idx f : Op M S)) (q.write pid' idx f) := by
  rw [currentStep]
  by_cases hboth : pid' = pid ∧ idx = 0
  · obtain ⟨rfl, rfl⟩ := hboth
    have hobjs : ((q.write pid' 0 f).objs pid')[0]? =
        ((q.objs pid')[0]?).map fun o => { o with state := f o.state } := by
      rw [Property.write, objs_modify, if_pos rfl, List.getElem?_modify_eq]
      rfl
    rw [if_pos ⟨rfl, rfl⟩]
    refine ⟨h.counted, fun hpos => ?_⟩
    obtain ⟨o, s₀, ho, hs₀, hstate⟩ := h.first hpos
    rw [hobjs, ho]
    refine ⟨_, s₀, rfl, hs₀, ?_⟩
    rw [afterCalls, List.foldl_append]
    exact congrArg f hstate
  · have hobjs : ((q.write pid' idx f).objs pid)[0]? = (q.objs pid)[0]? := by
      rw [Property.write, objs_modify]
      by_cases hp : pid = pid'
      · have hidx : idx ≠ 0 := fun hidx => hboth ⟨hp.symm, hidx⟩
        rw [if_pos hp, List.getElem?_modify_ne _ _ hidx]
      · rw [if_neg hp]
    rw [if_neg hboth]
    refine ⟨h.counted, fun hpos => ?_⟩
    rw [hobjs]
    exact h.first hpos

/-- A step keeps what is known. -/
theorem Known.step {st : Bool × List (S → S)} {op : Op M S} (h : Known w pid st q) (hwf : q.WF mods)
    (hstep : step w (Decoder.build mods) q op = some q') :
    Known w pid (currentStep pid st op) q' := by
  cases op with
  | init =>
    obtain rfl := Option.some.inj hstep
    have hzero := count_init q pid
    exact ⟨iff_of_false Bool.false_ne_true (by omega), fun hpos => by omega⟩
  | retain pid' =>
    obtain ⟨r, hr, rfl⟩ := step_retain hstep
    exact h.retain hwf.sized (r.finalize pid')
  | write pid' idx f =>
    obtain rfl := Option.some.inj hstep
    exact h.write pid' idx f
  | read m name =>
    obtain ⟨place, hread⟩ := step_read hwf hstep
    have hcount := (hread.keeps hwf).2 pid
    refine ⟨by rw [hcount]; exact h.counted, fun hpos => ?_⟩
    obtain ⟨o, s₀, ho, hs₀, hstate⟩ := h.first (hcount ▸ hpos)
    obtain ⟨o', ho', heq⟩ := hread.first ho
    rw [show o.cls = o'.cls from congrArg Value.cls heq.symm] at hs₀
    rw [show o.state = o'.state from congrArg Value.state heq.symm] at hstate
    exact ⟨o', s₀, ho', hs₀, hstate⟩

/-- **The current major value**: new or cleared, and then what was called on it for this packet. -/
theorem current_exec (hrun : exec (Setup.step w (Decoder.build mods)) {} ops = some q)
    (hc : 0 < q.count pid) :
    ∃ o s₀, (q.objs pid)[0]? = some o ∧ (s₀ = w.new o.cls ∨ ∃ old, s₀ = w.clear o.cls old) ∧
      o.state = afterCalls (currentCalls pid ops) s₀ := by
  have hknown : q.WF mods ∧ Known w pid (ops.foldl (currentStep pid) (false, [])) q := by
    refine exec_induct
      (I := fun ops q => q.WF mods ∧ Known w pid (ops.foldl (currentStep pid) (false, [])) q)
      ⟨wf_empty mods, by simp [Property.count], by simp [Property.count]⟩
      (fun ops q op q' hi hstep => ?_)
      ops hrun
    rw [List.foldl_append]
    exact ⟨hi.1.step hstep, hi.2.step hi.1 hstep⟩
  exact hknown.2.first hc

end Major

/-! ## A minor parameter -/

section Minor

variable {w : Methods M P κ S δ O} {mods : ModMap δ (Class κ)} {q q' : Property κ S} {m : M}
  {i j : Nat} {r : Declared δ (Class κ)} {new : Class κ} {defMap : TreeMap String δ}
  {f name : String}
  {defer : δ}

/-- The key of a minor parameter has the definition with its function. -/
theorem lookup_minor (h : Plain mods) (hi : (declared mods)[i]? = some r)
    (hd : r.definition = .major new defMap)
    (hj : defMap.toList[j]? = some (f, defer)) :
    (Decoder.build mods).lookupParamKey (dotted r.name f) =
      ⟨i, some (minorDef r i j f defer new defMap)⟩ := by
  refine lookupParamKey_of_entry h hi
    (List.mem_map.mpr ⟨minorDef r i j f defer new defMap, ?_, rfl⟩)
  exact List.mem_cons_of_mem _ (mem_subDefs.mpr ⟨new, defMap, j, f, defer, hd, hj, rfl⟩)

/-- **What is seen of a minor parameter** is what its function makes of the major value. -/
theorem seen_minor (hwf : q.WF mods) (hi : (declared mods)[i]? = some r)
    (hd : r.definition = .major new defMap)
    (hj : defMap.toList[j]? = some (f, defer))
    (hkey : (Decoder.build mods).lookupParamKey name =
      ⟨i, some (minorDef r i j f defer new defMap)⟩)
    (hover : w.Overwrites new defer) (hc : 0 < q.count i) {o : Object κ S}
    (ho : (q.objs i)[0]? = some o) :
    q.seen w (Decoder.build mods) m name =
      (w.defer defer m (w.raw o.state) (w.new new)).map fun s =>
        (.slot i j, some (w.look m new s)) := by
  obtain ⟨o', v, ho', hv, hcls, hval⟩ := value_minor (w := w) (m := m) hwf hi hd hj hkey hc
  obtain rfl := Option.some.inj (ho.symm.trans ho')
  have hlt := (List.getElem?_eq_some_iff.mp hv).1
  have hat : ∀ state,
      ((q.setSlots i ((resizeSlots w o.slots defMap.size new).set j { v with state })).at? w
        (.slot i j)) = some { v with state } :=
    fun state => by rw [at?_setSlots ho, List.getElem?_set_self hlt]
  have hseen : q.seen w (Decoder.build mods) m name =
      ((w.defer defer m (w.raw o.state) v.state).map (w.look m new)).map fun look =>
        (.slot i j, some look) := by
    rw [Property.seen, hval]
    cases w.defer defer m (w.raw o.state) v.state with
    | error e => rfl
    | ok state =>
      change Except.ok (_, ((q.setSlots i _).at? w (.slot i j)).map _) = _
      rw [hat, Option.map_some, hcls]
      rfl
  rw [hseen, hover m (w.raw o.state) v.state (w.new new)]
  cases w.defer defer m (w.raw o.state) (w.new new) <;> rfl

/-- A slot that shows what its function makes of the major value. -/
structure Holds (w : Methods M P κ S δ O) (m : M) (i j : Nat) (new : Class κ) (defer : δ)
    (base : Value κ S)
    (look : O) (q : Property κ S) : Prop where
  result : (w.defer defer m (w.raw base.state) (w.new new)).map (w.look m new) = .ok look
  slot : ∃ o v, (q.objs i)[0]? = some o ∧ o.toValue = base ∧ o.slots[j]? = some v ∧ v.cls = new ∧
    w.look m new v.state = look

/-- A read of any name keeps it. -/
theorem Holds.read {base : Value κ S} {look : O} (h : Holds w m i j new defer base look q)
    (hi : (declared mods)[i]? = some r) (hd : r.definition = .major new defMap)
    (hj : defMap.toList[j]? = some (f, defer)) (hover : w.Overwrites new defer)
    {res : Property κ S × Place} (hread : Read w mods q m name res) :
    Holds w m i j new defer base look res.1 := by
  refine ⟨h.result, ?_⟩
  obtain ⟨o, v, ho, hbase, hv, hcls, hlook⟩ := h.slot
  cases hread with
  | null habsent => exact h.slot
  | obj hi' hkey hc => exact h.slot
  | @slot i' j' r' new' defMap' f' defer' o' v' state hi' hd' hj' hkey hc ho' hv' hcls' hstate =>
    by_cases hp : i = i'
    · subst hp
      obtain rfl := Option.some.inj (hi.symm.trans hi')
      obtain ⟨rfl, rfl⟩ := ParamDef.major.inj (hd.symm.trans hd')
      obtain rfl := Option.some.inj (ho.symm.trans ho')
      -- the slots are there
      have hne : ¬ o.slots.length = 0 :=
        Nat.ne_of_gt (Nat.zero_lt_of_lt (List.getElem?_eq_some_iff.mp hv).1)
      rw [resizeSlots, if_neg hne] at hv' ⊢
      have hfirst := setSlots_first ho (o.slots.set j' { v' with state })
      by_cases hjj : j' = j
      · subst hjj
        obtain ⟨-, rfl⟩ := Prod.mk.inj (Option.some.inj (hj.symm.trans hj'))
        refine ⟨_, { v' with state }, hfirst, hbase, ?_, hcls', ?_⟩
        · exact List.getElem?_set_self (List.getElem?_eq_some_iff.mp hv').1
        · -- its own function has written to it again
          have hmap := hover m (w.raw o.state) v'.state (w.new new)
          rw [show w.raw o.state = w.raw base.state from congrArg (fun b => w.raw b.state) hbase,
            h.result] at hmap
          rw [show w.raw o.state = w.raw base.state from congrArg (fun b => w.raw b.state) hbase]
            at hstate
          rw [hstate] at hmap
          exact Except.ok.inj hmap
      · exact ⟨_, v, hfirst, hbase, by rw [List.getElem?_set_ne hjj]; exact hv, hcls, hlook⟩
    · refine ⟨o, v, ?_, hbase, hv, hcls, hlook⟩
      rw [Property.setSlots, objs_modify, if_neg hp]
      exact ho

/-- Behind a call of `value` the slot shows it. -/
theorem holds_value (hwf : q.WF mods) (hi : (declared mods)[i]? = some r)
    (hd : r.definition = .major new defMap)
    (hj : defMap.toList[j]? = some (f, defer))
    (hkey : (Decoder.build mods).lookupParamKey name =
      ⟨i, some (minorDef r i j f defer new defMap)⟩)
    (hover : w.Overwrites new defer) (hc : 0 < q.count i) {res : Property κ S × Place}
    (hok : q.value w (Decoder.build mods) m name = .ok res) :
    ∃ base look, res.2 = .slot i j ∧ Holds w m i j new defer base look res.1 := by
  obtain ⟨o, v, ho, hv, hcls, hval⟩ := value_minor (w := w) (m := m) hwf hi hd hj hkey hc
  rw [hval] at hok
  obtain ⟨state, hstate, hret⟩ := returns_of_bind hok
  obtain rfl := Except.ok.inj hret
  have hmap := hover m (w.raw o.state) v.state (w.new new)
  rw [hstate] at hmap
  refine ⟨o.toValue, w.look m new state, rfl, hmap.symm, _, { v with state },
    setSlots_first ho _, rfl, ?_,
    hcls, rfl⟩
  exact List.getElem?_set_self (List.getElem?_eq_some_iff.mp hv).1

theorem Holds.look {base : Value κ S} {look : O} (h : Holds w m i j new defer base look q) :
    (q.at? w (.slot i j)).map (fun v => w.look m v.cls v.state) = some look := by
  obtain ⟨o, v, ho, -, hv, hcls, hlook⟩ := h.slot
  rw [Property.at?, ho, Option.bind_some, hv, Option.map_some, hcls, hlook]

/-! ### Reads -/

/-- The step of one read. -/
theorem exec_read {x : M × String} {reads : List (M × String)}
    (hrun : exec (Setup.step w (Decoder.build mods)) q
      ((x :: reads).map fun x => .read x.1 x.2) = some q') :
    ∃ q₁, Setup.step w (Decoder.build mods) q (.read x.1 x.2) = some q₁ ∧
      exec (Setup.step w (Decoder.build mods)) q₁ (reads.map fun x => .read x.1 x.2) = some q' :=
  Option.bind_eq_some_iff.mp hrun

/-- Reads leave the first objects as they are. -/
theorem exec_reads (reads : List (M × String)) (hwf : q.WF mods)
    (hrun : exec (Setup.step w (Decoder.build mods)) q
      (reads.map fun x => .read x.1 x.2) = some q') :
    q'.WF mods ∧ (∀ pid, q'.count pid = q.count pid) ∧ ∀ pid o, (q.objs pid)[0]? = some o →
      ∃ o', (q'.objs pid)[0]? = some o' ∧ o'.toValue = o.toValue := by
  induction reads generalizing q with
  | nil =>
    obtain rfl := Option.some.inj hrun
    exact ⟨hwf, fun _ => rfl, fun _ o ho => ⟨o, ho, rfl⟩⟩
  | cons x reads ih =>
    obtain ⟨q₁, hstep, hrest⟩ := exec_read hrun
    obtain ⟨place, hread⟩ := step_read hwf hstep
    obtain ⟨hwf₁, hcount₁⟩ := hread.keeps hwf
    obtain ⟨hwf', hcount', hfirst'⟩ := ih hwf₁ hrest
    refine ⟨hwf', fun pid => (hcount' pid).trans (hcount₁ pid), fun pid o ho => ?_⟩
    obtain ⟨o₁, ho₁, heq₁⟩ := hread.first ho
    obtain ⟨o', ho', heq'⟩ := hfirst' pid o₁ ho₁
    exact ⟨o', ho', heq'.trans heq₁⟩

/-- Reads in one state of the memory keep what a slot shows. -/
theorem Holds.reads {base : Value κ S} {look : O} (names : List String)
    (h : Holds w m i j new defer base look q) (hwf : q.WF mods) (hi : (declared mods)[i]? = some r)
    (hd : r.definition = .major new defMap) (hj : defMap.toList[j]? = some (f, defer))
    (hover : w.Overwrites new defer)
    (hrun : exec (Setup.step w (Decoder.build mods)) q (names.map (.read m)) = some q') :
    Holds w m i j new defer base look q' := by
  induction names generalizing q with
  | nil =>
    obtain rfl := Option.some.inj hrun
    exact h
  | cons name names ih =>
    obtain ⟨q₁, hstep, hrest⟩ := Option.bind_eq_some_iff.mp hrun
    obtain ⟨place, hread⟩ := step_read hwf hstep
    exact ih (h.read hi hd hj hover hread) (hread.keeps hwf).1 hrest

end Minor

/-- **Minor parameters are isolated and stable.** In every run, when the major value was retained
for the current packet, `value` of a minor parameter has a slot in range, and what is seen there is
what its own function makes, in a new value, of the major value as the current packet's calls left
it. Reads of any names in between make no difference to it, and reads behind make none to what the
reference shows. -/
theorem minor_isolated (w : Methods M P κ S δ O) (mods : ModMap δ (Class κ))
    (h : Plain mods) (config : Config)
    (d : Decoder δ (Class κ)) (hinit : (Decoder.init config mods).2 = .done d) (mod p f : String)
    (md : Module δ (Class κ)) (new : Class κ) (defMap : TreeMap String δ) (defer : δ)
    (hmod : mods[mod]? = some md) (hp : md.paramMap[p]? = some (.major new defMap))
    (hf : defMap[f]? = some defer) (hover : w.Overwrites new defer) (ops : List (Op M S))
    (q : Property κ S) (hrun : exec (step w d) {} ops = some q) (pid : Nat)
    (hpid : d.lookupParamId (dotted mod p) = pid)
    (hret : pid ∈ retainedNow ops) (m : M) :
    ∃ (j : Nat) (s₀ : S), j < defMap.size ∧
      (s₀ = w.new .storage ∨ ∃ old, s₀ = w.clear .storage old) ∧
      q.seen w d m (dotted (dotted mod p) f) =
        (w.defer defer m (w.raw (afterCalls (currentCalls pid ops) s₀)) (w.new new)).map
          (fun s => (.slot pid j, some (w.look m new s))) ∧
      (∀ (reads : List (M × String)) (q' : Property κ S),
        exec (step w d) q (reads.map fun x => .read x.1 x.2) = some q' →
          q'.seen w d m (dotted (dotted mod p) f) = q.seen w d m (dotted (dotted mod p) f)) ∧
      ∀ res, q.value w d m (dotted (dotted mod p) f) = .ok res →
        ∀ (names : List String) (q' : Property κ S),
        exec (step w d) res.1 (names.map (.read m)) = some q' →
          (q'.at? w res.2).map (fun v => w.look m v.cls v.state) =
            (res.1.at? w res.2).map fun v => w.look m v.cls v.state := by
  obtain rfl := init_done hinit
  -- the parameter in the tables
  obtain ⟨n, hn⟩ := getElem?_toList_of hmod
  have hr : (⟨n, mod, p, .major new defMap⟩ : Declared δ (Class κ)) ∈ declared mods :=
    mem_declared.mpr ⟨md, hn, hp⟩
  obtain ⟨i, hi⟩ := List.getElem?_of_mem hr
  have hid := lookupParamId_of_entry h hi (List.mem_map.mpr ⟨_, List.mem_cons_self, rfl⟩)
  obtain rfl : i = pid := Int.ofNat.inj (hid.symm.trans hpid)
  obtain ⟨j, hj⟩ := List.getElem?_of_mem (TreeMap.mem_toList_iff_getElem?_eq_some.mpr hf)
  have hkey := lookup_minor h hi rfl hj
  have hjlt : j < defMap.size := by
    rw [← TreeMap.length_toList]
    exact (List.getElem?_eq_some_iff.mp hj).1
  -- the major value
  obtain ⟨hwf, hcount⟩ := count_exec hrun
  have hc : 0 < q.count i := by rwa [hcount, List.count_pos_iff]
  obtain ⟨o, s₀, ho, hs₀, hstate⟩ := current_exec hrun hc
  have hstorage : o.cls = .storage := (hwf.fits i _ hi o (List.mem_of_getElem? ho)).1
  rw [hstorage] at hs₀
  have hseen := seen_minor (m := m) hwf hi rfl hj hkey hover hc ho
  refine ⟨j, s₀, hjlt, hs₀, by rw [← hstate]; exact hseen, fun reads q' hreads => ?_,
    fun res hok names q' hreads => ?_⟩
  · obtain ⟨hwf', hcount', hfirst'⟩ := exec_reads reads hwf hreads
    obtain ⟨o', ho', heq⟩ := hfirst' i o ho
    have hseen' := seen_minor (m := m) hwf' hi rfl hj hkey hover (by rwa [hcount']) ho'
    rw [show o'.state = o.state from congrArg Value.state heq] at hseen'
    exact hseen'.trans hseen.symm
  · obtain ⟨base, look, hplace, hholds⟩ := holds_value hwf hi rfl hj hkey hover hc hok
    have hkeeps := ((read_of_value hwf hok).keeps hwf).1
    rw [hplace, hholds.look, (hholds.reads names hkeeps hi rfl hj hover hreads).look]

/-! ## The built-in functions -/

/-- **The functions of the built-in modules overwrite what they write to.** -/
theorem packetMethods_overwrites (ntop6 : List UInt8 → Decode.Text) (new : Class Empty)
    (defer : Decode.Defer) :
    (packetMethods ntop6).Overwrites new defer := by
  intro m ptr c c'
  have hlook : ∀ {c c' : Decode.Cell}, c.Same c' →
      c.look ntop6 m (c.repr m) 0 = c'.look ntop6 m (c'.repr m) 0 :=
    fun h => h.look_eq ntop6 m (h.repr_eq m) 0
  cases ptr with
  | none => rfl
  | some off =>
    rcases defer with ⟨o, len⟩ | g
    · exact congrArg Except.ok (hlook (Decode.Cell.same_set _ _ _ (by simp)))
    · change ((return c.cpy (← g m off)) : Except Decode.Fault Decode.Cell).map _ =
        ((return c'.cpy (← g m off)) : Except Decode.Fault Decode.Cell).map _
      cases g m off with
      | error e => rfl
      | ok bytes => exact congrArg Except.ok (hlook (Decode.Cell.same_cpy bytes _))

/-- Two packets with the header, `abcd` and `wxyz`. A minor parameter is read for the first one, and
the other one for the second. -/
def batchOps : List (Op Decode.Mem Decode.Cell) :=
  [.init, .retain 0, .write 0 0 (·.set (.pkt 0) 4),
    .read (fun i => [97, 98, 99, 100][i]?) "Ethernet.p.1",
    .init, .retain 0, .write 0 0 (·.set (.pkt 0) 4),
    .read (fun i => [119, 120, 121, 122][i]?) "Ethernet.p.2"]

theorem minor_isolated_batch : ∃ q : Property Empty Decode.Cell,
    exec (step (packetMethods fun _ => []) (Decoder.build batchHeader)) {} batchOps = some q ∧
      (q.seen (packetMethods fun _ => []) (Decoder.build batchHeader)
        (fun i => [119, 120, 121, 122][i]?)
        "Ethernet.p.1").map (fun x => x.2.map Decode.Look.repr) = .ok (some (.ok ['w', 'x'])) := by
  refine ⟨_, rfl, ?_⟩
  obtain ⟨j, s₀, -, -, hseen, -⟩ := minor_isolated (packetMethods fun _ => []) batchHeader
    (batchModules_plain ..) {} _ batchHeader_init "Ethernet" "p" "1"
    (batchModule (.field 0 2) (.field 2 2) .value) .value _ (.field 0 2) rfl rfl
    rfl (packetMethods_overwrites _ _ _) batchOps _ rfl 0 rfl (by simp [retainedNow, batchOps])
    fun i => [119, 120, 121, 122][i]?
  change Except.map _ (Property.seen _ _ _ _ (dotted (dotted "Ethernet" "p") "1")) = _
  rw [hseen]
  rfl

end PacketMachine.Setup
