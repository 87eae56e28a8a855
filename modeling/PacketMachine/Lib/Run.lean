import Mathlib

/-!
# Runs of a partial step function

A system is given by `step : σ → ℓ → Option σ`: `step s l` is the state after the labelled action
`l`, and `none` when `l` cannot happen in `s`. A run is a list of labels (`exec`). An interleaving
of several threads is such a list, each label naming the thread and its next atomic action.

* `exec_snoc`: a run is extended at its end.
* `exec_induct`: a relation between the labels taken so far and the state, that holds of the empty
  run and is kept by every step, holds at the end of every run.
* `exec_invariant`: the same for a predicate of the state alone.
* `exec_rank`: a rank that every step lowers by one bounds every run.
* `Along`: every label of a run is taken in a state that allows it, by a predicate that is no part
  of the step function. `exec_along` is the invariant rule for such runs.
-/

namespace PacketMachine.Lib

variable {σ ℓ : Type*} {step : σ → ℓ → Option σ}

/-- The state after the labels `tr`, when each of them can happen in turn. -/
def exec (step : σ → ℓ → Option σ) : σ → List ℓ → Option σ
  | s, [] => some s
  | s, l :: tr => (step s l).bind fun t => exec step t tr

theorem exec_append (s : σ) (tr tr' : List ℓ) :
    exec step s (tr ++ tr') = (exec step s tr).bind fun t => exec step t tr' := by
  induction tr generalizing s with
  | nil => rfl
  | cons l tr ih =>
    simp only [List.cons_append, exec]
    cases step s l with
    | none => rfl
    | some t => exact ih t

theorem exec_snoc (s : σ) (tr : List ℓ) (l : ℓ) :
    exec step s (tr ++ [l]) = (exec step s tr).bind fun t => step t l := by
  rw [exec_append]
  congr 1
  funext t
  simp [exec]

/-- **Induction over runs**, with the labels taken so far. -/
theorem exec_induct {I : List ℓ → σ → Prop} {s : σ} (h0 : I [] s)
    (hstep : ∀ tr t l t', I tr t → step t l = some t' → I (tr ++ [l]) t') :
    ∀ (tr : List ℓ) {t : σ}, exec step s tr = some t → I tr t := by
  intro tr
  induction tr using List.reverseRecOn with
  | nil =>
    intro t h
    obtain rfl := Option.some.inj h
    exact h0
  | append_singleton tr l ih =>
    intro t h
    rw [exec_snoc, Option.bind_eq_some_iff] at h
    obtain ⟨u, hu, hl⟩ := h
    exact hstep tr u l t (ih hu) hl

/-- **A predicate that every step keeps holds along every run.** -/
theorem exec_invariant {I : σ → Prop} {s : σ} (h0 : I s)
    (hstep : ∀ t l t', I t → step t l = some t' → I t') {tr : List ℓ} {t : σ}
    (h : exec step s tr = some t) : I t :=
  exec_induct (I := fun _ t => I t) h0 (fun _ t l t' => hstep t l t') tr h

/-- **A rank that every step lowers by one counts down every run.** -/
theorem exec_rank {I : σ → Prop} {rank : σ → Nat}
    (hstep : ∀ t l t', I t → step t l = some t' → I t' ∧ rank t' + 1 = rank t) :
    ∀ (tr : List ℓ) {s t : σ}, I s → exec step s tr = some t →
      I t ∧ tr.length + rank t = rank s
  | [], s, t, hi, h => by
    obtain rfl := Option.some.inj h
    exact ⟨hi, Nat.zero_add _⟩
  | l :: tr, s, t, hi, h => by
    obtain ⟨u, hu, ht⟩ := Option.bind_eq_some_iff.mp h
    obtain ⟨hiu, hrank⟩ := hstep s l u hi hu
    obtain ⟨hit, hlen⟩ := exec_rank hstep tr hiu ht
    refine ⟨hit, ?_⟩
    rw [List.length_cons]
    omega

/-- `P` holds of every label of the run and the state it is taken in. -/
def Along (step : σ → ℓ → Option σ) (P : σ → ℓ → Prop) : σ → List ℓ → Prop
  | _, [] => True
  | s, l :: tr => P s l ∧ (step s l).elim True fun t => Along step P t tr

/-- **A predicate that every step allowed by `P` keeps holds along every run of such steps.** -/
theorem exec_along {I : σ → Prop} {P : σ → ℓ → Prop}
    (hstep : ∀ t l t', I t → P t l → step t l = some t' → I t') :
    ∀ (tr : List ℓ) {s t : σ}, I s → Along step P s tr → exec step s tr = some t → I t
  | [], s, t, hi, _, h => by
    obtain rfl := Option.some.inj h
    exact hi
  | l :: tr, s, t, hi, ⟨hp, hrest⟩, h => by
    obtain ⟨u, hu, ht⟩ := Option.bind_eq_some_iff.mp h
    rw [hu] at hrest
    exact exec_along hstep tr (hstep s l u hi hp hu) hrest ht

end PacketMachine.Lib
