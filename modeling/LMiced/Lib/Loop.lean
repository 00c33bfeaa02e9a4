import Mathlib

/-!
# Loops with fuel

A loop is given by its body `step : σ → Option σ`: `some s'` is one more
iteration, `none` is the exit. `run` executes a loop with fuel, so it computes;
`Halts` says that some fuel is enough. The rules below are the ones a
verification of a loop needs:

* `run_invariant`: what every iteration preserves holds at the exit;
* `halts_of_measure`: a measure that every iteration lowers gives termination;
* `not_halts_of_closed`: a set of states that the body never leaves and never
  exits from gives divergence;
* `halts_iff_of_step`: an iteration does not matter;
* `halts_iff_of_map`: a part of the state that runs on its own decides; it need run on its
  own only under an invariant.

A loop over the entries of a list whose body may fail is `List.foldlM`; its
rules are `foldlM_invariant` and `foldlM_forall`. For a body that cannot fail it is
`List.foldl`: `foldl_bijective` says when the loop can be undone.
-/

namespace Loop

open StateTransition

variable {σ : Type*} {step : σ → Option σ} {s s' t : σ}

/-- Execute the loop with `fuel` iterations at most. `none` means that the fuel
ran out, `some t` that the loop was left in the state `t`. -/
def run (step : σ → Option σ) : Nat → σ → Option σ
  | 0, _ => none
  | fuel + 1, s =>
    match step s with
    | none => some s
    | some s' => run step fuel s'

/-- The loop is left after finitely many iterations. -/
def Halts (step : σ → Option σ) (s : σ) : Prop :=
  ∃ fuel t, run step fuel s = some t

theorem run_succ_of_none (h : step s = none) (fuel : Nat) :
    run step (fuel + 1) s = some s := by
  simp [run, h]

theorem run_succ_of_some (h : step s = some s') (fuel : Nat) :
    run step (fuel + 1) s = run step fuel s' := by
  simp [run, h]

/-- A run with fuel ends in a state that the body reaches and that it exits from. -/
theorem run_sound {fuel : Nat} (h : run step fuel s = some t) :
    Reaches step s t ∧ step t = none := by
  induction fuel generalizing s with
  | zero => cases h
  | succ fuel ih =>
    cases hs : step s with
    | none =>
      rw [run_succ_of_none hs] at h
      cases h
      exact ⟨Relation.ReflTransGen.refl, hs⟩
    | some s' =>
      rw [run_succ_of_some hs] at h
      exact ⟨Relation.ReflTransGen.head hs (ih h).1, (ih h).2⟩

/-! ## Invariants -/

/-- What every iteration preserves holds in every state the loop reaches. -/
theorem reaches_invariant {I : σ → Prop} (hI : ∀ s s', I s → step s = some s' → I s')
    (h : Reaches step s t) (hs : I s) : I t := by
  induction h with
  | refl => exact hs
  | tail _ hstep ih => exact hI _ _ ih hstep

/-- The invariant rule: an invariant of the body holds at the exit, together
with the exit condition. -/
theorem run_invariant {I : σ → Prop} (hI : ∀ s s', I s → step s = some s' → I s')
    {fuel : Nat} (h : run step fuel s = some t) (hs : I s) : I t ∧ step t = none :=
  ⟨reaches_invariant hI (run_sound h).1 hs, (run_sound h).2⟩

/-! ## Termination and divergence -/

theorem halts_of_none (h : step s = none) : Halts step s :=
  ⟨1, s, run_succ_of_none h 0⟩

theorem halts_iff_of_step (h : step s = some s') : Halts step s ↔ Halts step s' := by
  constructor
  · rintro ⟨fuel, t, ht⟩
    cases fuel with
    | zero => cases ht
    | succ fuel => exact ⟨fuel, t, (run_succ_of_some h fuel).symm.trans ht⟩
  · rintro ⟨fuel, t, ht⟩
    exact ⟨fuel + 1, t, (run_succ_of_some h fuel).trans ht⟩

/-- The termination rule: under an invariant, a natural number that every
iteration lowers, until the loop reaches a state it is known to end from. -/
theorem halts_of_measure {I : σ → Prop} (μ : σ → Nat)
    (hI : ∀ s s', I s → step s = some s' → Halts step s' ∨ (I s' ∧ μ s' < μ s)) (hs : I s) :
    Halts step s := by
  induction hn : μ s using Nat.strong_induction_on generalizing s with
  | _ n ih =>
    cases h : step s with
    | none => exact halts_of_none h
    | some s' =>
      refine (halts_iff_of_step h).mpr ?_
      rcases hI s s' hs h with hhalts | ⟨hs', hlt⟩
      · exact hhalts
      · exact ih (μ s') (hn ▸ hlt) hs' rfl

/-- The divergence rule: a set of states from which every iteration stays in the
set and none exits. -/
theorem not_halts_of_closed {D : σ → Prop} (hD : ∀ s, D s → ∃ s', step s = some s' ∧ D s')
    (hs : D s) : ¬ Halts step s := by
  rintro ⟨fuel, t, h⟩
  induction fuel generalizing s with
  | zero => cases h
  | succ fuel ih =>
    obtain ⟨s', hstep, hs'⟩ := hD s hs
    exact ih hs' ((run_succ_of_some hstep fuel).symm.trans h)

/-- Termination only depends on a part of the state that, under an invariant, determines
the exit and its own next value. -/
theorem halts_iff_of_map {σ' : Type*} {step' : σ' → Option σ'} {I : σ → Prop} (π : σ → σ')
    (hI : ∀ s s', I s → step s = some s' → I s')
    (hπ : ∀ s, I s → step' (π s) = (step s).map π) (hs : I s) :
    Halts step s ↔ Halts step' (π s) := by
  have hrun : ∀ fuel s, I s → run step' fuel (π s) = (run step fuel s).map π := by
    intro fuel
    -- Both loops take the same steps, and the invariant holds between them.
    induction fuel with
    | zero => exact fun _ _ => rfl
    | succ fuel ih =>
      intro s hs
      cases h : step s with
      | none =>
        rw [run_succ_of_none h, run_succ_of_none (by rw [hπ s hs, h]; rfl)]
        rfl
      | some s' =>
        have hmap : step' (π s) = some (π s') := by
          rw [hπ s hs, h]
          rfl
        rw [run_succ_of_some h, run_succ_of_some hmap]
        exact ih s' (hI s s' hs h)
  constructor
  · rintro ⟨fuel, t, ht⟩
    exact ⟨fuel, π t, by rw [hrun fuel s hs, ht]; rfl⟩
  · rintro ⟨fuel, t, ht⟩
    rw [hrun fuel s hs] at ht
    obtain ⟨t', ht', _⟩ := Option.map_eq_some_iff.mp ht
    exact ⟨fuel, t', ht'⟩

/-! ## Loops over a list -/

section List

variable {α : Type*} {f : σ → α → Option σ} {l : List α}

/-- What the body preserves, the loop preserves. -/
theorem foldlM_invariant {I : σ → Prop} (hI : ∀ a s s', f s a = some s' → I s → I s')
    (h : l.foldlM f s = some t) (hs : I s) : I t := by
  induction l generalizing s with
  | nil =>
    cases h
    exact hs
  | cons a l ih =>
    rw [List.foldlM_cons] at h
    obtain ⟨s', hf, ht⟩ := Option.bind_eq_some_iff.mp h
    exact ih ht (hI a s s' hf hs)

/-- What the body establishes for its entry and preserves for the other entries holds
for the whole list when the loop succeeds. -/
theorem foldlM_forall_of_eq_some {I : σ → Prop} {Q : α → σ → Prop}
    (hf : ∀ a s s', f s a = some s' → I s → I s' ∧ Q a s' ∧ ∀ b, Q b s → Q b s')
    (h : l.foldlM f s = some t) (hs : I s) : (∀ a ∈ l, Q a t) ∧ ∀ b, Q b s → Q b t := by
  induction l generalizing s with
  | nil =>
    cases h
    exact ⟨fun _ h => absurd h (by simp), fun _ h => h⟩
  | cons a l ih =>
    rw [List.foldlM_cons] at h
    obtain ⟨s', hstep, ht⟩ := Option.bind_eq_some_iff.mp h
    obtain ⟨hs', ha, hkeep⟩ := hf a s s' hstep hs
    obtain ⟨hall, hkeep'⟩ := ih ht hs'
    refine ⟨fun b hb => ?_, fun b hb => hkeep' b (hkeep b hb)⟩
    rcases List.mem_cons.mp hb with rfl | hb
    · exact hkeep' b ha
    · exact hall b hb

/-- A body that succeeds under an invariant, and establishes for its entry what it
preserves for the other entries, establishes it for the whole list. -/
theorem foldlM_forall {I : σ → Prop} {Q : α → σ → Prop}
    (hf : ∀ a s, I s → ∃ s', f s a = some s' ∧ I s' ∧ Q a s' ∧ ∀ b, Q b s → Q b s') (hs : I s) :
    ∃ t, l.foldlM f s = some t ∧ I t ∧ (∀ a ∈ l, Q a t) ∧ ∀ b, Q b s → Q b t := by
  induction l generalizing s with
  | nil => exact ⟨s, rfl, hs, fun _ h => absurd h (by simp), fun _ h => h⟩
  | cons a l ih =>
    obtain ⟨s', hstep, hs', ha, hkeep⟩ := hf a s hs
    obtain ⟨t, hrun, ht, hall, hkeep'⟩ := ih hs'
    refine ⟨t, ?_, ht, ?_, fun b hb => hkeep' b (hkeep b hb)⟩
    · rw [List.foldlM_cons, hstep]
      exact hrun
    · intro b hb
      rcases List.mem_cons.mp hb with rfl | hb
      · exact hkeep' b ha
      · exact hall b hb

end List

/-- A loop whose body can be undone, whatever the entry, can be undone. -/
theorem foldl_bijective {α : Type*} {f : σ → α → σ} (hf : ∀ a, Function.Bijective fun s => f s a)
    (l : List α) : Function.Bijective fun s => l.foldl f s := by
  induction l with
  | nil => exact Function.bijective_id
  | cons a l ih => exact ih.comp (hf a)

end Loop
