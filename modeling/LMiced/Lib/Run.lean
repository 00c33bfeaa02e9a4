import Mathlib

/-!
# Runs of event systems

A system is given by what each event does to its state,
`step : ε → σ → Option σ`, with `none` for an event that cannot happen in that
state. `Reachable step ok s t` says that some run leads from `s` to `t` in which
every event satisfies `ok` in the state before it. The condition lets one state
a law for the runs of a class of events, or under an assumption about each step.

* `Reachable.invariant`: what every step preserves holds in every reached state;
* `execute` runs a list of events, and `exists_reachable_of_execute` turns the
  execution of a concrete list into a run;
* `Since p q log` says that something with `p` has happened, and nothing with `q`
  after it; the latest entry of a log stands first;
* `forall_suffix_iff` reduces a law about all parts of a log to its steps.
-/

namespace Run

variable {σ ε : Type*}

/-- One step by some event that satisfies `ok`. -/
def Step (step : ε → σ → Option σ) (ok : ε → σ → Prop) (s t : σ) : Prop :=
  ∃ e, ok e s ∧ step e s = some t

/-- Some run whose events all satisfy `ok` leads from `s` to `t`. -/
def Reachable (step : ε → σ → Option σ) (ok : ε → σ → Prop) : σ → σ → Prop :=
  Relation.ReflTransGen (Step step ok)

variable {step : ε → σ → Option σ} {ok : ε → σ → Prop} {s t u : σ}

theorem Reachable.tail {e : ε} (h : Reachable step ok s t) (he : ok e t)
    (hu : step e t = some u) : Reachable step ok s u :=
  Relation.ReflTransGen.tail h ⟨e, he, hu⟩

/-- The invariant rule for runs. -/
theorem Reachable.invariant {I : σ → Prop}
    (hI : ∀ e s t, ok e s → step e s = some t → I s → I t)
    (h : Reachable step ok s t) (hs : I s) : I t := by
  induction h with
  | refl => exact hs
  | tail _ hstep ih =>
    obtain ⟨e, he, hu⟩ := hstep
    exact hI e _ _ he hu ih

/-- A run under a stronger condition is a run. -/
theorem Reachable.mono {ok' : ε → σ → Prop} (h : Reachable step ok s t)
    (hok : ∀ e s, ok e s → ok' e s) : Reachable step ok' s t := by
  induction h with
  | refl => exact Relation.ReflTransGen.refl
  | tail _ hstep ih =>
    obtain ⟨e, he, hu⟩ := hstep
    exact ih.tail (hok e _ he) hu

/-! ## Logs -/

section Logs

variable {α : Type*} {p q : α → Prop} {a : α} {log : List α}

def Since (p q : α → Prop) (log : List α) : Prop :=
  ∃ later a earlier, log = later ++ a :: earlier ∧ p a ∧ ∀ b ∈ later, ¬ q b

theorem not_since_nil : ¬ Since p q [] := by
  rintro ⟨later, a, earlier, h, _⟩
  simp at h

theorem since_cons_iff : Since p q (a :: log) ↔ p a ∨ (¬ q a ∧ Since p q log) := by
  constructor
  · rintro ⟨later, b, earlier, hlog, hb, hno⟩
    cases later with
    | nil =>
      obtain ⟨rfl, rfl⟩ := List.cons.inj hlog
      exact Or.inl hb
    | cons head later =>
      obtain ⟨rfl, rfl⟩ := List.cons.inj hlog
      exact Or.inr ⟨hno a List.mem_cons_self, later, b, earlier, rfl, hb,
        fun c hc => hno c (List.mem_cons_of_mem _ hc)⟩
  · rintro (ha | ⟨ha, later, b, earlier, rfl, hb, hno⟩)
    · exact ⟨[], a, log, rfl, ha, fun _ h => absurd h List.not_mem_nil⟩
    · exact ⟨a :: later, b, earlier, rfl, hb, List.forall_mem_cons.mpr ⟨ha, hno⟩⟩

/-- A property holds of every part of a log if and only if every step is right, when a
step is right if and only if it preserves the property. -/
theorem forall_suffix_iff {P : List α → Prop} {right : α → List α → Prop} (hnil : P [])
    (hcons : ∀ a earlier, a :: earlier <:+ log → P earlier →
      (P (a :: earlier) ↔ right a earlier)) :
    (∀ log', log' <:+ log → P log') ↔ ∀ a earlier, a :: earlier <:+ log → right a earlier := by
  constructor
  · intro h a earlier hsuffix
    have hearlier := h earlier ((List.suffix_cons a earlier).trans hsuffix)
    exact (hcons a earlier hsuffix hearlier).mp (h _ hsuffix)
  · intro h log' hsuffix
    induction log' with
    | nil => exact hnil
    | cons a earlier ih =>
      have hearlier := ih ((List.suffix_cons a earlier).trans hsuffix)
      exact (hcons a earlier hsuffix hearlier).mpr (h a earlier hsuffix)

end Logs

/-! ## Concrete runs -/

/-- Run a list of events, `none` when one of them cannot happen or fails `ok`. -/
def execute (step : ε → σ → Option σ) (ok : ε → σ → Prop) [∀ e s, Decidable (ok e s)] :
    List ε → σ → Option σ
  | [], s => some s
  | e :: es, s => if ok e s then (step e s).bind (execute step ok es) else none

theorem execute_append [∀ e s, Decidable (ok e s)] (es es' : List ε) (s : σ) :
    execute step ok (es ++ es') s = (execute step ok es s).bind (execute step ok es') := by
  induction es generalizing s with
  | nil => rfl
  | cons e es ih =>
    rw [List.cons_append, execute, execute]
    split
    · rw [Option.bind_assoc]
      exact congrArg _ (funext ih)
    · rfl

theorem reachable_of_execute [∀ e s, Decidable (ok e s)] {es : List ε}
    (h : execute step ok es s = some t) : Reachable step ok s t := by
  induction es generalizing s with
  | nil =>
    cases h
    exact Relation.ReflTransGen.refl
  | cons e es ih =>
    unfold execute at h
    split at h
    · next he =>
      obtain ⟨u, hu, ht⟩ := Option.bind_eq_some_iff.mp h
      exact Relation.ReflTransGen.head ⟨e, he, hu⟩ (ih ht)
    · cases h

/-- What every event makes smaller bounds the length of an execution. -/
theorem length_le_of_execute [∀ e s, Decidable (ok e s)] {μ : σ → Nat}
    (hμ : ∀ e s t, ok e s → step e s = some t → μ t < μ s) {es : List ε}
    (h : execute step ok es s = some t) : es.length + μ t ≤ μ s := by
  induction es generalizing s with
  | nil =>
    cases h
    simp
  | cons e es ih =>
    unfold execute at h
    split at h
    · next he =>
      obtain ⟨u, hu, ht⟩ := Option.bind_eq_some_iff.mp h
      have hlt := hμ e s u he hu
      have hle := ih ht
      rw [List.length_cons]
      omega
    · cases h

/-- A test that the end state of an execution passes is passed by a reachable state. -/
theorem exists_reachable_of_execute (step : ε → σ → Option σ) (ok : ε → σ → Prop)
    [∀ e s, Decidable (ok e s)] (es : List ε) {p : σ → Bool}
    (h : (execute step ok es s).any p = true) : ∃ t, Reachable step ok s t ∧ p t = true := by
  cases ht : execute step ok es s with
  | none =>
    rw [ht] at h
    cases h
  | some t =>
    rw [ht] at h
    exact ⟨t, reachable_of_execute ht, h⟩

end Run
