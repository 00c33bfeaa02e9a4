import LMiced.Lib.Loop

/-!
# Refinement of programs with fuel

A concrete program works on states that represent abstract ones. It takes fuel for its inner
loops and may fail, and the abstract program may fail as well, for instance because its own
loops do not end. `Follows R prog b` says that the concrete program, with enough fuel, fails if
the abstract outcome `b` is a failure, and otherwise ends in a state that `R` relates to the
abstract one. `Refines R R' prog spec` says so of two programs, from states that `R` relates.

* `Refines.bind`, `Refines.ite` and `Refines.foldlM` follow the structure of the programs;
* `Refines.loop` is the rule for loops: when a turn refines a turn, the loops refine each other;
* `Follows.returns_iff`: the two programs return from the same states.
-/

namespace Refine

variable {σ σ' σ'' α α' α'' ε : Type*}

/-- With enough fuel the outcome is `y`. -/
def Settles (prog : Nat → Option σ) (y : Option σ) : Prop := ∃ n, ∀ fuel, n ≤ fuel → prog fuel = y

/-- With enough fuel the outcome is related to the abstract one. -/
def Follows (R : σ → α → Prop) (prog : Nat → Option σ) (b : Option α) : Prop :=
  ∃ y, Settles prog y ∧ Option.Rel R y b

/-- With enough fuel the concrete program does what the abstract program does. -/
def Refines (R : σ → α → Prop) (R' : σ' → α' → Prop) (prog : Nat → σ → Option σ')
    (spec : α → Option α') : Prop :=
  ∀ x a, R x a → Follows R' (fun fuel => prog fuel x) (spec a)

/-! ## Outcomes -/

section Outcomes

variable {prog : Nat → Option σ} {y y' : Option σ} {R : σ → α → Prop} {b : Option α}

theorem settles_const (y : Option σ) : Settles (fun _ => y) y := ⟨0, fun _ _ => rfl⟩

theorem Settles.unique (h : Settles prog y) (h' : Settles prog y') : y = y' := by
  obtain ⟨n, hn⟩ := h
  obtain ⟨n', hn'⟩ := h'
  exact (hn _ (le_max_left n n')).symm.trans (hn' _ (le_max_right n n'))

theorem Settles.bind {next : Nat → σ → Option σ'} {z : Option σ'} (h : Settles prog y)
    (hnext : ∀ x, y = some x → Settles (fun fuel => next fuel x) z) (hnone : y = none → z = none) :
    Settles (fun fuel => (prog fuel).bind (next fuel)) z := by
  obtain ⟨n, hn⟩ := h
  cases y with
  | none =>
    refine ⟨n, fun fuel hfuel => ?_⟩
    show (prog fuel).bind (next fuel) = z
    rw [hn fuel hfuel, hnone rfl]
    rfl
  | some x =>
    obtain ⟨n', hn'⟩ := hnext x rfl
    refine ⟨max n n', fun fuel hfuel => ?_⟩
    show (prog fuel).bind (next fuel) = z
    rw [hn fuel (le_of_max_le_left hfuel)]
    exact hn' fuel (le_of_max_le_right hfuel)

/-- A program that does not fail. -/
theorem Settles.follows {x : σ} {a : α} (h : Settles prog (some x)) (hxa : R x a) :
    Follows R prog (some a) := ⟨some x, h, .some hxa⟩

/-- No fuel is needed. -/
theorem follows_const (h : Option.Rel R y b) : Follows R (fun _ => y) b := ⟨y, settles_const y, h⟩

theorem follows_some {x : σ} {a : α} (h : R x a) : Follows R (fun _ => some x) (some a) :=
  follows_const (.some h)

/-- One program behind the other. -/
theorem Follows.bind {R' : σ' → α' → Prop} {next : Nat → σ → Option σ'} {spec : α → Option α'}
    (h : Follows R prog b) (hnext : Refines R R' next spec) :
    Follows R' (fun fuel => (prog fuel).bind (next fuel)) (b.bind spec) := by
  obtain ⟨y, hy, hrel⟩ := h
  cases hrel with
  | none => exact ⟨none, hy.bind (fun _ h => nomatch h) fun _ => rfl, .none⟩
  | @some x a hxa =>
    obtain ⟨z, hz, hrel'⟩ := hnext x a hxa
    refine ⟨z, hy.bind (fun x' hx' => ?_) (fun h => nomatch h), hrel'⟩
    obtain rfl := Option.some.inj hx'
    exact hz

/-- The outcomes are rewritten. -/
theorem Follows.map {R' : σ' → α' → Prop} {f : σ → σ'} {g : α → α'} (h : Follows R prog b)
    (hfg : ∀ x a, R x a → R' (f x) (g a)) :
    Follows R' (fun fuel => (prog fuel).map f) (b.map g) := by
  simp only [Option.map_eq_bind]
  exact h.bind fun x a hxa => follows_some (hfg x a hxa)

/-- The concrete program returns where the abstract one does. -/
theorem Follows.returns_iff (h : Follows R prog b) :
    (∃ x, Settles prog (some x)) ↔ b.isSome = true := by
  obtain ⟨y, hy, hrel⟩ := h
  cases hrel with
  | none =>
    refine ⟨fun ⟨z, hz⟩ => ?_, fun h => nomatch h⟩
    exact absurd (hy.unique hz) (Option.some_ne_none z).symm
  | some hxa => exact ⟨fun _ => rfl, fun _ => ⟨_, hy⟩⟩

end Outcomes

/-! ## Programs -/

section Programs

variable {R : σ → α → Prop} {R' : σ' → α' → Prop} {R'' : σ'' → α'' → Prop}
  {prog : Nat → σ → Option σ'} {spec : α → Option α'}

theorem refines_some : Refines R R (fun _ x => some x) some := fun _ _ h => follows_some h

theorem Refines.bind {next : Nat → σ' → Option σ''} {spec' : α' → Option α''}
    (h : Refines R R' prog spec) (hnext : Refines R' R'' next spec') :
    Refines R R'' (fun fuel x => (prog fuel x).bind (next fuel)) fun a => (spec a).bind spec' :=
  fun x a hxa => (h x a hxa).bind hnext

theorem Refines.ite {prog' : Nat → σ → Option σ'} {spec' : α → Option α'} (c : Prop) [Decidable c]
    (h : Refines R R' prog spec) (h' : Refines R R' prog' spec') :
    Refines R R' (fun fuel x => if c then prog fuel x else prog' fuel x)
      fun a => if c then spec a else spec' a := by
  rcases Decidable.em c with hc | hc
  · simp only [if_pos hc]
    exact h
  · simp only [if_neg hc]
    exact h'

/-- A program for each of a list of inputs. -/
theorem Refines.foldlM {body : Nat → ε → σ → Option σ} {step : ε → α → Option α}
    (h : ∀ e, Refines R R (fun fuel => body fuel e) (step e)) (es : List ε) :
    Refines R R (fun fuel x => es.foldlM (fun x e => body fuel e x) x)
      fun a => es.foldlM (fun a e => step e a) a := by
  induction es with
  | nil => exact refines_some
  | cons e es ih => exact (h e).bind ih

/-- The rule for programs that need no fuel. -/
theorem rel_foldlM {body : ε → σ → Option σ} {step : ε → α → Option α} {R : σ → α → Prop}
    (h : ∀ e x a, R x a → Option.Rel R (body e x) (step e a)) (es : List ε) {x : σ} {a : α}
    (hxa : R x a) :
    Option.Rel R (es.foldlM (fun x e => body e x) x) (es.foldlM (fun a e => step e a) a) := by
  have hbody (e : ε) : Refines R R (fun _ => body e) (step e) :=
    fun x a hxa => follows_const (h e x a hxa)
  obtain ⟨y, hy, hrel⟩ := Refines.foldlM hbody es x a hxa
  rwa [hy.unique (settles_const _)] at hrel

end Programs

/-! ## Loops -/

/-- A loop that is left where `exit` says so, with `turns` turns at most. Its body may fail. -/
def loop (exit : σ → Bool) (body : σ → Option σ) : Nat → σ → Option σ
  | 0, _ => none
  | turns + 1, x => if exit x then some x else (body x).bind (loop exit body turns)

variable {R : σ → α → Prop} {exit : σ → Bool} {body : Nat → σ → Option σ} {step : α → Option α}

/-- The rule for loops. The body is left where the abstract loop has no further step. -/
theorem Refines.loop (hexit : ∀ x a, R x a → exit x = true → step a = none)
    (hbody : ∀ x a, R x a → exit x = false →
      ∃ y b, Settles (fun fuel => body fuel x) (some y) ∧ step a = some b ∧ R y b)
    (turns : Nat) :
    Refines R R (fun fuel => Refine.loop exit (body fuel) turns) (Loop.run step turns) := by
  induction turns with
  | zero => exact fun x a _ => ⟨none, settles_const _, .none⟩
  | succ turns ih =>
    intro x a hxa
    cases hx : exit x with
    | true =>
      rw [Loop.run_succ_of_none (hexit x a hxa hx)]
      exact Settles.follows ⟨0, fun fuel _ => if_pos hx⟩ hxa
    | false =>
      obtain ⟨y, b, hy, hb, hyb⟩ := hbody x a hxa hx
      obtain ⟨z, hz, hrel⟩ := ih y b hyb
      have hturn : ∀ fuel, Refine.loop exit (body fuel) (turns + 1) x =
          (body fuel x).bind (Refine.loop exit (body fuel) turns) := fun fuel =>
        if_neg (by rw [hx]; exact Bool.false_ne_true)
      rw [Loop.run_succ_of_some hb]
      refine ⟨z, ?_, hrel⟩
      simp only [hturn]
      refine hy.bind (fun y' hy' => ?_) fun h => nomatch h
      obtain rfl := Option.some.inj hy'
      exact hz

end Refine
