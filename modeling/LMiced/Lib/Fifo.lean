import Mathlib

/-!
# Bounded queues and what implements them

A machine answers each input and goes on to its next state, `step : ι → σ → ο × σ`.
`Machine.Refines` relates the states of two machines such that both give the same
answers; `Refines.answers_eq` carries this from one input to every sequence of inputs.

`Fifo.put` and `Fifo.get` are the operations of a queue with a capacity, on lists. An
implementation keeps the queue in numbered places, oldest first: `Fifo.Window` says that
the places hold the queue and nothing else, and its lemmas say what has to be done to the
places in either operation.
-/

namespace Machine

variable {ι ο σ κ : Type*}

/-- The answers to a sequence of inputs. -/
def answers (step : ι → σ → ο × σ) : List ι → σ → List ο
  | [], _ => []
  | i :: is, s => (step i s).1 :: answers step is (step i s).2

/-- The state behind a sequence of inputs. -/
def after (step : ι → σ → ο × σ) (is : List ι) (s : σ) : σ :=
  is.foldl (fun s i => (step i s).2) s

/-- On the inputs with `ok`, related states give the same answer and go on to related
states. -/
structure Refines (step : ι → σ → ο × σ) (spec : ι → κ → ο × κ) (ok : ι → Prop)
    (R : σ → κ → Prop) : Prop where
  answer : ∀ i s k, ok i → R s k → (step i s).1 = (spec i k).1
  next : ∀ i s k, ok i → R s k → R (step i s).2 (spec i k).2

namespace Refines

variable {step : ι → σ → ο × σ} {spec : ι → κ → ο × κ} {ok : ι → Prop} {R : σ → κ → Prop}
  {is : List ι} {s : σ} {k : κ}

theorem after (h : Refines step spec ok R) (his : ∀ i ∈ is, ok i) (hR : R s k) :
    R (Machine.after step is s) (Machine.after spec is k) := by
  induction is generalizing s k with
  | nil => exact hR
  | cons i is ih =>
    obtain ⟨hi, his⟩ := List.forall_mem_cons.mp his
    exact ih his (h.next i s k hi hR)

theorem answers_eq (h : Refines step spec ok R) (his : ∀ i ∈ is, ok i) (hR : R s k) :
    answers step is s = answers spec is k := by
  induction is generalizing s k with
  | nil => rfl
  | cons i is ih =>
    obtain ⟨hi, his⟩ := List.forall_mem_cons.mp his
    rw [answers, answers, h.answer i s k hi hR, ih his (h.next i s k hi hR)]

end Refines

end Machine

namespace Fifo

variable {α : Type*} {cap : Nat}

/-- Put an element behind the others, unless the queue is full. -/
def put (cap : Nat) (x : α) (q : List α) : Bool × List α :=
  if q.length < cap then (true, q ++ [x]) else (false, q)

/-- Take the oldest element. -/
def get (q : List α) : Option α × List α := (q.head?, q.tail)

/-- The first `cap` places hold the queue, and nothing else. -/
structure Window (cap : Nat) (place : Nat → Option α) (q : List α) : Prop where
  le : q.length ≤ cap
  entry : ∀ i < cap, place i = q[i]?

namespace Window

variable {place place' : Nat → Option α} {q : List α} {x : α}

theorem nil (h : ∀ i < cap, place i = none) : Window cap place [] where
  le := Nat.zero_le cap
  entry i hi := by rw [h i hi, List.getElem?_nil]

/-- A place is taken if and only if it is one of the first. -/
theorem eq_none_iff (h : Window cap place q) {i : Nat} (hi : i < cap) :
    place i = none ↔ q.length ≤ i := by
  rw [h.entry i hi, List.getElem?_eq_none_iff]

/-- The place behind the last element is taken by the new one. -/
theorem put (h : Window cap place q) (hroom : q.length < cap) (hnew : place' q.length = some x)
    (hold : ∀ i < cap, i ≠ q.length → place' i = place i) : Window cap place' (q ++ [x]) where
  le := by
    rw [List.length_append, List.length_singleton]
    omega
  entry i hi := by
    rcases eq_or_ne i q.length with rfl | hne
    · rw [hnew, List.getElem?_concat_length]
    · rw [hold i hi hne, h.entry i hi, List.getElem?_append]
      split
      · rfl
      · rw [List.getElem?_eq_none (by omega), List.getElem?_eq_none (by simp; omega)]

/-- The other elements move up, and the last place becomes free. -/
theorem get (h : Window (cap + 1) place (x :: q)) (hmove : ∀ i < cap, place' i = place (i + 1))
    (hlast : place' cap = none) : Window (cap + 1) place' q where
  le := by
    have hle := h.le
    rw [List.length_cons] at hle
    omega
  entry i hi := by
    rcases Nat.lt_succ_iff_lt_or_eq.mp hi with hlt | rfl
    · rw [hmove i hlt, h.entry (i + 1) (by omega), List.getElem?_cons_succ]
    · have hle := h.le
      rw [List.length_cons] at hle
      rw [hlast, List.getElem?_eq_none (by omega)]

end Window

end Fifo
