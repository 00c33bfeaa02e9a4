import Mathlib

/-!
# Containers with several unique keys

A container of elements in which no two elements agree in any of the unique keys.
`clash a b` says that `a` and `b` agree in one of them; the container carries the proof that
its elements do not clash. An element that clashes is refused, without a change.

`mem_insert`, `mem_erase`, `mem_replace` and `mem_modify` say what the operations do, and
`filter_eq_singleton` that a unique key picks one element.
-/

/-- The elements of the container do not clash. -/
structure MultiIndex (α : Type*) (clash : α → α → Prop) where
  elems : List α
  apart : elems.Pairwise fun a b => ¬ clash a b

namespace MultiIndex

variable {α : Type*} {clash : α → α → Prop}

def empty : MultiIndex α clash := ⟨[], List.Pairwise.nil⟩

def size (s : MultiIndex α clash) : Nat := s.elems.length

def find? (p : α → Bool) (s : MultiIndex α clash) : Option α := s.elems.find? p

/-- Erase the elements with a key. -/
def erase (p : α → Bool) (s : MultiIndex α clash) : MultiIndex α clash :=
  ⟨s.elems.filter fun a => !p a, s.apart.filter _⟩

/-- The element clashes with one of the container. -/
def Refuses (s : MultiIndex α clash) (a : α) : Prop := ∃ b ∈ s.elems, clash a b

section Change

variable [DecidableRel clash]

instance (s : MultiIndex α clash) (a : α) : Decidable (s.Refuses a) :=
  inferInstanceAs (Decidable (∃ b ∈ s.elems, clash a b))

/-- Insert an element, unless it is refused. -/
def insert (a : α) (s : MultiIndex α clash) : MultiIndex α clash :=
  if h : s.Refuses a then s
  else ⟨a :: s.elems, List.pairwise_cons.mpr ⟨fun b hb hclash => h ⟨b, hb, hclash⟩, s.apart⟩⟩

/-- Replace the element with a key, unless the new one clashes with another element. -/
def replace (p : α → Bool) (a : α) (s : MultiIndex α clash) : MultiIndex α clash :=
  if (s.erase p).Refuses a then s else (s.erase p).insert a

/-- Change the element with a key in place; it is erased when it clashes afterwards. There
has to be such an element. -/
def modify (p : α → Bool) (f : α → α) (s : MultiIndex α clash) : Option (MultiIndex α clash) :=
  (s.find? p).map fun a => (s.erase p).insert (f a)

end Change

/-! ## Elements -/

variable {s : MultiIndex α clash} {p : α → Bool} {a b : α}

theorem mem_erase : b ∈ (s.erase p).elems ↔ b ∈ s.elems ∧ p b = false := by
  simp [erase]

theorem mem_of_find? (h : s.find? p = some a) : a ∈ s.elems := List.mem_of_find?_eq_some h

theorem of_find? (h : s.find? p = some a) : p a = true := List.find?_some h

theorem find?_eq_none : s.find? p = none ↔ ∀ a ∈ s.elems, p a = false := by
  simp [find?]

theorem not_clash [Std.Symm clash] (ha : a ∈ s.elems) (hb : b ∈ s.elems) (hne : a ≠ b) :
    ¬ clash a b := by
  have hsymm : Std.Symm fun a b => ¬ clash a b := ⟨fun _ _ h h' => h (symm h')⟩
  exact s.apart.forall ha hb hne

/-- A unique key picks one element. -/
theorem filter_eq_singleton (hkey : ∀ a b, p a = true → p b = true → clash a b)
    (ha : a ∈ s.elems) (hp : p a = true) : s.elems.filter p = [a] := by
  have hmem : a ∈ s.elems.filter p := List.mem_filter.mpr ⟨ha, hp⟩
  have hall : ∀ b ∈ s.elems.filter p, p b = true := fun b hb => (List.mem_filter.mp hb).2
  have hpair := s.apart.filter p
  revert hmem hall hpair
  generalize s.elems.filter p = l
  intro hmem hall hpair
  cases l with
  | nil => cases hmem
  | cons b l =>
    cases l with
    | nil => rw [List.mem_singleton.mp hmem]
    | cons c l =>
      have hclash := hkey b c (hall b (by simp)) (hall c (by simp))
      exact absurd hclash ((List.pairwise_cons.mp hpair).1 c (by simp))

/-- Two elements with the same unique key are the same. -/
theorem eq_of_key (hkey : ∀ a b, p a = true → p b = true → clash a b) (ha : a ∈ s.elems)
    (hpa : p a = true) (hb : b ∈ s.elems) (hpb : p b = true) : b = a := by
  have hmem : b ∈ s.elems.filter p := List.mem_filter.mpr ⟨hb, hpb⟩
  rwa [filter_eq_singleton hkey ha hpa, List.mem_singleton] at hmem

theorem find?_eq_some (hkey : ∀ a b, p a = true → p b = true → clash a b) (ha : a ∈ s.elems)
    (hp : p a = true) : s.find? p = some a := by
  cases hfind : s.find? p with
  | none =>
    rw [find?_eq_none.mp hfind a ha] at hp
    cases hp
  | some b => rw [eq_of_key hkey ha hp (mem_of_find? hfind) (of_find? hfind)]

/-- A new value that agrees with the old one in all keys is not refused. -/
theorem not_refuses_erase [Std.Symm clash] {a' : α} (ha : a ∈ s.elems) (hp : p a = true)
    (hsame : ∀ b, clash a' b → clash a b) : ¬ (s.erase p).Refuses a' := by
  rintro ⟨b, hb, hclash⟩
  obtain ⟨hb, hpb⟩ := mem_erase.mp hb
  have hne : a ≠ b := by
    rintro rfl
    rw [hp] at hpb
    cases hpb
  exact not_clash ha hb hne (hsame b hclash)

section Change

variable [DecidableRel clash]

theorem mem_insert : b ∈ (s.insert a).elems ↔ b ∈ s.elems ∨ (b = a ∧ ¬ s.Refuses a) := by
  unfold insert
  split
  · next h => simp [h]
  · next h => simp [h, or_comm]

theorem elems_insert (h : ¬ s.Refuses a) : (s.insert a).elems = a :: s.elems := by
  rw [insert, dif_neg h]

theorem mem_insert_of_not_refuses (h : ¬ s.Refuses a) :
    b ∈ (s.insert a).elems ↔ b ∈ s.elems ∨ b = a := by
  simp [mem_insert, h]

/-- Replacing an element by one with the same keys. -/
theorem mem_replace [Std.Symm clash] {a' : α} (ha : a ∈ s.elems) (hp : p a = true)
    (hsame : ∀ b, clash a' b → clash a b) :
    b ∈ (s.replace p a').elems ↔ (b ∈ s.elems ∧ p b = false) ∨ b = a' := by
  have hno := not_refuses_erase ha hp hsame
  rw [replace, if_neg hno, mem_insert_of_not_refuses hno, mem_erase]

/-- Changing an element outside of its keys. -/
theorem mem_modify [Std.Symm clash] {f : α → α} {s' : MultiIndex α clash}
    (h : s.modify p f = some s') (hsame : ∀ a b, clash (f a) b → clash a b) :
    ∃ a, s.find? p = some a ∧
      ∀ b, b ∈ s'.elems ↔ (b ∈ s.elems ∧ p b = false) ∨ b = f a := by
  obtain ⟨a, ha, rfl⟩ := Option.map_eq_some_iff.mp h
  refine ⟨a, ha, fun b => ?_⟩
  have hno := not_refuses_erase (mem_of_find? ha) (of_find? ha) (hsame a)
  rw [mem_insert_of_not_refuses hno, mem_erase]

end Change

end MultiIndex
