import Mathlib

/-!
# Sets in numbered places

A set is kept in a list of places. A place that is not in use has the value `free`. An
element is put into the first place with that value, and when there is none, the list
grows by some places: the first of them takes the element, and the others have whatever
values they come with.

`Holds free s places` says that the places hold the elements of `s`, each in one place,
and nothing else. `Holds.put_iff` says when this survives that an element is put,
`Holds.remove` that it survives that one is removed.
-/

namespace Places

variable {α : Type*} [DecidableEq α] {free a : α} {fresh places : List α} {s : Set α}

/-- Put an element into a place, unless it is in one. `fresh` is what comes behind it when
the list grows. -/
def put (free : α) (fresh : List α) (a : α) (places : List α) : List α :=
  if a ∈ places then places
  else if free ∈ places then places.set (places.idxOf free) a
  else places ++ a :: fresh

/-- Free the first place of an element. -/
def remove (free a : α) (places : List α) : List α := places.set (places.idxOf a) free

/-- The list has to grow to take the element. -/
def Grows (free a : α) (places : List α) : Prop := a ∉ places ∧ free ∉ places

/-- The places in use hold the elements of `s`, each in one place. -/
def Holds (free : α) (s : Set α) (places : List α) : Prop :=
  ∀ b, b ≠ free → (b ∈ places ↔ b ∈ s) ∧ places.count b ≤ 1

theorem holds_nil : Holds free ∅ [] := by
  intro b _
  simp

theorem count_set_idxOf {c b : α} (h : c ∈ places) (hb : b ≠ c) :
    (places.set (places.idxOf c) a).count b = places.count b + if a = b then 1 else 0 := by
  have hlt := List.idxOf_lt_length_of_mem h
  have hc : (c == b) = false := beq_eq_false_iff_ne.mpr hb.symm
  rw [List.count_set hlt, List.getElem_idxOf, hc]
  simp

theorem mem_set_idxOf {c b : α} (h : c ∈ places) (hb : b ≠ c) :
    b ∈ places.set (places.idxOf c) a ↔ b ∈ places ∨ b = a := by
  rw [← List.one_le_count_iff, ← List.one_le_count_iff, count_set_idxOf h hb]
  rcases eq_or_ne b a with rfl | hne
  · simp
  · simp [hne, hne.symm]

theorem Holds.count_eq_zero (h : Holds free s places) {b : α} (hb : b ≠ free) (hs : b ∉ s) :
    places.count b = 0 :=
  List.count_eq_zero.mpr fun hmem => hs ((h b hb).1.mp hmem)

/-- A put into a place that is there. -/
theorem Holds.put_of_not_grows (h : Holds free s places) (hno : ¬ Grows free a places) :
    Holds free (insert a s) (put free fresh a places) := by
  intro b hb
  unfold put
  split
  · next hmem =>
    refine ⟨?_, (h b hb).2⟩
    rw [Set.mem_insert_iff, ← (h b hb).1]
    constructor
    · exact Or.inr
    · rintro (rfl | hb)
      · exact hmem
      · exact hb
  · next hmem =>
    have hfree : free ∈ places := by
      by_contra hfree
      exact hno ⟨hmem, hfree⟩
    rw [if_pos hfree, mem_set_idxOf hfree hb, count_set_idxOf hfree hb, Set.mem_insert_iff,
      (h b hb).1, or_comm]
    refine ⟨Iff.rfl, ?_⟩
    split
    · next hab =>
      rw [← hab, List.count_eq_zero.mpr hmem]
    · exact (h b hb).2

/-- A put that makes the list grow is right if and only if the new places are free. -/
theorem Holds.put_of_grows_iff (h : Holds free s places) (ha : a ≠ free)
    (hgrows : Grows free a places) :
    Holds free (insert a s) (put free fresh a places) ↔ ∀ b ∈ fresh, b = free := by
  obtain ⟨hmem, hfree⟩ := hgrows
  rw [put, if_neg hmem, if_neg hfree]
  constructor
  · intro hput b hfresh
    by_contra hb
    obtain ⟨hiff, hcount⟩ := hput b hb
    have hone : 1 ≤ fresh.count b := List.one_le_count_iff.mpr hfresh
    rw [List.count_append, List.count_cons] at hcount
    -- Whatever is in a new place is in another place too.
    rcases hiff.mp (by simp [hfresh]) with rfl | hs
    · rw [beq_self_eq_true, if_pos rfl] at hcount
      omega
    · have hold : 1 ≤ places.count b := List.one_le_count_iff.mpr ((h b hb).1.mpr hs)
      omega
  · intro hfresh b hb
    have hnone : b ∉ fresh := fun hmem => hb (hfresh b hmem)
    have hzero := List.count_eq_zero.mpr hnone
    constructor
    · simp [hnone, (h b hb).1, or_comm]
    · rw [List.count_append, List.count_cons, hzero]
      rcases eq_or_ne a b with rfl | hne
      · simp [List.count_eq_zero.mpr hmem]
      · simp [hne, (h b hb).2]

/-- A put is right if and only if the places are free that the list grows by. -/
theorem Holds.put_iff (h : Holds free s places) (ha : a ≠ free) :
    Holds free (insert a s) (put free fresh a places) ↔
      (Grows free a places → ∀ b ∈ fresh, b = free) := by
  by_cases hgrows : Grows free a places
  · rw [h.put_of_grows_iff ha hgrows]
    simp [hgrows]
  · exact iff_of_true (h.put_of_not_grows hgrows) fun hg => absurd hg hgrows

theorem Holds.remove (h : Holds free s places) (ha : a ≠ free) :
    Holds free (s \ {a}) (remove free a places) := by
  intro b hb
  unfold Places.remove
  rw [Set.mem_sdiff, Set.mem_singleton_iff, ← (h b hb).1]
  by_cases hmem : a ∈ places
  · rcases eq_or_ne b a with rfl | hne
    · have hlt := List.idxOf_lt_length_of_mem hmem
      have hcount : (places.set (places.idxOf b) free).count b = 0 := by
        have hone := (h b hb).2
        rw [List.count_set hlt, List.getElem_idxOf, beq_self_eq_true,
          beq_eq_false_iff_ne.mpr hb.symm]
        simp only [if_true, Bool.false_eq_true, if_false]
        omega
      rw [hcount]
      simpa using List.count_eq_zero.mp hcount
    · rw [mem_set_idxOf hmem hne, count_set_idxOf hmem hne]
      simp [hb, hb.symm, hne, (h b hb).2]
  · rw [List.set_eq_of_length_le (List.idxOf_eq_length hmem).ge]
    refine ⟨?_, (h b hb).2⟩
    constructor
    · intro hb'
      exact ⟨hb', fun hba => hmem (hba ▸ hb')⟩
    · exact And.left

end Places
