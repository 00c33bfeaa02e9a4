import Mathlib

/-!
# Chains of bounded arrays

A chain is a list of arrays of one capacity, filled first-fit: an element is
put into the first array that has room, and a new array is linked behind the
last one when none has. Elements are removed by position, the rest of the same
array moving up.

`Chain.contents` is what a chain holds. `Chain.contents_append_perm` and
`Chain.contents_removeAt_perm` say that the two operations add and remove
exactly one element; `Chain.contents_append_eq` and `Chain.contents_removeFirst`
also say where. `Chain.entryAt` is what a walk over a chain sees at a position,
and the `entryAt` lemmas say how the two operations move it.
-/

/-- An array with room for `cap` elements. The bound is part of the value. -/
structure BArray (cap : Nat) (α : Type*) where
  entries : List α
  le : entries.length ≤ cap

namespace BArray

variable {cap : Nat} {α : Type*}

/-- An array with nothing in it. -/
def empty : BArray cap α := ⟨[], Nat.zero_le cap⟩

/-- Put `x` behind the last used place. -/
def push (a : BArray cap α) (x : α) (h : a.entries.length < cap) : BArray cap α :=
  ⟨a.entries ++ [x], by simp only [List.length_append, List.length_singleton]; omega⟩

/-- A fresh array that holds `x` alone. -/
def single [NeZero cap] (x : α) : BArray cap α :=
  ⟨[x], Nat.pos_of_ne_zero (NeZero.ne cap)⟩

/-- Remove the element at place `i`; the elements behind it move up. -/
def eraseIdx (a : BArray cap α) (i : Nat) : BArray cap α :=
  ⟨a.entries.eraseIdx i, Nat.le_trans (List.length_eraseIdx_le a.entries i) a.le⟩

@[ext]
theorem ext {a b : BArray cap α} (h : a.entries = b.entries) : a = b := by
  cases a
  cases b
  cases h
  rfl

@[simp] theorem entries_empty : (empty : BArray cap α).entries = [] := rfl

@[simp] theorem entries_single [NeZero cap] (x : α) :
    (single x : BArray cap α).entries = [x] := rfl

@[simp] theorem entries_push (a : BArray cap α) (x : α) (h : a.entries.length < cap) :
    (a.push x h).entries = a.entries ++ [x] := rfl

@[simp] theorem entries_eraseIdx (a : BArray cap α) (i : Nat) :
    (a.eraseIdx i).entries = a.entries.eraseIdx i := rfl

end BArray

/-- A chain of arrays, the head array first. -/
abbrev Chain (cap : Nat) (α : Type*) := List (BArray cap α)

namespace Chain

variable {cap : Nat} {α : Type*}

/-- What the chain holds, in walking order. -/
def contents (c : Chain cap α) : List α := c.flatMap BArray.entries

/-- The element at place `i` of array `k`. -/
def entryAt (arrays : Chain cap α) (k i : Nat) : Option α := arrays[k]?.bind (·.entries[i]?)

/-- First-fit: put `x` into the first array with room, or into a new one. -/
def append [NeZero cap] (x : α) : Chain cap α → Chain cap α
  | [] => [BArray.single x]
  | a :: c => if h : a.entries.length < cap then a.push x h :: c else a :: append x c

/-- Remove the element at place `i` of array `k`. -/
def removeAt (c : Chain cap α) (k i : Nat) : Chain cap α := c.modify k (·.eraseIdx i)

/-- Remove the first occurrence of `x`; `none` when the chain does not hold it. -/
def removeFirst [DecidableEq α] (x : α) : Chain cap α → Option (Chain cap α)
  | [] => none
  | a :: c =>
    if x ∈ a.entries then some (a.eraseIdx (a.entries.idxOf x) :: c)
    else (removeFirst x c).map (a :: ·)

/-- Remove the first element with the property; `none` when the chain holds none. -/
def eraseFirst (p : α → Bool) : Chain cap α → Option (Chain cap α)
  | [] => none
  | a :: c =>
    match a.entries.findIdx? p with
    | some i => some (a.eraseIdx i :: c)
    | none => (eraseFirst p c).map (a :: ·)

@[simp] theorem contents_nil : contents ([] : Chain cap α) = [] := rfl

@[simp] theorem contents_cons (a : BArray cap α) (c : Chain cap α) :
    contents (a :: c) = a.entries ++ contents c := rfl

@[simp] theorem entryAt_nil (k i : Nat) : entryAt ([] : Chain cap α) k i = none := rfl

@[simp] theorem entryAt_zero (a : BArray cap α) (c : Chain cap α) (i : Nat) :
    entryAt (a :: c) 0 i = a.entries[i]? := rfl

@[simp] theorem entryAt_succ (a : BArray cap α) (c : Chain cap α) (k i : Nat) :
    entryAt (a :: c) (k + 1) i = entryAt c k i := rfl

@[simp] theorem removeAt_nil (k i : Nat) : removeAt ([] : Chain cap α) k i = [] := by
  simp [removeAt]

@[simp] theorem removeAt_zero (a : BArray cap α) (c : Chain cap α) (i : Nat) :
    removeAt (a :: c) 0 i = a.eraseIdx i :: c := rfl

@[simp] theorem removeAt_succ (a : BArray cap α) (c : Chain cap α) (k i : Nat) :
    removeAt (a :: c) (k + 1) i = a :: removeAt c k i := rfl

section Append

variable [NeZero cap]

theorem append_of_room {a : BArray cap α} (h : a.entries.length < cap) (x : α)
    (c : Chain cap α) : append x (a :: c) = a.push x h :: c := by
  simp [append, h]

theorem append_of_full {a : BArray cap α} (h : ¬ a.entries.length < cap) (x : α)
    (c : Chain cap α) : append x (a :: c) = a :: append x c := by
  simp [append, h]

end Append

/-! ## One element more, one element less -/

theorem contents_append_perm [NeZero cap] (x : α) (c : Chain cap α) :
    (contents (append x c)).Perm (x :: contents c) := by
  induction c with
  | nil => simp [append]
  | cons a c ih =>
    by_cases h : a.entries.length < cap
    · rw [append_of_room h]
      simp only [contents_cons, BArray.entries_push, List.append_assoc, List.singleton_append]
      exact List.perm_middle
    · rw [append_of_full h]
      exact (List.Perm.append_left a.entries ih).trans List.perm_middle

theorem contents_removeAt_perm {c : Chain cap α} {k i : Nat} {x : α}
    (h : entryAt c k i = some x) : (x :: contents (removeAt c k i)).Perm (contents c) := by
  induction c generalizing k with
  | nil => cases h
  | cons a c ih =>
    cases k with
    | zero =>
      obtain ⟨hi, hx⟩ := List.getElem?_eq_some_iff.mp h
      have herase : (x :: a.entries.eraseIdx i).Perm a.entries :=
        hx ▸ List.getElem_cons_eraseIdx_perm hi
      exact List.Perm.append_right (contents c) herase
    | succ k =>
      refine (List.perm_middle.symm).trans ?_
      exact List.Perm.append_left a.entries (ih h)

/-- The new element stands between the others, which keep their order. -/
theorem contents_append_eq [NeZero cap] (x : α) (c : Chain cap α) :
    ∃ before after, contents c = before ++ after ∧
      contents (append x c) = before ++ x :: after := by
  induction c with
  | nil => exact ⟨[], [], rfl, rfl⟩
  | cons a c ih =>
    by_cases h : a.entries.length < cap
    · exact ⟨a.entries, contents c, rfl, by simp [append_of_room h]⟩
    · obtain ⟨before, after, hc, happend⟩ := ih
      refine ⟨a.entries ++ before, after, ?_, ?_⟩
      · rw [contents_cons, hc, List.append_assoc]
      · rw [append_of_full h, contents_cons, happend, List.append_assoc]

theorem contents_eraseFirst (p : α → Bool) (c : Chain cap α) :
    (eraseFirst p c).map contents =
      if (contents c).any p then some ((contents c).eraseP p) else none := by
  induction c with
  | nil => rfl
  | cons a c ih =>
    rw [contents_cons, List.any_append, List.eraseP_append, eraseFirst]
    cases hfind : a.entries.findIdx? p with
    | none =>
      have hnone : a.entries.any p = false := by
        rw [List.findIdx?_eq_none_iff] at hfind
        simpa using hfind
      have hmap : ((eraseFirst p c).map (a :: ·)).map contents =
          ((eraseFirst p c).map contents).map (a.entries ++ ·) := by
        rw [Option.map_map, Option.map_map]
        rfl
      rw [hmap, ih, hnone]
      split <;> simp_all
    | some i =>
      have hany : a.entries.any p = true := by
        rw [List.any_eq_true]
        obtain ⟨hi, hp, _⟩ := List.findIdx?_eq_some_iff_getElem.mp hfind
        exact ⟨_, List.getElem_mem hi, hp⟩
      have herase : a.entries.eraseP p = a.entries.eraseIdx i := by
        rw [List.eraseP_eq_eraseIdx, hfind]
      simp [hany, herase]

theorem mem_append_iff [NeZero cap] {x y : α} {c : Chain cap α} :
    y ∈ contents (append x c) ↔ y = x ∨ y ∈ contents c := by
  rw [(contents_append_perm x c).mem_iff, List.mem_cons]

theorem mem_of_mem_removeAt {c : Chain cap α} {k i : Nat} {y : α}
    (h : y ∈ contents (removeAt c k i)) : y ∈ contents c := by
  induction c generalizing k with
  | nil => exact absurd h (by simp)
  | cons a c ih =>
    cases k with
    | zero =>
      simp only [removeAt_zero, contents_cons, BArray.entries_eraseIdx, List.mem_append] at h ⊢
      exact h.imp_left List.mem_of_mem_eraseIdx
    | succ k =>
      simp only [removeAt_succ, contents_cons, List.mem_append] at h ⊢
      exact h.imp_right ih

theorem mem_of_entryAt {c : Chain cap α} {k i : Nat} {x : α} (h : entryAt c k i = some x) :
    x ∈ contents c :=
  (contents_removeAt_perm h).subset (List.mem_cons_self)

theorem lt_of_entryAt {c : Chain cap α} {k i : Nat} {x : α} (h : entryAt c k i = some x) :
    k < c.length ∧ i < cap := by
  obtain ⟨a, ha, hx⟩ := Option.bind_eq_some_iff.mp h
  exact ⟨(List.getElem?_eq_some_iff.mp ha).1,
    Nat.lt_of_lt_of_le (List.getElem?_eq_some_iff.mp hx).1 a.le⟩

theorem length_removeAt (c : Chain cap α) (k i : Nat) : (removeAt c k i).length = c.length :=
  List.length_modify ..

theorem getElem?_removeAt (arrays : Chain cap α) (k i k' : Nat) :
    (removeAt arrays k i)[k']? =
      if k = k' then arrays[k']?.map (·.eraseIdx i) else arrays[k']? := by
  rw [removeAt, List.getElem?_modify]
  split_ifs <;> simp

theorem mem_removeAt_of_ne {c : Chain cap α} {k i : Nat} {x y : α}
    (h : entryAt c k i = some x) (hne : y ≠ x) (hy : y ∈ contents c) :
    y ∈ contents (removeAt c k i) := by
  rw [← (contents_removeAt_perm h).mem_iff] at hy
  exact (List.mem_cons.mp hy).resolve_left hne

/-- Two elements of one array, in their order. -/
theorem pair_sublist_of_entryAt {arrays : Chain cap α} {a : BArray cap α} {k i j : Nat}
    {x y : α} (ha : arrays[k]? = some a) (hx : entryAt arrays k i = some x)
    (hy : entryAt arrays k j = some y) (hij : i < j) : [x, y].Sublist a.entries := by
  rw [entryAt, ha] at hx hy
  obtain ⟨hi, rfl⟩ := List.getElem?_eq_some_iff.mp hx
  obtain ⟨hj, rfl⟩ := List.getElem?_eq_some_iff.mp hy
  have hmem : a.entries[j] ∈ a.entries.drop (i + 1) := by
    refine List.mem_iff_getElem?.mpr ⟨j - (i + 1), ?_⟩
    rw [List.getElem?_drop, Nat.add_sub_cancel' hij, List.getElem?_eq_getElem hj]
  have hdrop : [a.entries[i], a.entries[j]].Sublist (a.entries.drop i) := by
    rw [List.drop_eq_getElem_cons hi]
    exact (List.singleton_sublist.mpr hmem).cons_cons _
  exact hdrop.trans (List.drop_sublist i a.entries)

theorem exists_entryAt_of_mem {c : Chain cap α} {x : α} (h : x ∈ contents c) :
    ∃ k i, entryAt c k i = some x := by
  induction c with
  | nil => exact absurd h List.not_mem_nil
  | cons a c ih =>
    rcases List.mem_append.mp h with ha | hc
    · obtain ⟨i, hi⟩ := List.mem_iff_getElem?.mp ha
      exact ⟨0, i, hi⟩
    · obtain ⟨k, i, hk⟩ := ih hc
      exact ⟨k + 1, i, hk⟩

section Count

variable [DecidableEq α]

theorem count_append [NeZero cap] (x y : α) (c : Chain cap α) :
    (contents (append x c)).count y = (contents c).count y + if y = x then 1 else 0 := by
  rw [(contents_append_perm x c).count_eq, List.count_cons]
  by_cases h : y = x
  · simp [h]
  · simp [h, Ne.symm h]

theorem count_removeAt {c : Chain cap α} {k i : Nat} {x : α} (h : entryAt c k i = some x) (y : α) :
    (contents (removeAt c k i)).count y + (if y = x then 1 else 0) = (contents c).count y := by
  rw [← (contents_removeAt_perm h).count_eq, List.count_cons]
  by_cases hy : y = x
  · simp [hy]
  · simp [hy, Ne.symm hy]

theorem removeFirst_eq_eraseFirst (x : α) (c : Chain cap α) :
    removeFirst x c = eraseFirst (· == x) c := by
  induction c with
  | nil => rfl
  | cons a c ih =>
    rw [removeFirst, eraseFirst]
    split
    · next hx =>
      have hfind : a.entries.findIdx? (· == x) = some (a.entries.idxOf x) :=
        List.findIdx?_eq_some_of_exists ⟨x, hx, beq_self_eq_true x⟩
      rw [hfind]
    · next hx =>
      have hfind : a.entries.findIdx? (· == x) = none := List.idxOf?_eq_none_iff.mpr hx
      rw [hfind, ih]

/-- The first occurrence in the chain is removed from the contents. -/
theorem contents_removeFirst (x : α) (c : Chain cap α) :
    (removeFirst x c).map contents =
      if x ∈ contents c then some ((contents c).erase x) else none := by
  rw [removeFirst_eq_eraseFirst, contents_eraseFirst, List.erase_eq_eraseP']
  simp only [List.any_beq', List.elem_eq_mem, decide_eq_true_eq]

theorem contents_of_removeFirst {x : α} {c c' : Chain cap α} (h : removeFirst x c = some c') :
    x ∈ contents c ∧ contents c' = (contents c).erase x := by
  have hmap := contents_removeFirst x c
  rw [h, Option.map_some] at hmap
  split at hmap
  · next hx => exact ⟨hx, Option.some.inj hmap⟩
  · cases hmap

theorem removeFirst_eq_none_iff {x : α} {c : Chain cap α} :
    removeFirst x c = none ↔ x ∉ contents c := by
  rw [← Option.map_eq_none_iff (f := contents), contents_removeFirst]
  simp

theorem removeFirst_perm {x : α} {c c' : Chain cap α} (h : removeFirst x c = some c') :
    (x :: contents c').Perm (contents c) := by
  obtain ⟨hx, hcontents⟩ := contents_of_removeFirst h
  rw [hcontents]
  exact (List.perm_cons_erase hx).symm

theorem count_removeFirst {x : α} {c c' : Chain cap α} (h : removeFirst x c = some c') (y : α) :
    (contents c').count y + (if y = x then 1 else 0) = (contents c).count y := by
  rw [← (removeFirst_perm h).count_eq, List.count_cons]
  by_cases hy : y = x
  · simp [hy]
  · simp [hy, Ne.symm hy]

end Count

/-! ## Positions -/

/-- Appending leaves every element at its position. -/
theorem entryAt_append_of_some [NeZero cap] {c : Chain cap α} {k i : Nat} {x y : α}
    (h : entryAt c k i = some x) : entryAt (append y c) k i = some x := by
  induction c generalizing k with
  | nil => cases h
  | cons a c ih =>
    by_cases hroom : a.entries.length < cap
    · rw [append_of_room hroom]
      cases k with
      | zero =>
        obtain ⟨hi, _⟩ := List.getElem?_eq_some_iff.mp h
        simpa [List.getElem?_append_left hi] using h
      | succ k => exact h
    · rw [append_of_full hroom]
      cases k with
      | zero => exact h
      | succ k => exact ih h

/-- Every position of the longer chain holds what it held, or the new element. -/
theorem entryAt_append_inv [NeZero cap] {c : Chain cap α} {k i : Nat} {x y : α}
    (h : entryAt (append y c) k i = some x) : entryAt c k i = some x ∨ x = y := by
  induction c generalizing k with
  | nil =>
    have hx := mem_of_entryAt h
    simp only [append, contents_cons, BArray.entries_single, contents_nil, List.append_nil,
      List.mem_singleton] at hx
    exact Or.inr hx
  | cons a c ih =>
    by_cases hroom : a.entries.length < cap
    · rw [append_of_room hroom] at h
      cases k with
      | zero =>
        simp only [entryAt_zero, BArray.entries_push, List.getElem?_append] at h ⊢
        split at h
        · exact Or.inl h
        · exact Or.inr (List.mem_singleton.mp (List.mem_of_getElem? h))
      | succ k => exact Or.inl h
    · rw [append_of_full hroom] at h
      cases k with
      | zero => exact Or.inl h
      | succ k => exact ih h

/-- Removing at `(k, i)` leaves every position before `(k, i)` alone. -/
theorem entryAt_removeAt_of_before {c : Chain cap α} {k i k' i' : Nat}
    (h : k' < k ∨ (k' = k ∧ i' < i)) : entryAt (removeAt c k i) k' i' = entryAt c k' i' := by
  induction c generalizing k k' with
  | nil => simp
  | cons a c ih =>
    cases k with
    | zero =>
      cases k' with
      | zero =>
        have hi : i' < i := by omega
        simp [List.getElem?_eraseIdx, hi]
      | succ k' => omega
    | succ k =>
      cases k' with
      | zero => rfl
      | succ k' => exact ih (by omega)

/-- Removing at place `i` of array `k` moves the places behind it up by one. -/
theorem entryAt_removeAt_same {c : Chain cap α} {k i i' : Nat} (h : i ≤ i') :
    entryAt (removeAt c k i) k i' = entryAt c k (i' + 1) := by
  induction c generalizing k with
  | nil => simp
  | cons a c ih =>
    cases k with
    | zero => simp [List.getElem?_eraseIdx, Nat.not_lt.mpr h]
    | succ k => exact ih

theorem entryAt_removeAt_ne {c : Chain cap α} {k i k' i' : Nat} (h : k' ≠ k) :
    entryAt (removeAt c k i) k' i' = entryAt c k' i' := by
  induction c generalizing k k' with
  | nil => simp
  | cons a c ih =>
    cases k with
    | zero =>
      cases k' with
      | zero => exact absurd rfl h
      | succ k' => rfl
    | succ k =>
      cases k' with
      | zero => rfl
      | succ k' => exact ih (by omega)

/-- A removal keeps every element in its array. -/
theorem exists_entryAt_of_removeAt {c : Chain cap α} {k i k' i' : Nat} {x : α}
    (h : entryAt (removeAt c k i) k' i' = some x) : ∃ i'', entryAt c k' i'' = some x := by
  by_cases hk : k' = k
  · subst hk
    by_cases hi : i' < i
    · exact ⟨i', (entryAt_removeAt_of_before (Or.inr ⟨rfl, hi⟩)).symm.trans h⟩
    · exact ⟨i' + 1, (entryAt_removeAt_same (Nat.not_lt.mp hi)).symm.trans h⟩
  · exact ⟨i', (entryAt_removeAt_ne hk).symm.trans h⟩

/-! A walk that only removes elements leaves the arrays in place. -/

/-- Each array of `c'` is what removals left of the array of `c` at the same place. -/
def Shrunk (c' c : Chain cap α) : Prop :=
  List.Forall₂ (fun a' a => a'.entries.Sublist a.entries) c' c

theorem Shrunk.refl (c : Chain cap α) : Shrunk c c :=
  List.forall₂_same.mpr fun _ _ => List.Sublist.refl _

theorem Shrunk.removeAt {c' c : Chain cap α} (h : Shrunk c' c) (k i : Nat) :
    Shrunk (removeAt c' k i) c := by
  induction h generalizing k with
  | nil => simpa using Shrunk.refl _
  | cons ha hc ih =>
    cases k with
    | zero => exact .cons ((List.eraseIdx_sublist _ _).trans ha) hc
    | succ k => exact .cons ha (ih k)

/-- The arrays of a shrunk chain are at their places. -/
theorem Shrunk.exists_sublist {c' c : Chain cap α} (h : Shrunk c' c) {k : Nat}
    {a' : BArray cap α} (ha' : c'[k]? = some a') :
    ∃ a ∈ c, a'.entries.Sublist a.entries := by
  induction h generalizing k with
  | nil => cases ha'
  | cons ha _ ih =>
    cases k with
    | zero =>
      cases ha'
      exact ⟨_, List.mem_cons_self, ha⟩
    | succ k =>
      obtain ⟨a, hmem, hsub⟩ := ih ha'
      exact ⟨a, List.mem_cons_of_mem _ hmem, hsub⟩

/-! A walk stands at a position. What is ahead of it is at that position or
behind it in walking order. -/

/-- `x` is ahead of a walk that stands at place `i` of array `k`. -/
def Ahead (c : Chain cap α) (k i : Nat) (x : α) : Prop :=
  ∃ k' i', entryAt c k' i' = some x ∧ (k < k' ∨ (k = k' ∧ i ≤ i'))

theorem Ahead.append [NeZero cap] {c : Chain cap α} {k i : Nat} {x : α} (h : Ahead c k i x)
    (y : α) : Ahead (append y c) k i x := by
  obtain ⟨k', i', hx, hle⟩ := h
  exact ⟨k', i', entryAt_append_of_some hx, hle⟩

/-- Removing the element a walk looks at leaves the others ahead. -/
theorem Ahead.removeAt {c : Chain cap α} {k i : Nat} {x y : α} (h : Ahead c k i x)
    (hy : entryAt c k i = some y) (hne : x ≠ y) : Ahead (removeAt c k i) k i x := by
  obtain ⟨k', i', hx, hle⟩ := h
  by_cases hk : k' = k
  · subst hk
    have hi : i < i' := by
      rcases Nat.lt_or_ge i i' with hlt | hge
      · exact hlt
      · obtain rfl : i' = i := by omega
        exact absurd (Option.some.inj (hx.symm.trans hy)) hne
    obtain ⟨j, rfl⟩ : ∃ j, i' = j + 1 := ⟨i' - 1, by omega⟩
    exact ⟨k', j, (entryAt_removeAt_same (by omega)).trans hx, Or.inr ⟨rfl, by omega⟩⟩
  · exact ⟨k', i', (entryAt_removeAt_ne hk).trans hx, by omega⟩

/-- Passing over an element leaves the others ahead. -/
theorem Ahead.next {c : Chain cap α} {k i : Nat} {x y : α} (h : Ahead c k i x)
    (hy : entryAt c k i = some y) (hne : x ≠ y) : Ahead c k (i + 1) x := by
  obtain ⟨k', i', hx, hle⟩ := h
  refine ⟨k', i', hx, ?_⟩
  by_contra hnot
  obtain ⟨rfl, rfl⟩ : k' = k ∧ i' = i := by omega
  exact hne (Option.some.inj (hx.symm.trans hy))

theorem entryAt_eq_none_of_le {arrays : Chain cap α} {k i i' : Nat}
    (h : entryAt arrays k i = none) (hi : i ≤ i') : entryAt arrays k i' = none := by
  unfold entryAt at h ⊢
  cases hk : arrays[k]? with
  | none => rfl
  | some a =>
    simp only [hk, Option.bind_some, List.getElem?_eq_none_iff] at h ⊢
    omega

/-- At the end of an array everything ahead is in a later one. -/
theorem Ahead.nextArray {c : Chain cap α} {k i : Nat} {x : α} (h : Ahead c k i x)
    (hend : entryAt c k i = none) : Ahead c (k + 1) 0 x := by
  obtain ⟨k', i', hx, hle⟩ := h
  refine ⟨k', i', hx, ?_⟩
  rcases hle with hlt | ⟨rfl, hi⟩
  · omega
  · rw [entryAt_eq_none_of_le hend hi] at hx
    cases hx

theorem not_ahead_of_length_le {c : Chain cap α} {k i : Nat} {x : α} (h : c.length ≤ k) :
    ¬ Ahead c k i x := by
  rintro ⟨k', i', hx, hle⟩
  rw [entryAt, List.getElem?_eq_none (by omega)] at hx
  cases hx

/-- An element that is appended during a walk of the head array is put ahead. -/
theorem exists_entryAt_append_head [NeZero cap] {c : Chain cap α} {i : Nat} {x : α}
    (h : entryAt c 0 i = some x) (y : α) :
    ∃ k' i', entryAt (append y c) k' i' = some y ∧ (0 < k' ∨ (0 = k' ∧ i < i')) := by
  cases c with
  | nil => cases h
  | cons a c =>
    by_cases hroom : a.entries.length < cap
    · obtain ⟨hi, _⟩ := List.getElem?_eq_some_iff.mp h
      refine ⟨0, a.entries.length, ?_, Or.inr ⟨rfl, hi⟩⟩
      rw [append_of_room hroom]
      simp
    · have hmem : y ∈ contents (append y c) := mem_append_iff.mpr (Or.inl rfl)
      obtain ⟨k', i', hy⟩ := exists_entryAt_of_mem hmem
      refine ⟨k' + 1, i', ?_, Or.inl (Nat.succ_pos _)⟩
      rw [append_of_full hroom]
      exact hy

/-- After a move within the head array the moved element is ahead. -/
theorem ahead_move_head [NeZero cap] {c : Chain cap α} {i : Nat} {x : α}
    (h : entryAt c 0 i = some x) (y : α) : Ahead (removeAt (append y c) 0 i) 0 i y := by
  obtain ⟨k', i', hy, hlt⟩ := exists_entryAt_append_head h y
  rcases hlt with hlt | ⟨rfl, hlt⟩
  · exact ⟨k', i', (entryAt_removeAt_ne (by omega)).trans hy, Or.inl hlt⟩
  · obtain ⟨j, rfl⟩ : ∃ j, i' = j + 1 := ⟨i' - 1, by omega⟩
    exact ⟨0, j, (entryAt_removeAt_same (by omega)).trans hy, Or.inr ⟨rfl, by omega⟩⟩

/-- Every place of `x` is ahead of a walk that stands at place `i` of array `k`. -/
def AllAhead (c : Chain cap α) (k i : Nat) (x : α) : Prop :=
  ∀ k' i', entryAt c k' i' = some x → k < k' ∨ (k = k' ∧ i ≤ i')

theorem AllAhead.removeAt {c : Chain cap α} {k i : Nat} {x : α} (h : AllAhead c k i x) :
    AllAhead (removeAt c k i) k i x := by
  intro k' i' hx
  by_cases hk : k' = k
  · subst hk
    by_cases hi : i' < i
    · rw [entryAt_removeAt_of_before (Or.inr ⟨rfl, hi⟩)] at hx
      have := h k' i' hx
      omega
    · exact Or.inr ⟨rfl, Nat.not_lt.mp hi⟩
  · rw [entryAt_removeAt_ne hk] at hx
    exact (h k' i' hx).imp_right fun hle => absurd hle.1.symm hk

theorem AllAhead.next {c : Chain cap α} {k i : Nat} {x : α} (h : AllAhead c k i x)
    (hne : entryAt c k i ≠ some x) : AllAhead c k (i + 1) x := by
  intro k' i' hx
  refine (h k' i' hx).imp_right fun ⟨hk, hi⟩ => ⟨hk, ?_⟩
  subst hk
  rcases Nat.lt_or_eq_of_le hi with hlt | rfl
  · exact hlt
  · exact absurd hx hne

/-- The walk may leave an array that holds no `x` from its place on. -/
theorem AllAhead.nextArray {c : Chain cap α} {k i : Nat} {x : α} (h : AllAhead c k i x)
    (hno : ∀ i', i ≤ i' → entryAt c k i' ≠ some x) : AllAhead c (k + 1) 0 x := by
  intro k' i' hx
  rcases h k' i' hx with hlt | ⟨rfl, hi⟩
  · omega
  · exact absurd hx (hno i' hi)

theorem not_mem_of_allAhead {c : Chain cap α} {k i : Nat} {x : α} (h : AllAhead c k i x)
    (hend : c.length ≤ k) : x ∉ contents c := by
  intro hx
  obtain ⟨k', i', hentry⟩ := exists_entryAt_of_mem hx
  have hlt := (lt_of_entryAt hentry).1
  have := h k' i' hentry
  omega

end Chain
