import Mathlib

/-!
# Rosters in tables of fixed length

A table of fixed length holds a value for each key. A value replaces the one of its key, or takes
the first entry with the blank key; when there is none it is dropped. `store` is that table, and
`hear` is the roster without a limit, in the order in which the keys were first heard.

* `Shows.store`: the table shows the first entries of the roster;
* `keys_hear`: the roster keeps the keys in order, and adds a new one at the end;
* `Shows.mem_iff`: which keys the table has.
-/

namespace Roster

variable {α κ : Type*} (key : α → κ) (blank : κ)

section Code

variable [DecidableEq κ]

/-- Store a value in a table. -/
def store (x : α) : List α → List α
  | [] => []
  | a :: as =>
    if key a = key x then x :: as
    else if key a = blank then x :: as
    else a :: store x as

/-- Add a value to a roster. -/
def hear (x : α) : List α → List α
  | [] => [x]
  | a :: as => if key a = key x then x :: as else a :: hear x as

end Code

/-- The table of `n` entries shows the roster, and the entries behind it are blank. -/
structure Shows (n : Nat) (table roster : List α) : Prop where
  exists_eq : ∃ rest, table = roster.take n ++ rest ∧ ∀ a ∈ rest, key a = blank
  length_eq : table.length = n
  not_blank : ∀ a ∈ roster, key a ≠ blank

variable {key blank} {x : α} {n : Nat} {table roster : List α}

/-! ## What a table shows -/

theorem map_modifyHead {f : α → α} (hf : ∀ a, key (f a) = key a) (roster : List α) :
    (roster.modifyHead f).map key = roster.map key := by
  cases roster with
  | nil => rfl
  | cons a roster => exact congrArg (· :: roster.map key) (hf a)

/-- The first value is rewritten without a change of its key. -/
theorem Shows.modifyHead {f : α → α} (h : Shows key blank n table roster)
    (hf : ∀ a, key (f a) = key a) :
    Shows key blank n (table.modifyHead f) (roster.modifyHead f) := by
  obtain ⟨⟨rest, heq, hrest⟩, hlen, hnot⟩ := h
  refine ⟨?_, (List.length_modifyHead ..).trans hlen, fun a ha => ?_⟩
  · cases roster with
    | nil =>
      rw [List.take_nil, List.nil_append] at heq
      subst heq
      refine ⟨table.modifyHead f, (congrArg (· ++ _) List.take_nil).symm, fun a ha => ?_⟩
      cases table with
      | nil => cases ha
      | cons b table =>
        rcases List.mem_cons.mp ha with rfl | ha
        · rw [hf]
          exact hrest b List.mem_cons_self
        · exact hrest a (List.mem_cons_of_mem b ha)
    | cons b roster =>
      cases n with
      | zero =>
        obtain rfl := List.length_eq_zero_iff.mp hlen
        exact ⟨[], rfl, fun a ha => nomatch ha⟩
      | succ n =>
        rw [heq]
        exact ⟨rest, rfl, hrest⟩
  · cases roster with
    | nil => cases ha
    | cons b roster =>
      rcases List.mem_cons.mp ha with rfl | ha
      · rw [hf]
        exact hnot b List.mem_cons_self
      · exact hnot a (List.mem_cons_of_mem b ha)

/-- The first entry of the table is the first value of the roster. -/
theorem Shows.head?_eq (h : Shows key blank n table roster) (hn : 0 < n) (hne : roster ≠ []) :
    table.head? = roster.head? := by
  obtain ⟨a, roster, rfl⟩ := List.exists_cons_of_ne_nil hne
  obtain ⟨n, rfl⟩ := Nat.exists_eq_succ_of_ne_zero hn.ne'
  obtain ⟨⟨rest, rfl, _⟩, _, _⟩ := h
  rfl

/-- The table has the keys that were heard first. -/
theorem Shows.mem_iff (h : Shows key blank n table roster) {k : κ} (hk : k ≠ blank) :
    k ∈ table.map key ↔ k ∈ (roster.map key).take n := by
  obtain ⟨⟨rest, rfl, hrest⟩, _, _⟩ := h
  rw [List.map_append, List.mem_append, List.map_take]
  refine or_iff_left fun hmem => ?_
  obtain ⟨a, ha, rfl⟩ := List.mem_map.mp hmem
  exact hk (hrest a ha)

variable [DecidableEq κ]

/-! ## A value is heard -/

/-- A new key comes last, and no key is dropped. -/
theorem keys_hear (x : α) (roster : List α) :
    (hear key x roster).map key =
      if key x ∈ roster.map key then roster.map key else roster.map key ++ [key x] := by
  induction roster with
  | nil => rfl
  | cons a roster ih =>
    unfold hear
    split
    · next hsame =>
      rw [List.map_cons, List.map_cons, hsame, if_pos List.mem_cons_self]
    · next hdiff =>
      have hiff : key x ∈ (a :: roster).map key ↔ key x ∈ roster.map key := by
        rw [List.map_cons, List.mem_cons]
        exact or_iff_right (Ne.symm hdiff)
      rw [List.map_cons, ih]
      simp only [hiff]
      split <;> rfl

theorem mem_keys_hear {k : κ} :
    k ∈ (hear key x roster).map key ↔ k = key x ∨ k ∈ roster.map key := by
  rw [keys_hear]
  split
  · next hmem => exact ⟨.inr, fun h => h.elim (fun heq => heq ▸ hmem) id⟩
  · rw [List.mem_append, List.mem_singleton]
    exact or_comm

theorem nodup_keys_hear (h : (roster.map key).Nodup) : ((hear key x roster).map key).Nodup := by
  rw [keys_hear]
  split
  · exact h
  · next hnew =>
    refine List.nodup_append.mpr ⟨h, List.nodup_singleton _, ?_⟩
    rintro k hk _ hx rfl
    rw [List.mem_singleton] at hx
    exact hnew (hx ▸ hk)

theorem hear_ne_nil (x : α) (roster : List α) : hear key x roster ≠ [] := by
  cases roster with
  | nil => exact List.cons_ne_nil _ _
  | cons a roster =>
    unfold hear
    split
    · exact List.cons_ne_nil _ _
    · exact List.cons_ne_nil _ _

theorem mem_hear {a : α} (h : a ∈ hear key x roster) : a = x ∨ a ∈ roster := by
  induction roster with
  | nil => exact .inl (List.mem_singleton.mp h)
  | cons b roster ih =>
    unfold hear at h
    split at h
    · exact (List.mem_cons.mp h).imp id (List.mem_cons_of_mem b)
    · rcases List.mem_cons.mp h with rfl | h
      · exact .inr List.mem_cons_self
      · exact (ih h).imp id (List.mem_cons_of_mem b)

/-- A table shows the roster after a value as it did before. -/
theorem Shows.store (h : Shows key blank n table roster) (hx : key x ≠ blank) :
    Shows key blank n (store key blank x table) (hear key x roster) := by
  induction table generalizing n roster with
  | nil =>
    obtain rfl : 0 = n := h.length_eq
    refine ⟨⟨[], rfl, fun _ ha => nomatch ha⟩, rfl, fun a ha => ?_⟩
    rcases mem_hear ha with rfl | ha
    · exact hx
    · exact h.not_blank a ha
  | cons a table ih =>
    obtain ⟨⟨rest, heq, hrest⟩, hlen, hnot⟩ := h
    obtain ⟨n, rfl⟩ : ∃ m, n = m + 1 := ⟨table.length, hlen.symm⟩
    have hlen : table.length = n := Nat.succ.inj hlen
    cases roster with
    | nil =>
      obtain rfl : a :: table = rest := heq
      have ha : key a = blank := hrest a List.mem_cons_self
      have hstored : Roster.store key blank x (a :: table) = x :: table := by
        unfold Roster.store
        rw [if_neg (by rw [ha]; exact hx.symm), if_pos ha]
      rw [hstored]
      refine ⟨⟨table, ?_, fun b hb => hrest b (List.mem_cons_of_mem a hb)⟩, congrArg _ hlen, ?_⟩
      · show x :: table = List.take (n + 1) [x] ++ table
        rw [List.take_succ_cons, List.take_nil]
        rfl
      · intro b hb
        rw [List.mem_singleton.mp hb]
        exact hx
    | cons b roster =>
      obtain ⟨rfl, htail⟩ := List.cons.inj heq
      have hrec : Shows key blank n table roster :=
        ⟨⟨rest, htail, hrest⟩, hlen, fun c hc => hnot c (List.mem_cons_of_mem a hc)⟩
      unfold Roster.store hear
      split
      · refine ⟨⟨rest, congrArg _ htail, hrest⟩, congrArg _ hlen, fun c hc => ?_⟩
        rcases List.mem_cons.mp hc with rfl | hc
        · exact hx
        · exact hrec.not_blank c hc
      · rw [if_neg (hnot a List.mem_cons_self)]
        obtain ⟨⟨rest', heq', hrest'⟩, hlen', hnot'⟩ := ih hrec
        refine ⟨⟨rest', congrArg _ heq', hrest'⟩, congrArg _ hlen', fun c hc => ?_⟩
        rcases List.mem_cons.mp hc with rfl | hc
        · exact hnot c List.mem_cons_self
        · exact hnot' c hc

end Roster
