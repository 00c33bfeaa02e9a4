import Mathlib

/-!
# Tables of linked blocks

A table is a list of blocks of `n` entries each; all entries of a block are in use
from the start, and the table grows by one block at a time. An entry is found by
walking the blocks in order. The walk looks for an entry with some property, and
remembers the first vacant entry it passes, in case there is none.

`search_spec` says what the walk finds, `locate_cases` and `locate_spec` what it finds in a
table that may grow. `entry_modify` says what a change of one entry does. `Keyed` tables
have at most one entry for a key; `Keyed.lookup_modify` says what a write does to what
is found under the keys.
-/

/-- A table of blocks of `n` entries. -/
abbrev BlockTable (n : Nat) (α : Type*) := List (Fin n → α)

/-- The place of an entry: its block and its index there. -/
abbrev BlockPos (n : Nat) := Nat × Fin n

/-- What a walk over a table ends with. -/
inductive Found (n : Nat)
  | hit (pos : BlockPos n)
  | vacant (pos : BlockPos n)
  | full
deriving DecidableEq, Repr

namespace BlockTable

variable {n : Nat} {α : Type*}

def entry (table : BlockTable n α) (pos : BlockPos n) : Option α :=
  table[pos.1]?.map (· pos.2)

/-- Change one entry. -/
def modify (table : BlockTable n α) (pos : BlockPos n) (f : α → α) : BlockTable n α :=
  List.modify table pos.1 fun block => Function.update block pos.2 (f (block pos.2))

/-- The first entry of a block with a property. -/
def firstIn (p : α → Bool) (block : Fin n → α) : Option (Fin n) :=
  (List.finRange n).find? fun i => p (block i)

/-- The walk from block `k` on. `empty` is the vacant entry it remembers. -/
def search (hit vacant : α → Bool) : Nat → Option (BlockPos n) → BlockTable n α → Found n
  | _, empty, [] => empty.elim .full .vacant
  | k, empty, block :: table =>
    match firstIn hit block with
    | some i => .hit (k, i)
    | none => search hit vacant (k + 1) (empty.or ((firstIn vacant block).map (k, ·))) table

/-- The walk over a table that gets another block when it has no vacant entry; the
walk then goes on there. -/
def locate (hit vacant : α → Bool) (fresh : Fin n → α) (table : BlockTable n α) :
    BlockTable n α × Found n :=
  match search hit vacant 0 none table with
  | .full => (table ++ [fresh], search hit vacant table.length none [fresh])
  | found => (table, found)

/-- No entry has the property. -/
def Lacks (hit : α → Bool) (table : BlockTable n α) : Prop :=
  ∀ pos a, table.entry pos = some a → hit a = false

/-! ## Entries -/

@[simp] theorem entry_modify_self {table : BlockTable n α} {pos : BlockPos n} {a : α}
    (h : table.entry pos = some a) (f : α → α) : (table.modify pos f).entry pos = some (f a) := by
  obtain ⟨block, hblock, rfl⟩ := Option.map_eq_some_iff.mp h
  simp [entry, modify, hblock]

theorem entry_modify_ne {table : BlockTable n α} {pos pos' : BlockPos n} (hne : pos' ≠ pos)
    (f : α → α) : (table.modify pos f).entry pos' = table.entry pos' := by
  obtain ⟨k, i⟩ := pos
  obtain ⟨k', i'⟩ := pos'
  rcases eq_or_ne k' k with rfl | hk
  · have hi : i' ≠ i := fun h => hne (by rw [h])
    cases h : table[k']? <;> simp [entry, modify, h, hi]
  · simp [entry, modify, hk.symm]

/-- What a change of one entry does: the entry is changed, the others are not. -/
theorem entry_modify {table : BlockTable n α} {pos pos' : BlockPos n} {f : α → α} {a a' : α}
    (h : table.entry pos = some a) (h' : (table.modify pos f).entry pos' = some a') :
    (pos' = pos ∧ a' = f a) ∨ (pos' ≠ pos ∧ table.entry pos' = some a') := by
  rcases eq_or_ne pos' pos with rfl | hne
  · rw [entry_modify_self h] at h'
    exact Or.inl ⟨rfl, (Option.some.inj h').symm⟩
  · rw [entry_modify_ne hne] at h'
    exact Or.inr ⟨hne, h'⟩

theorem modify_eq_self_iff {table : BlockTable n α} {pos : BlockPos n} {f : α → α} {a : α}
    (h : table.entry pos = some a) : table.modify pos f = table ↔ f a = a := by
  constructor
  · intro heq
    have hself := entry_modify_self h f
    rw [heq, h] at hself
    exact (Option.some.inj hself).symm
  · intro hf
    obtain ⟨block, hblock, rfl⟩ := Option.map_eq_some_iff.mp h
    refine List.ext_getElem? fun k => ?_
    rcases eq_or_ne pos.1 k with rfl | hk
    · simp [modify, hblock, hf]
    · simp [modify, hk]

theorem entry_append_left {table : BlockTable n α} {pos : BlockPos n} {a : α}
    (h : table.entry pos = some a) (more : BlockTable n α) :
    BlockTable.entry (table ++ more) pos = some a := by
  obtain ⟨block, hblock, rfl⟩ := Option.map_eq_some_iff.mp h
  have hlt := (List.getElem?_eq_some_iff.mp hblock).1
  simp [entry, List.getElem?_append_left hlt, hblock]

/-- An entry of a table with one block more is an entry of the table or of the block. -/
theorem entry_append_singleton {table : BlockTable n α} {block : Fin n → α} {pos : BlockPos n}
    {a : α} (h : BlockTable.entry (table ++ [block]) pos = some a) :
    (pos.1 < table.length ∧ table.entry pos = some a) ∨
      (pos.1 = table.length ∧ a = block pos.2) := by
  obtain ⟨b, hb, rfl⟩ := Option.map_eq_some_iff.mp h
  rcases Nat.lt_or_ge pos.1 table.length with hlt | hge
  · rw [List.getElem?_append_left hlt] at hb
    exact Or.inl ⟨hlt, by simp [entry, hb]⟩
  · rw [List.getElem?_append_right hge] at hb
    obtain ⟨hlt, rfl⟩ := List.getElem?_eq_some_iff.mp hb
    rw [List.length_singleton] at hlt
    exact Or.inr ⟨by omega, by simp⟩

/-! ## The walk -/

theorem of_firstIn_eq_some {p : α → Bool} {block : Fin n → α} {i : Fin n}
    (h : firstIn p block = some i) : p (block i) = true := by
  simpa using List.find?_some h

theorem of_firstIn_eq_none {p : α → Bool} {block : Fin n → α} (h : firstIn p block = none)
    (i : Fin n) : p (block i) = false := by
  simpa using List.find?_eq_none.mp h i (List.mem_finRange i)

theorem lacks_cons {hit : α → Bool} {block : Fin n → α} {table : BlockTable n α}
    (hblock : ∀ i, hit (block i) = false) (h : Lacks hit table) :
    Lacks hit (block :: table) := by
  rintro ⟨k, i⟩ a ha
  cases k with
  | zero =>
    obtain rfl : block i = a := by simpa [entry] using ha
    exact hblock i
  | succ k => exact h (k, i) a (by simpa [entry] using ha)

theorem entry_append_cons (before : BlockTable n α) (block : Fin n → α) (table : BlockTable n α)
    (i : Fin n) :
    BlockTable.entry (before ++ block :: table) (before.length, i) = some (block i) := by
  simp [entry]

/-- What the walk over `table` can end with, when it has walked over `before` and
remembers `empty`. -/
def Walked (hit vacant : α → Bool) (before table : BlockTable n α) (empty : Option (BlockPos n)) :
    Found n → Prop
  | .hit pos => ∃ a, BlockTable.entry (before ++ table) pos = some a ∧ hit a = true
  | .vacant pos => Lacks hit table ∧ (empty = some pos ∨
      ∃ a, BlockTable.entry (before ++ table) pos = some a ∧ vacant a = true)
  | .full => Lacks hit table ∧ Lacks vacant table ∧ empty = none

theorem search_spec (hit vacant : α → Bool) (before table : BlockTable n α)
    (empty : Option (BlockPos n)) :
    Walked hit vacant before table empty (search hit vacant before.length empty table) := by
  induction table generalizing before empty with
  | nil =>
    have hlacks : ∀ p : α → Bool, Lacks p ([] : BlockTable n α) := by
      intro p pos a ha
      simp [entry] at ha
    cases empty with
    | none => exact ⟨hlacks hit, hlacks vacant, rfl⟩
    | some pos => exact ⟨hlacks hit, Or.inl rfl⟩
  | cons block table ih =>
    rw [search]
    cases hhit : firstIn hit block with
    | some i => exact ⟨block i, entry_append_cons before block table i, of_firstIn_eq_some hhit⟩
    | none =>
      have hblock := of_firstIn_eq_none hhit
      have hwalk := ih (before ++ [block])
        (empty.or ((firstIn vacant block).map (before.length, ·)))
      rw [List.length_append, List.length_singleton] at hwalk
      dsimp only
      generalize search hit vacant (before.length + 1) _ table = found at hwalk
      cases found with
      | hit pos => simpa [Walked] using hwalk
      | vacant pos =>
        obtain ⟨hlacks, hpos⟩ := hwalk
        rw [List.append_assoc, List.singleton_append] at hpos
        refine ⟨lacks_cons hblock hlacks, ?_⟩
        rcases hpos with hpos | hpos
        · cases empty with
          | some pos' => exact Or.inl hpos
          | none =>
            obtain ⟨i, hi, rfl⟩ := Option.map_eq_some_iff.mp hpos
            exact Or.inr ⟨block i, entry_append_cons before block table i, of_firstIn_eq_some hi⟩
        · exact Or.inr hpos
      | full =>
        obtain ⟨hlacks, hvacant, hempty⟩ := hwalk
        obtain ⟨hnone, hfirst⟩ := Option.or_eq_none_iff.mp hempty
        have hno := of_firstIn_eq_none (Option.map_eq_none_iff.mp hfirst)
        exact ⟨lacks_cons hblock hlacks, lacks_cons hno hvacant, hnone⟩

/-- What the walk finds in a table that may grow: an entry with the property, or a vacant
entry when there is none with the property. The table grows only when it has neither. -/
theorem locate_cases [NeZero n] {hit vacant : α → Bool} {fresh : Fin n → α}
    (hvacant : ∀ i, vacant (fresh i) = true) (table : BlockTable n α) :
    ∃ table', (table' = table ∨ (table' = table ++ [fresh] ∧ Lacks hit table)) ∧
      ((∃ pos a, locate hit vacant fresh table = (table', .hit pos) ∧
        table'.entry pos = some a ∧ hit a = true) ∨
      (∃ pos a, locate hit vacant fresh table = (table', .vacant pos) ∧ Lacks hit table' ∧
        table'.entry pos = some a ∧ vacant a = true)) := by
  have hwalk := search_spec hit vacant [] table none
  rw [List.length_nil] at hwalk
  unfold locate
  cases hsearch : search hit vacant 0 none table with
  | hit pos =>
    rw [hsearch] at hwalk
    obtain ⟨a, ha, hpa⟩ := hwalk
    exact ⟨table, Or.inl rfl, Or.inl ⟨pos, a, rfl, ha, hpa⟩⟩
  | vacant pos =>
    rw [hsearch] at hwalk
    obtain ⟨hlacks, hpos⟩ := hwalk
    obtain ⟨a, ha, hpa⟩ := hpos.resolve_left (by simp)
    exact ⟨table, Or.inl rfl, Or.inr ⟨pos, a, rfl, hlacks, ha, hpa⟩⟩
  | full =>
    rw [hsearch] at hwalk
    have hmore := search_spec hit vacant table [fresh] none
    refine ⟨table ++ [fresh], Or.inr ⟨rfl, hwalk.1⟩, ?_⟩
    dsimp only
    cases hsearch' : search hit vacant table.length none [fresh] with
    | hit pos =>
      rw [hsearch'] at hmore
      obtain ⟨a, ha, hpa⟩ := hmore
      exact Or.inl ⟨pos, a, rfl, ha, hpa⟩
    | vacant pos =>
      rw [hsearch'] at hmore
      obtain ⟨a, ha, hpa⟩ := hmore.2.resolve_left (by simp)
      refine Or.inr ⟨pos, a, rfl, ?_, ha, hpa⟩
      intro pos' b hb
      rcases entry_append_singleton hb with ⟨_, hb⟩ | ⟨_, rfl⟩
      · exact hwalk.1 pos' b hb
      · exact hmore.1 (0, pos'.2) _ rfl
    | full =>
      rw [hsearch'] at hmore
      have hno := hmore.2.1 (0, 0) (fresh 0) rfl
      rw [hvacant] at hno
      cases hno

/-- The walk finds an entry with the property, or a vacant entry in a table that has
no entry with the property. -/
theorem locate_spec [NeZero n] {hit vacant : α → Bool} {fresh : Fin n → α}
    (hhit : ∀ i, hit (fresh i) = false) (hvacant : ∀ i, vacant (fresh i) = true)
    (table : BlockTable n α) :
    (∃ pos a, locate hit vacant fresh table = (table, .hit pos) ∧
      table.entry pos = some a ∧ hit a = true) ∨
    (∃ table' pos a, locate hit vacant fresh table = (table', .vacant pos) ∧
      (table' = table ∨ table' = table ++ [fresh]) ∧ Lacks hit table' ∧
      table'.entry pos = some a ∧ vacant a = true) := by
  obtain ⟨table', hgrow, hcases⟩ := @locate_cases n α _ hit vacant fresh hvacant table
  rcases hcases with ⟨pos, a, hloc, ha, hpa⟩ | ⟨pos, a, hloc, hlacks, ha, hpa⟩
  · rcases hgrow with rfl | ⟨rfl, hlacks⟩
    · exact Or.inl ⟨pos, a, hloc, ha, hpa⟩
    · rcases entry_append_singleton ha with ⟨_, ha⟩ | ⟨_, rfl⟩
      · rw [hlacks pos a ha] at hpa
        cases hpa
      · rw [hhit] at hpa
        cases hpa
  · exact Or.inr ⟨table', pos, a, hloc, hgrow.imp_right And.left, hlacks, ha, hpa⟩

/-- Whether the walk looks for a vacant entry does not change which entry it finds. -/
theorem search_hit {hit vacant : α → Bool} {pos : BlockPos n} {k : Nat}
    {empty : Option (BlockPos n)} {table : BlockTable n α}
    (h : search hit (fun _ => false) k none table = .hit pos) :
    search hit vacant k empty table = .hit pos := by
  induction table generalizing k empty with
  | nil => cases h
  | cons block table ih =>
    unfold search at h ⊢
    cases hfirst : firstIn hit block with
    | some i =>
      rw [hfirst] at h
      exact h
    | none =>
      have hnone : firstIn (fun _ => false) block = none := by simp [firstIn]
      rw [hfirst, hnone] at h
      exact ih h

theorem locate_of_search_hit {hit vacant : α → Bool} {fresh : Fin n → α} {pos : BlockPos n}
    {table : BlockTable n α} (h : search hit (fun _ => false) 0 none table = .hit pos) :
    locate hit vacant fresh table = (table, .hit pos) := by
  rw [locate, search_hit h]

/-- A table without an entry with the property grows, or a vacant entry is found. -/
theorem locate_of_lacks [NeZero n] {hit vacant : α → Bool} {fresh : Fin n → α}
    (hvacant : ∀ i, vacant (fresh i) = true) {table : BlockTable n α} (h : Lacks hit table) :
    ∃ table' pos a, table'.entry pos = some a ∧
      ((locate hit vacant fresh table = (table', .hit pos) ∧ hit a = true ∧
        table' = table ++ [fresh]) ∨
      (locate hit vacant fresh table = (table', .vacant pos) ∧ Lacks hit table' ∧
        (table' = table ∨ table' = table ++ [fresh]))) := by
  obtain ⟨table', hgrow, hcases⟩ := @locate_cases n α _ hit vacant fresh hvacant table
  rcases hcases with ⟨pos, a, hloc, ha, hpa⟩ | ⟨pos, a, hloc, hlacks, ha, _⟩
  · refine ⟨table', pos, a, ha, Or.inl ⟨hloc, hpa, ?_⟩⟩
    rcases hgrow with rfl | ⟨rfl, _⟩
    · rw [h pos a ha] at hpa
      cases hpa
    · rfl
  · exact ⟨table', pos, a, ha, Or.inr ⟨hloc, hlacks, hgrow.imp_right And.left⟩⟩

/-- A table that has grown is not what it was, whatever is written to it. -/
theorem modify_append_ne (table : BlockTable n α) (block : Fin n → α) (pos : BlockPos n)
    (f : α → α) : BlockTable.modify (table ++ [block]) pos f ≠ table := by
  intro h
  have hlength := congrArg List.length h
  simp [modify] at hlength

/-! ## Keys -/

section Keys

variable {κ : Type*} {key : α → κ} {dflt : α} {table : BlockTable n α}

/-- The entries have different keys, apart from those that have the key of `dflt`. -/
def UniqueKeys (key : α → κ) (dflt : α) (table : BlockTable n α) : Prop :=
  ∀ pos pos' a a', table.entry pos = some a → table.entry pos' = some a' →
    key a = key a' → key a ≠ key dflt → pos = pos'

/-- The entry can be made the entry of `k`: it has the key already, or it has that of
`dflt` and no entry has the key. -/
def Writable [DecidableEq κ] (key : α → κ) (dflt : α) (table : BlockTable n α) (k : κ) (a : α) :
    Prop :=
  key a = k ∨ (key a = key dflt ∧ table.Lacks fun b => key b = k)

theorem UniqueKeys.append (h : UniqueKeys key dflt table) :
    UniqueKeys key dflt (table ++ [fun _ => dflt]) := by
  intro pos pos' a a' ha ha' hkey hne
  rcases entry_append_singleton ha with ⟨_, ha⟩ | ⟨_, rfl⟩
  · rcases entry_append_singleton ha' with ⟨_, ha'⟩ | ⟨_, rfl⟩
    · exact h pos pos' a a' ha ha' hkey hne
    · exact absurd hkey hne
  · exact absurd rfl hne

/-- The keys are unique, and the entries with the key of `dflt` are `dflt`. -/
structure Keyed (key : α → κ) (dflt : α) (table : BlockTable n α) : Prop where
  unique : UniqueKeys key dflt table
  eq_dflt : ∀ pos a, table.entry pos = some a → key a = key dflt → a = dflt

theorem Keyed.append (h : Keyed key dflt table) : Keyed key dflt (table ++ [fun _ => dflt]) := by
  refine ⟨h.unique.append, fun pos a ha hkey => ?_⟩
  rcases entry_append_singleton ha with ⟨_, ha⟩ | ⟨_, rfl⟩
  · exact h.eq_dflt pos a ha hkey
  · rfl

theorem Keyed.nil : Keyed key dflt ([] : BlockTable n α) := by
  constructor <;> simp [UniqueKeys, entry]

variable [DecidableEq κ] {k : κ} {pos : BlockPos n} {old : α} {f : α → α}

/-- An entry that has the key is the one that can be made its entry. -/
theorem UniqueKeys.pos_eq (h : UniqueKeys key dflt table) (hk : k ≠ key dflt)
    (hpos : table.entry pos = some old) (hold : Writable key dflt table k old)
    {pos' : BlockPos n} {a : α} (ha : table.entry pos' = some a) (hkey : key a = k) :
    pos' = pos := by
  rcases hold with hold | ⟨_, hlacks⟩
  · exact h pos' pos a old ha hpos (hkey.trans hold.symm) (hkey ▸ hk)
  · exact absurd hkey (of_decide_eq_false (hlacks pos' a ha))

theorem UniqueKeys.modify (h : UniqueKeys key dflt table) (hk : k ≠ key dflt)
    (hpos : table.entry pos = some old) (hold : Writable key dflt table k old)
    (hkey : key (f old) = k) : UniqueKeys key dflt (table.modify pos f) := by
  intro pos₁ pos₂ a₁ a₂ h₁ h₂ hsame hreal
  rcases entry_modify hpos h₁ with ⟨hpos₁, ha₁⟩ | ⟨_, hold₁⟩
  · rcases entry_modify hpos h₂ with ⟨hpos₂, _⟩ | ⟨_, hold₂⟩
    · exact hpos₁.trans hpos₂.symm
    · rw [ha₁, hkey] at hsame
      exact hpos₁.trans (h.pos_eq hk hpos hold hold₂ hsame.symm).symm
  · rcases entry_modify hpos h₂ with ⟨hpos₂, ha₂⟩ | ⟨_, hold₂⟩
    · rw [ha₂, hkey] at hsame
      exact (h.pos_eq hk hpos hold hold₁ hsame).trans hpos₂.symm
    · exact h pos₁ pos₂ a₁ a₂ hold₁ hold₂ hsame hreal

/-- The entry of a key, `dflt` when there is none. -/
def lookup (key : α → κ) (dflt : α) (table : BlockTable n α) (k : κ) : α :=
  match search (fun a => key a = k) (fun _ => false) 0 none table with
  | .hit pos => (table.entry pos).getD dflt
  | _ => dflt

/-- The walk that does not look for a vacant entry finds an entry with the property, if
there is one. -/
theorem search_cases (hit : α → Bool) (table : BlockTable n α) :
    (∃ pos a, search hit (fun _ => false) 0 none table = .hit pos ∧
      table.entry pos = some a ∧ hit a = true) ∨
    (search hit (fun _ => false) 0 none table = .full ∧ table.Lacks hit) := by
  have hwalk := search_spec hit (fun _ => false) [] table none
  rw [List.length_nil] at hwalk
  generalize search hit (fun _ => false) 0 none table = found at hwalk
  cases found with
  | hit pos =>
    obtain ⟨a, ha, hpa⟩ := hwalk
    exact Or.inl ⟨pos, a, rfl, ha, hpa⟩
  | vacant pos => simp [Walked] at hwalk
  | full => exact Or.inr ⟨rfl, hwalk.1⟩

theorem Keyed.lookup_eq (h : Keyed key dflt table) (hpos : table.entry pos = some old)
    (hkey : key old = k) : lookup key dflt table k = old := by
  unfold lookup
  rcases search_cases (fun a => decide (key a = k)) table with
    ⟨pos', a, hsearch, ha, hhit⟩ | ⟨_, hlacks⟩
  · have ha' : key a = k := of_decide_eq_true hhit
    simp only [hsearch, ha, Option.getD_some]
    by_cases hk : k = key dflt
    · rw [h.eq_dflt pos' a ha (ha'.trans hk), h.eq_dflt pos old hpos (hkey.trans hk)]
    · obtain rfl := h.unique pos' pos a old ha hpos (ha'.trans hkey.symm) (ha' ▸ hk)
      exact Option.some.inj (ha.symm.trans hpos)
  · exact absurd hkey (of_decide_eq_false (hlacks pos old hpos))

theorem lookup_of_lacks (h : table.Lacks fun a => key a = k) : lookup key dflt table k = dflt := by
  unfold lookup
  rcases search_cases (fun a => decide (key a = k)) table with
    ⟨pos, a, _, ha, hhit⟩ | ⟨hsearch, _⟩
  · exact absurd (of_decide_eq_true hhit) (of_decide_eq_false (h pos a ha))
  · rw [hsearch]

theorem Keyed.lookup_dflt (h : Keyed key dflt table) : lookup key dflt table (key dflt) = dflt := by
  rcases search_cases (fun a => decide (key a = key dflt)) table with
    ⟨pos, a, _, ha, hhit⟩ | ⟨_, hlacks⟩
  · have hkey : key a = key dflt := of_decide_eq_true hhit
    rw [h.lookup_eq ha hkey]
    exact h.eq_dflt pos a ha hkey
  · exact lookup_of_lacks hlacks

/-- A block more does not change what is found. -/
theorem Keyed.lookup_append (h : Keyed key dflt table) (k : κ) :
    lookup key dflt (table ++ [fun _ => dflt]) k = lookup key dflt table k := by
  rcases eq_or_ne k (key dflt) with rfl | hk
  · rw [h.append.lookup_dflt, h.lookup_dflt]
  · rcases search_cases (fun a => decide (key a = k)) table with
      ⟨pos, a, _, ha, hhit⟩ | ⟨_, hlacks⟩
    · have hkey : key a = k := of_decide_eq_true hhit
      rw [h.lookup_eq ha hkey]
      exact h.append.lookup_eq (entry_append_left ha _) hkey
    · rw [lookup_of_lacks hlacks]
      refine lookup_of_lacks fun pos a ha => ?_
      rcases entry_append_singleton ha with ⟨_, ha⟩ | ⟨_, rfl⟩
      · exact hlacks pos a ha
      · exact decide_eq_false hk.symm

/-- A write to the entry of a key. -/
theorem Keyed.modify (h : Keyed key dflt table) (hk : k ≠ key dflt)
    (hpos : table.entry pos = some old) (hold : Writable key dflt table k old)
    (hkey : key (f old) = k) : Keyed key dflt (table.modify pos f) := by
  refine ⟨h.unique.modify hk hpos hold hkey, fun pos' a ha hdflt => ?_⟩
  rcases entry_modify hpos ha with ⟨_, rfl⟩ | ⟨_, ha⟩
  · exact absurd (hkey.symm.trans hdflt) hk
  · exact h.eq_dflt pos' a ha hdflt

theorem Keyed.lookup_modify (h : Keyed key dflt table) (hk : k ≠ key dflt)
    (hpos : table.entry pos = some old) (hold : Writable key dflt table k old)
    (hkey : key (f old) = k) (k' : κ) :
    lookup key dflt (table.modify pos f) k' =
      Function.update (lookup key dflt table) k (f old) k' := by
  have h' := h.modify hk hpos hold hkey
  rcases eq_or_ne k' k with rfl | hne
  · rw [Function.update_self]
    exact h'.lookup_eq (entry_modify_self hpos f) hkey
  · rw [Function.update_of_ne hne]
    rcases eq_or_ne k' (key dflt) with rfl | hk'
    · rw [h'.lookup_dflt, h.lookup_dflt]
    · rcases search_cases (fun a => decide (key a = k')) table with
        ⟨pos', a, _, ha, hhit⟩ | ⟨_, hlacks⟩
      · have ha' : key a = k' := of_decide_eq_true hhit
        have hpos' : pos' ≠ pos := by
          rintro rfl
          obtain rfl := Option.some.inj (ha.symm.trans hpos)
          rcases hold with hold | ⟨hzero, _⟩
          · exact hne (ha'.symm.trans hold)
          · exact hk' (ha'.symm.trans hzero)
        rw [h.lookup_eq ha ha']
        exact h'.lookup_eq ((entry_modify_ne hpos' f).trans ha) ha'
      · rw [lookup_of_lacks hlacks]
        refine lookup_of_lacks fun pos' a ha => ?_
        rcases entry_modify hpos ha with ⟨_, rfl⟩ | ⟨_, ha⟩
        · exact decide_eq_false (hkey.trans_ne hne.symm)
        · exact hlacks pos' a ha

end Keys

/-! ## Registration -/

section Registration

variable {κ : Type*} {key : α → κ} {dflt : α} {table : BlockTable n α} {k : κ} {pos : BlockPos n}
  {old : α} {f : α → α}

/-- A key is registered when there is an entry with it; such an entry is not vacant, so it
is not given to another key. -/
structure Registered (vacant : α → Bool) (key : α → κ) (k : κ) (registered : Prop)
    (table : BlockTable n α) : Prop where
  iff : (∃ pos a, table.entry pos = some a ∧ key a = k) ↔ registered
  filled : ∀ pos a, table.entry pos = some a → key a = k → vacant a = false

namespace Registered

variable {vacant : α → Bool} {registered : Prop}

theorem congr {registered' : Prop} (h : Registered vacant key k registered table)
    (hiff : registered ↔ registered') : Registered vacant key k registered' table :=
  ⟨h.iff.trans hiff, h.filled⟩

theorem nil : Registered vacant key k False ([] : BlockTable n α) := by
  constructor <;> simp [entry]

theorem append (h : Registered vacant key k registered table) (hk : k ≠ key dflt) :
    Registered vacant key k registered (table ++ [fun _ => dflt]) := by
  constructor
  · rw [← h.iff]
    constructor
    · rintro ⟨pos, a, ha, hkey⟩
      rcases entry_append_singleton ha with ⟨_, ha⟩ | ⟨_, rfl⟩
      · exact ⟨pos, a, ha, hkey⟩
      · exact absurd hkey.symm hk
    · rintro ⟨pos, a, ha, hkey⟩
      exact ⟨pos, a, entry_append_left ha _, hkey⟩
  · intro pos a ha hkey
    rcases entry_append_singleton ha with ⟨_, ha⟩ | ⟨_, rfl⟩
    · exact h.filled pos a ha hkey
    · exact absurd hkey.symm hk

/-- The walk over a table that may grow ends at an entry with the property or at a vacant
one, and no key is registered by it. -/
theorem locate [NeZero n] (h : Registered vacant key k registered table) (hk : k ≠ key dflt)
    {fresh : Fin n → α} (hfresh : fresh = fun _ => dflt) (hvacant : vacant dflt = true)
    (hit : α → Bool) :
    ∃ table', Registered vacant key k registered table' ∧
      ((∃ pos a, locate hit vacant fresh table = (table', .hit pos) ∧
        table'.entry pos = some a ∧ hit a = true) ∨
      (∃ pos a, locate hit vacant fresh table = (table', .vacant pos) ∧
        table'.entry pos = some a ∧ vacant a = true)) := by
  subst hfresh
  obtain ⟨table', hgrow, hcases⟩ := @locate_cases n α _ hit vacant (fun _ => dflt)
    (fun _ => hvacant) table
  refine ⟨table', ?_, hcases.imp_right ?_⟩
  · rcases hgrow with rfl | ⟨rfl, _⟩
    · exact h
    · exact h.append hk
  · rintro ⟨pos, a, hloc, _, ha⟩
    exact ⟨pos, a, hloc, ha⟩

/-- A write that leaves the entry with or without the key. -/
theorem modify (h : Registered vacant key k registered table) (hpos : table.entry pos = some old)
    (hkey : key (f old) = k ↔ key old = k)
    (hvacant : key old = k → vacant (f old) = vacant old) :
    Registered vacant key k registered (table.modify pos f) := by
  constructor
  · rw [← h.iff]
    constructor
    · rintro ⟨pos', a, ha, hkey'⟩
      rcases entry_modify hpos ha with ⟨_, rfl⟩ | ⟨_, ha⟩
      · exact ⟨pos, old, hpos, hkey.mp hkey'⟩
      · exact ⟨pos', a, ha, hkey'⟩
    · rintro ⟨pos', a, ha, hkey'⟩
      rcases eq_or_ne pos' pos with rfl | hne
      · obtain rfl := Option.some.inj (ha.symm.trans hpos)
        exact ⟨pos', f a, entry_modify_self ha f, hkey.mpr hkey'⟩
      · exact ⟨pos', a, (entry_modify_ne hne f).trans ha, hkey'⟩
  · intro pos' a ha hkey'
    rcases entry_modify hpos ha with ⟨_, rfl⟩ | ⟨_, ha⟩
    · rw [hvacant (hkey.mp hkey')]
      exact h.filled pos old hpos (hkey.mp hkey')
    · exact h.filled pos' a ha hkey'

/-- A write to the entry of some key. -/
theorem rewrite {k' : κ} (h : Registered vacant key k registered table)
    (hpos : table.entry pos = some old) (hold : key old = k') (hkey : key (f old) = key old)
    (hvacant : vacant (f old) = vacant old) :
    Registered vacant key k (registered ∨ k' = k) (table.modify pos f) := by
  have hmodify := h.modify hpos (by rw [hkey]) fun _ => hvacant
  refine hmodify.congr ((or_iff_left_of_imp ?_).symm)
  rintro rfl
  exact h.iff.mp ⟨pos, old, hpos, hold⟩

/-- A vacant entry is given to some key. -/
theorem create {k' : κ} (h : Registered vacant key k registered table)
    (hpos : table.entry pos = some old) (hold : vacant old = true) (hkey : key (f old) = k')
    (hvacant : k' = k → vacant (f old) = false) :
    Registered vacant key k (registered ∨ k' = k) (table.modify pos f) := by
  by_cases hk : k' = k
  · refine ⟨iff_of_true ⟨pos, f old, entry_modify_self hpos f, hkey.trans hk⟩ (Or.inr hk), ?_⟩
    intro pos' a ha hkey'
    rcases entry_modify hpos ha with ⟨_, rfl⟩ | ⟨_, ha⟩
    · exact hvacant hk
    · exact h.filled pos' a ha hkey'
  · -- The entry did not have the key: the entries that have it are not vacant.
    have hold' : key old ≠ k := by
      intro hkey'
      rw [h.filled pos old hpos hkey'] at hold
      cases hold
    have hmodify := h.modify hpos (iff_of_false (hkey.trans_ne hk) hold')
      fun hkey' => absurd hkey' hold'
    exact hmodify.congr (or_iff_left hk).symm

end Registered

end Registration

end BlockTable
