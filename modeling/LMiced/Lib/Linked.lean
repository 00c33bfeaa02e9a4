import LMiced.Lib.Chain

/-!
# Linked arrays in memory

A chain of bounded arrays as it lies in memory. An array has the slots `1` to `cap`, each a
pointer or null, and a control record with the number of its used slots and the link to the
next array. Access to a slot that is not there fails.

* `SlotArray.Holds` says that an array of memory represents a bounded array, and
  `Holds.push` and `Holds.delete` that the operations on memory follow those on bounded arrays;
* `ChainAt` says that linked arrays represent a chain;
* `linked_iff` reads the representation off the memory alone: the arrays are linked one
  behind the other, and in each of them the used slots come first; `heldAt` reads off what
  the chain holds.
-/

universe u

/-- The control record of an array. -/
structure Control (A : Type u) where
  active : Nat
  next : Option A

/-- An array in memory; without a control record when it has not been set up. -/
structure SlotArray (A α : Type u) where
  control : Option (Control A)
  slot : Nat → Option α

namespace SlotArray

variable {A α : Type u}

/-! ## Operations -/

/-- Memory that is all zero. -/
def zeroed : SlotArray A α := ⟨none, fun _ => none⟩

section Access

variable (cap : Nat)

/-- Read a slot. -/
def get (pos : Nat) (arr : SlotArray A α) : Option (Option α) :=
  if 1 ≤ pos ∧ pos ≤ cap then some (arr.slot pos) else none

/-- Write a slot. -/
def set (pos : Nat) (x : Option α) (arr : SlotArray A α) : Option (SlotArray A α) :=
  if 1 ≤ pos ∧ pos ≤ cap then some { arr with slot := Function.update arr.slot pos x } else none

/-- Copy `n` slots, those from `src` on to those from `dst` on. -/
def move (dst src n : Nat) (arr : SlotArray A α) : Option (SlotArray A α) :=
  if n = 0 then some arr
  else if 1 ≤ dst ∧ dst + n ≤ cap + 1 ∧ 1 ≤ src ∧ src + n ≤ cap + 1 then
    some { arr with
      slot := fun pos =>
        if dst ≤ pos ∧ pos < dst + n then arr.slot (src + (pos - dst)) else arr.slot pos }
  else none

/-- Count one more, and write the slot with that number. -/
def push (x : α) (arr : SlotArray A α) : Option (SlotArray A α) := do
  let ctl ← arr.control
  set cap (ctl.active + 1) (some x) { arr with control := some ⟨ctl.active + 1, ctl.next⟩ }

/-- Move the slots behind `pos` up, clear the last one, and count one less. The number of
slots that are moved must not be negative. -/
def delete (pos : Nat) (arr : SlotArray A α) : Option (SlotArray A α) := do
  let ctl ← arr.control
  if ctl.active < pos then none
  else
    let arr ← arr.move cap pos (pos + 1) (ctl.active - pos)
    let arr ← arr.set cap ctl.active none
    some { arr with control := some ⟨ctl.active - 1, ctl.next⟩ }

end Access

/-- What the used slots hold, in their order. -/
def held (arr : SlotArray A α) : List α :=
  (List.range (arr.control.elim 0 Control.active)).filterMap fun i => arr.slot (i + 1)

/-! ## The array that is represented -/

variable {cap : Nat}

/-- The array has the entries of `b` in its first slots, and links to `next`. -/
structure Holds (arr : SlotArray A α) (b : BArray cap α) (next : Option A) : Prop where
  control : arr.control = some ⟨b.entries.length, next⟩
  slot : ∀ i, i < cap → arr.slot (i + 1) = b.entries[i]?

variable {arr : SlotArray A α} {b : BArray cap α} {next : Option A}

/-- An array whose control record has been set up. -/
theorem holds_empty :
    Holds (⟨some ⟨0, none⟩, fun _ => none⟩ : SlotArray A α) (BArray.empty : BArray cap α) none :=
  ⟨rfl, fun _ _ => rfl⟩

theorem Holds.get (h : arr.Holds b next) {i : Nat} (hi : i < cap) :
    arr.get cap (i + 1) = some b.entries[i]? := by
  rw [SlotArray.get, if_pos ⟨Nat.succ_pos i, hi⟩, h.slot i hi]

theorem Holds.held_eq (h : arr.Holds b next) : arr.held = b.entries := by
  have hslot : (List.range b.entries.length).map (fun i => arr.slot (i + 1)) =
      b.entries.map some := by
    refine List.ext_getElem (by simp) fun i hi _ => ?_
    rw [List.length_map, List.length_range] at hi
    simpa [hi] using h.slot i (hi.trans_le b.le)
  calc arr.held
    _ = (List.range b.entries.length).filterMap fun i => arr.slot (i + 1) := by
      rw [held, h.control]
      rfl
    _ = (b.entries.map some).filterMap id := by
      rw [← hslot, List.filterMap_map]
      rfl
    _ = b.entries := by simp

theorem Holds.push (h : arr.Holds b next) (x : α) (hroom : b.entries.length < cap) :
    ∃ arr', arr.push cap x = some arr' ∧ arr'.Holds (b.push x hroom) next := by
  unfold SlotArray.push SlotArray.set
  rw [h.control]
  dsimp only [bind, Option.bind]
  rw [if_pos ⟨Nat.succ_pos _, hroom⟩]
  refine ⟨_, rfl, ?_, fun i hi => ?_⟩
  · simp
  · rw [BArray.entries_push, List.getElem?_append]
    rcases lt_trichotomy i b.entries.length with hlt | rfl | hlt
    · rw [if_pos hlt, ← h.slot i hi]
      exact Function.update_of_ne (by omega) _ _
    · simp
    · rw [if_neg hlt.le.not_gt, List.getElem?_eq_none (by simp; omega)]
      refine (Function.update_of_ne (by omega) _ _).trans ?_
      rw [h.slot i hi, List.getElem?_eq_none hlt.le]

/-- The slots behind a deletion. -/
theorem Holds.delete (h : arr.Holds b next) {i : Nat} (hi : i < b.entries.length) :
    ∃ arr', arr.delete cap (i + 1) = some arr' ∧ arr'.Holds (b.eraseIdx i) next := by
  have hcap := b.le
  have hmove : ∃ moved : SlotArray A α,
      arr.move cap (i + 1) (i + 1 + 1) (b.entries.length - (i + 1)) = some moved ∧
        ∀ j, j < cap → moved.slot (j + 1) =
          if i ≤ j ∧ j + 1 < b.entries.length then b.entries[j + 1]? else b.entries[j]? := by
    unfold SlotArray.move
    split
    · refine ⟨arr, rfl, fun j hj => ?_⟩
      rw [if_neg (by omega), h.slot j hj]
    · rw [if_pos (by omega)]
      refine ⟨_, rfl, fun j hj => ?_⟩
      dsimp only
      split
      · next hin =>
        have hpos : i + 1 + 1 + (j + 1 - (i + 1)) = j + 1 + 1 := by omega
        rw [if_pos (by omega), hpos, h.slot (j + 1) (by omega)]
      · rw [if_neg (by omega), h.slot j hj]
  obtain ⟨moved, hmoved, hslot⟩ := hmove
  unfold SlotArray.delete SlotArray.set
  rw [h.control]
  dsimp only [bind, Option.bind]
  rw [if_neg (by omega), hmoved]
  dsimp only
  rw [if_pos (by omega)]
  refine ⟨_, rfl, ?_, fun j hj => ?_⟩
  · simp [List.length_eraseIdx, hi]
  · rw [BArray.entries_eraseIdx, List.getElem?_eraseIdx]
    by_cases hlast : j + 1 = b.entries.length
    · rw [if_neg (by omega), hlast, List.getElem?_eq_none le_rfl]
      exact Function.update_self ..
    · refine (Function.update_of_ne hlast _ _).trans ((hslot j hj).trans ?_)
      rcases Nat.lt_or_ge j i with hlt | hge
      · rw [if_neg (by omega), if_pos hlt]
      · rw [if_neg hge.not_gt]
        split
        · rfl
        · rw [List.getElem?_eq_none (by omega), List.getElem?_eq_none (by omega)]

/-- What the memory of an array says by itself: the first `count` slots are used, and the
others are null. -/
structure Ok (cap : Nat) (arr : SlotArray A α) (next : Option A) (count : Nat) : Prop where
  control : arr.control = some ⟨count, next⟩
  count_le : count ≤ cap
  used : ∀ pos, 1 ≤ pos → pos ≤ count → arr.slot pos ≠ none
  unused : ∀ pos, count < pos → pos ≤ cap → arr.slot pos = none

theorem Holds.ok (h : arr.Holds b next) : arr.Ok cap next b.entries.length := by
  have hcap := b.le
  refine ⟨h.control, b.le, fun pos hpos hle => ?_, fun pos hpos hle => ?_⟩
  · obtain ⟨i, rfl⟩ : ∃ i, pos = i + 1 := ⟨pos - 1, by omega⟩
    rw [h.slot i (by omega), List.getElem?_eq_getElem hle]
    exact Option.some_ne_none _
  · obtain ⟨i, rfl⟩ : ∃ i, pos = i + 1 := ⟨pos - 1, by omega⟩
    rw [h.slot i hle]
    exact List.getElem?_eq_none (Nat.le_of_lt_succ hpos)

theorem Ok.exists_holds {count : Nat} (h : arr.Ok cap next count) :
    ∃ b : BArray cap α, b.entries.length = count ∧ arr.Holds b next := by
  have hsome : ∀ i : Fin count, ∃ x, arr.slot (i + 1) = some x := fun i =>
    Option.ne_none_iff_exists'.mp (h.used (i + 1) (Nat.succ_pos _) i.isLt)
  choose x hx using hsome
  refine ⟨⟨List.ofFn x, by rw [List.length_ofFn]; exact h.count_le⟩, List.length_ofFn, ?_, ?_⟩
  · rw [List.length_ofFn]
    exact h.control
  · intro i hi
    rw [List.getElem?_ofFn]
    split
    · next hlt => exact hx ⟨i, hlt⟩
    · next hge => exact h.unused (i + 1) (by omega) hi

end SlotArray

/-! ## Memory -/

/-- The arrays at their addresses. -/
abbrev Memory (A α : Type u) := A → Option (SlotArray A α)

/-- The arrays at the addresses represent the chain, and each links to the next. -/
inductive ChainAt {A α : Type u} {cap : Nat} (mem : Memory A α) : List A → Chain cap α → Prop
  | nil : ChainAt mem [] []
  | cons {a : A} {as : List A} {arr : SlotArray A α} {b : BArray cap α} {bs : Chain cap α} :
      mem a = some arr → arr.Holds b as.head? → ChainAt mem as bs → ChainAt mem (a :: as) (b :: bs)

/-- The same, read off the memory alone. -/
def Linked {A α : Type u} (cap : Nat) (mem : Memory A α) : List A → Prop
  | [] => True
  | a :: as => (∃ arr count, mem a = some arr ∧ arr.Ok cap as.head? count) ∧ Linked cap mem as

/-- What the arrays at the addresses hold, in walking order. -/
def heldAt {A α : Type u} (mem : Memory A α) (as : List A) : List α :=
  as.flatMap fun a => (mem a).elim [] SlotArray.held

namespace ChainAt

variable {A α : Type u} {cap : Nat} {mem mem' : Memory A α} {as : List A} {bs : Chain cap α}

theorem linked_iff : Linked cap mem as ↔ ∃ bs : Chain cap α, ChainAt mem as bs := by
  induction as with
  | nil => exact iff_of_true trivial ⟨[], .nil⟩
  | cons a as ih =>
    constructor
    · rintro ⟨⟨arr, count, harr, hok⟩, hrest⟩
      obtain ⟨b, _, hb⟩ := hok.exists_holds
      obtain ⟨bs, hbs⟩ := ih.mp hrest
      exact ⟨b :: bs, .cons harr hb hbs⟩
    · rintro ⟨_, hchain⟩
      cases hchain with
      | cons harr hb hrest => exact ⟨⟨_, _, harr, hb.ok⟩, ih.mpr ⟨_, hrest⟩⟩

theorem heldAt_eq (h : ChainAt mem as bs) : heldAt mem as = bs.contents := by
  induction h with
  | nil => rfl
  | cons harr hb _ ih =>
    rw [heldAt, List.flatMap_cons, harr, Chain.contents_cons, ← ih]
    exact congrArg (· ++ _) hb.held_eq

theorem length_eq (h : ChainAt mem as bs) : as.length = bs.length := by
  induction h with
  | nil => rfl
  | cons _ _ _ ih => exact congrArg Nat.succ ih

/-- Only the arrays of the chain matter. -/
theorem congr (h : ChainAt mem as bs) (hsame : ∀ a ∈ as, mem' a = mem a) :
    ChainAt mem' as bs := by
  induction h with
  | nil => exact .nil
  | cons harr hb _ ih =>
    refine .cons ((hsame _ List.mem_cons_self).trans harr) hb (ih fun a ha => ?_)
    exact hsame a (List.mem_cons_of_mem _ ha)

/-- The array at an address of the chain. -/
theorem exists_holds (h : ChainAt mem as bs) {k : Nat} {a : A} (ha : as[k]? = some a) :
    ∃ arr b, mem a = some arr ∧ bs[k]? = some b ∧ arr.Holds b as[k + 1]? := by
  induction h generalizing k with
  | nil => cases ha
  | cons harr hb _ ih =>
    cases k with
    | zero =>
      cases ha
      exact ⟨_, _, harr, rfl, by simpa [List.head?_eq_getElem?] using hb⟩
    | succ k => exact ih ha

theorem mem_ne_none (h : ChainAt mem as bs) {a : A} (ha : a ∈ as) : mem a ≠ none := by
  obtain ⟨k, hk⟩ := List.mem_iff_getElem?.mp ha
  obtain ⟨arr, _, harr, _⟩ := h.exists_holds hk
  rw [harr]
  exact Option.some_ne_none _

/-- One array is changed, and keeps its link. -/
theorem update [DecidableEq A] (h : ChainAt mem as bs) (hnodup : as.Nodup) {k : Nat} {a : A}
    (ha : as[k]? = some a) {arr : SlotArray A α} {b : BArray cap α}
    (hb : arr.Holds b as[k + 1]?) :
    ChainAt (Function.update mem a (some arr)) as (bs.set k b) := by
  induction h generalizing k with
  | nil => cases ha
  | @cons a₀ as _ _ _ harr hb₀ hrest ih =>
    obtain ⟨hnot, hnodup⟩ := List.nodup_cons.mp hnodup
    cases k with
    | zero =>
      cases ha
      refine .cons (Function.update_self ..) (by simpa [List.head?_eq_getElem?] using hb)
        (hrest.congr fun a ha => Function.update_of_ne ?_ _ _)
      rintro rfl
      exact hnot ha
    | succ k =>
      have hne : a₀ ≠ a := by
        rintro rfl
        exact hnot (List.mem_of_getElem? ha)
      exact .cons ((Function.update_of_ne hne _ _).trans harr) hb₀ (ih hnodup ha hb)

/-- An element is deleted from one array. -/
theorem delete [DecidableEq A] (h : ChainAt mem as bs) (hnodup : as.Nodup) {k i : Nat} {a : A}
    {x : α} (ha : as[k]? = some a) (hx : bs.entryAt k i = some x) :
    ∃ arr arr', mem a = some arr ∧ arr.delete cap (i + 1) = some arr' ∧
      ChainAt (Function.update mem a (some arr')) as (bs.removeAt k i) := by
  obtain ⟨arr, b, harr, hb, hholds⟩ := h.exists_holds ha
  have hi : i < b.entries.length := by
    rw [Chain.entryAt, hb] at hx
    exact (List.getElem?_eq_some_iff.mp hx).1
  obtain ⟨arr', hdelete, hholds'⟩ := hholds.delete hi
  have hset : bs.set k (b.eraseIdx i) = bs.removeAt k i := by
    refine List.ext_getElem? fun k' => ?_
    rw [Chain.getElem?_removeAt, List.getElem?_set]
    split
    · next hk =>
      subst hk
      rw [hb, if_pos (List.getElem?_eq_some_iff.mp hb).1]
      rfl
    · rfl
  exact ⟨arr, arr', harr, hdelete, hset ▸ h.update hnodup ha hholds'⟩

end ChainAt
