import LMiced.Lib.Chain
import LMiced.Lib.Loop

/-!
# Sweeping a chain

A sweep looks at the elements of a chain in walking order. Each element has a
record; looking at it changes the record and decides whether the element is
kept. An element that is not kept is taken out. One that is kept stays where it
is in the head array; in any other array it is appended to the chain again,
first-fit, and taken out of the place where it was found. After a removal the
sweep looks at the same place again.

An element of the second array may so be appended to the array it was taken from.
`halts_iff` says when a sweep ends: it does unless, with the head array full, it
meets an element in the second array that is kept for ever. The later arrays never
keep it busy, because the array before them is empty by then.
-/

namespace Sweep

variable {τ ρ : Type*} {cap : Nat}

/-- How looking at an element changes its record, and whether the element is kept.
An element that is not kept once is not kept later. -/
structure Rule (ρ : Type*) where
  next : ρ → ρ
  keeps : ρ → Bool
  stable : ∀ r, keeps (next r) = true → keeps r = true

/-- The place a sweep looks at, the chain, and the records. -/
structure State (cap : Nat) (τ ρ : Type*) where
  arr : Nat
  pos : Nat
  chain : Chain cap τ
  record : τ → ρ

variable [DecidableEq τ]

/-- Look at one place. -/
def step [NeZero cap] (R : Rule ρ) (s : State cap τ ρ) : Option (State cap τ ρ) :=
  if s.arr < s.chain.length then
    match s.chain.entryAt s.arr s.pos with
    | none => some ⟨s.arr + 1, 0, s.chain, s.record⟩
    | some t =>
      let record := Function.update s.record t (R.next (s.record t))
      if R.keeps (s.record t) then
        if s.arr = 0 then some ⟨s.arr, s.pos + 1, s.chain, record⟩
        else some ⟨s.arr, s.pos, (s.chain.append t).removeAt s.arr s.pos, record⟩
      else some ⟨s.arr, s.pos, s.chain.removeAt s.arr s.pos, record⟩
  else none

/-! ## Records -/

/-- The element is kept whenever it is looked at. -/
def Lodges (R : Rule ρ) (r : ρ) : Prop := ∀ n, R.keeps (R.next^[n] r) = true

variable {R : Rule ρ} {f : τ → ρ}

theorem lodges_next (r : ρ) : Lodges R (R.next r) ↔ Lodges R r := by
  constructor
  · intro h n
    cases n with
    | zero => exact R.stable r (h 0)
    | succ n => exact h n
  · exact fun h n => h (n + 1)

theorem lodges_update (t u : τ) :
    Lodges R (Function.update f t (R.next (f t)) u) ↔ Lodges R (f u) := by
  by_cases h : u = t
  · subst h
    rw [Function.update_self, lodges_next]
  · rw [Function.update_of_ne h]

theorem not_lodges_iff {r : ρ} : ¬ Lodges R r ↔ ∃ n, R.keeps (R.next^[n] r) = false := by
  simp [Lodges]

open Classical in
/-- How often an element that does not lodge is kept from now on. -/
noncomputable def life (R : Rule ρ) (r : ρ) : Nat :=
  if h : ∃ n, R.keeps (R.next^[n] r) = false then Nat.find h else 0

theorem life_next_le (r : ρ) : life R (R.next r) ≤ life R r := by
  classical
  by_cases h : Lodges R r
  · have hnext := mt not_lodges_iff.mpr (not_not.mpr ((lodges_next r).mpr h))
    rw [life, dif_neg hnext]
    exact Nat.zero_le _
  · have hr := not_lodges_iff.mp h
    have hnext := not_lodges_iff.mp (mt (lodges_next r).mp h)
    rw [life, life, dif_pos hr, dif_pos hnext]
    refine Nat.find_min' hnext ?_
    -- The element is not kept from that look on, so it is not kept one look later.
    have hfind := Nat.find_spec hr
    rw [← Function.iterate_succ_apply, Function.iterate_succ_apply']
    by_contra hkeep
    rw [R.stable _ (by simpa using hkeep)] at hfind
    cases hfind

/-- Looking at an element that is kept and does not lodge uses up its life. -/
theorem life_next_lt {r : ρ} (hkeep : R.keeps r = true) (hlodges : ¬ Lodges R r) :
    life R (R.next r) < life R r := by
  classical
  have hr := not_lodges_iff.mp hlodges
  have hfind := Nat.find_spec hr
  have hpos : Nat.find hr ≠ 0 := by
    intro h0
    rw [h0, Function.iterate_zero, id, hkeep] at hfind
    cases hfind
  obtain ⟨m, hm⟩ := Nat.exists_eq_succ_of_ne_zero hpos
  rw [hm, Function.iterate_succ_apply] at hfind
  have hnext : ∃ n, R.keeps (R.next^[n] (R.next r)) = false := ⟨m, hfind⟩
  rw [life, life, dif_pos hr, dif_pos hnext, hm]
  exact Nat.lt_succ_of_le (Nat.find_min' hnext hfind)

/-- The looks that the elements are good for. -/
noncomputable def weight (R : Rule ρ) (f : τ → ρ) (ts : List τ) : Nat :=
  (ts.map fun u => life R (f u) + 1).sum

theorem weight_update_le (t : τ) (ts : List τ) :
    weight R (Function.update f t (R.next (f t))) ts ≤ weight R f ts := by
  have hle : ∀ u, life R (Function.update f t (R.next (f t)) u) ≤ life R (f u) := by
    intro u
    by_cases h : u = t
    · subst h
      rw [Function.update_self]
      exact life_next_le _
    · rw [Function.update_of_ne h]
  induction ts with
  | nil => exact Nat.le_refl _
  | cons u ts ih => exact Nat.add_le_add (Nat.succ_le_succ (hle u)) ih

/-! ## Looking at elements one after the other -/

/-- How many of the elements are kept when each is looked at once, in order. -/
def kept (R : Rule ρ) (f : τ → ρ) : List τ → Nat
  | [] => 0
  | t :: ts =>
    (if R.keeps (f t) then 1 else 0) + kept R (Function.update f t (R.next (f t))) ts

/-- The records after that. -/
def after (R : Rule ρ) (f : τ → ρ) : List τ → τ → ρ
  | [] => f
  | t :: ts => after R (Function.update f t (R.next (f t))) ts

theorem kept_append (ts us : List τ) :
    kept R f (ts ++ us) = kept R f ts + kept R (after R f ts) us := by
  induction ts generalizing f with
  | nil => simp [kept, after]
  | cons t ts ih => simp only [List.cons_append, kept, after, ih, Nat.add_assoc]

theorem lodges_after (ts : List τ) (u : τ) : Lodges R (after R f ts u) ↔ Lodges R (f u) := by
  induction ts generalizing f with
  | nil => exact Iff.rfl
  | cons t ts ih => exact ih.trans (lodges_update t u)

/-! ## The second array -/

/-- With `n` elements in the head array, the elements `ts` of the second array and
the records `f`, the sweep meets an element that lodges when the head array is
full. The first element is exempt when the second array is full too: it is then
appended behind it. -/
def Blocked (R : Rule ρ) (cap n : Nat) (ts : List τ) (f : τ → ρ) : Prop :=
  ∃ i t, ts[i]? = some t ∧ Lodges R (f t) ∧ cap ≤ n + kept R f (ts.take i) ∧
    ¬ (i = 0 ∧ ts.length = cap)

section Blocked

variable {n : Nat} {t : τ} {ts : List τ}

/-- The first element leaves the second array: it is not kept, or the head array has
room for it. -/
theorem blocked_cons_of_leaves (hlen : (t :: ts).length ≤ cap)
    (hleaves : R.keeps (f t) = true → n < cap) :
    Blocked R cap n (t :: ts) f ↔
      Blocked R cap (n + if R.keeps (f t) then 1 else 0) ts
        (Function.update f t (R.next (f t))) := by
  constructor
  · rintro ⟨i, u, hu, hlodges, hfull, hne⟩
    cases i with
    | zero =>
      cases hu
      have hroom := hleaves (hlodges 0)
      simp only [List.take_zero, kept] at hfull
      omega
    | succ i =>
      refine ⟨i, u, hu, (lodges_update t u).mpr hlodges, ?_, fun h => ?_⟩
      · rw [List.take_succ_cons, kept] at hfull
        omega
      · rw [List.length_cons] at hlen
        omega
  · rintro ⟨i, u, hu, hlodges, hfull, _⟩
    refine ⟨i + 1, u, hu, (lodges_update t u).mp hlodges, ?_, fun h => Nat.succ_ne_zero i h.1⟩
    rw [List.take_succ_cons, kept]
    omega

/-- With the head array full and room in the second, any element that lodges blocks. -/
theorem blocked_of_full (hlen : ts.length < cap) :
    Blocked R cap cap ts f ↔ ∃ u ∈ ts, Lodges R (f u) := by
  constructor
  · rintro ⟨i, u, hu, hlodges, _⟩
    exact ⟨u, List.mem_of_getElem? hu, hlodges⟩
  · rintro ⟨u, hu, hlodges⟩
    obtain ⟨i, hi⟩ := List.mem_iff_getElem?.mp hu
    exact ⟨i, u, hi, hlodges, Nat.le_add_right _ _, fun h => by omega⟩

/-- The first element is appended to the array it comes from. -/
theorem blocked_cons_of_rotates (hlen : (t :: ts).length < cap) :
    Blocked R cap cap (t :: ts) f ↔
      Blocked R cap cap (ts ++ [t]) (Function.update f t (R.next (f t))) := by
  have hlen' : (ts ++ [t]).length < cap := by simpa using hlen
  rw [blocked_of_full hlen, blocked_of_full hlen']
  simp only [lodges_update, List.mem_cons, List.mem_append, List.mem_nil_iff, or_false]
  constructor
  · rintro ⟨u, hu, hlodges⟩
    exact ⟨u, hu.symm, hlodges⟩
  · rintro ⟨u, hu, hlodges⟩
    exact ⟨u, hu.symm, hlodges⟩

/-- The first element is appended behind a full second array. -/
theorem blocked_cons_of_passes (hlen : (t :: ts).length = cap) :
    Blocked R cap cap (t :: ts) f ↔
      Blocked R cap cap ts (Function.update f t (R.next (f t))) := by
  have hlt : ts.length < cap := by
    rw [← hlen]
    exact Nat.lt_succ_self _
  rw [blocked_of_full hlt]
  simp only [lodges_update]
  constructor
  · rintro ⟨i, u, hu, hlodges, _, hne⟩
    cases i with
    | zero => exact absurd ⟨rfl, hlen⟩ hne
    | succ i => exact ⟨u, List.mem_of_getElem? hu, hlodges⟩
  · rintro ⟨u, hu, hlodges⟩
    obtain ⟨i, hi⟩ := List.mem_iff_getElem?.mp hu
    exact ⟨i + 1, u, hi, hlodges, Nat.le_add_right _ _, fun h => Nat.succ_ne_zero i h.1⟩

end Blocked

/-! ## The stages of a sweep -/

section Stages

variable [NeZero cap] {s s' : State cap τ ρ} {a₀ a₁ : BArray cap τ} {rest : Chain cap τ}

theorem step_of_none (harr : s.arr < s.chain.length) (h : s.chain.entryAt s.arr s.pos = none) :
    step R s = some ⟨s.arr + 1, 0, s.chain, s.record⟩ := by
  rw [step, if_pos harr, h]

section Look

variable {t : τ} (harr : s.arr < s.chain.length) (h : s.chain.entryAt s.arr s.pos = some t)
include harr h

theorem step_of_dropped (hkeep : ¬ R.keeps (s.record t) = true) :
    step R s = some ⟨s.arr, s.pos, s.chain.removeAt s.arr s.pos,
      Function.update s.record t (R.next (s.record t))⟩ := by
  rw [step, if_pos harr, h]
  exact if_neg hkeep

theorem step_of_stays (hkeep : R.keeps (s.record t) = true) (hhead : s.arr = 0) :
    step R s = some ⟨s.arr, s.pos + 1, s.chain,
      Function.update s.record t (R.next (s.record t))⟩ := by
  rw [step, if_pos harr, h]
  exact (if_pos hkeep).trans (if_pos hhead)

theorem step_of_moves (hkeep : R.keeps (s.record t) = true) (hhead : s.arr ≠ 0) :
    step R s = some ⟨s.arr, s.pos, (s.chain.append t).removeAt s.arr s.pos,
      Function.update s.record t (R.next (s.record t))⟩ := by
  rw [step, if_pos harr, h]
  exact (if_pos hkeep).trans (if_neg hhead)

end Look

/-! ### The head array

Nothing is appended to the chain while the sweep is in its head array. -/

theorem halts_head_iff (done : List τ) {todo : List τ} {a : BArray cap τ}
    (ha : a.entries = done ++ todo)
    (rest : Chain cap τ) (f : τ → ρ) :
    ∃ a' : BArray cap τ, a'.entries.length = done.length + kept R f todo ∧
      (Loop.Halts (step R) ⟨0, done.length, a :: rest, f⟩ ↔
        Loop.Halts (step R) ⟨1, 0, a' :: rest, after R f todo⟩) := by
  induction todo generalizing done a f with
  | nil =>
    have hend : Chain.entryAt (a :: rest) 0 done.length = none := by simp [ha]
    exact ⟨a, by simp [ha, kept],
      Loop.halts_iff_of_step (step_of_none (Nat.succ_pos _) hend)⟩
  | cons t todo ih =>
    have hentry : Chain.entryAt (a :: rest) 0 done.length = some t := by simp [ha]
    by_cases hkeep : R.keeps (f t) = true
    · have hstep := step_of_stays (R := R) (s := ⟨0, done.length, a :: rest, f⟩) (Nat.succ_pos _)
        hentry hkeep rfl
      obtain ⟨a', hlen, hhalts⟩ := ih (done ++ [t]) (a := a) (by simp [ha])
        (Function.update f t (R.next (f t)))
      rw [List.length_append, List.length_singleton] at hlen hhalts
      refine ⟨a', ?_, (Loop.halts_iff_of_step hstep).trans hhalts⟩
      rw [kept, if_pos hkeep]
      omega
    · have hstep := step_of_dropped (R := R) (s := ⟨0, done.length, a :: rest, f⟩) (Nat.succ_pos _)
        hentry hkeep
      obtain ⟨a', hlen, hhalts⟩ := ih done (a := a.eraseIdx done.length)
        (by simp [ha, List.eraseIdx_append_of_length_le]) (Function.update f t (R.next (f t)))
      refine ⟨a', ?_, (Loop.halts_iff_of_step hstep).trans hhalts⟩
      rw [kept, if_neg hkeep]
      omega

/-! ### Later arrays

The array before the one the sweep is in was emptied, and it has room for all
that is kept. -/

omit [DecidableEq τ] in
theorem exists_append_eq {a : BArray cap τ} (ha : a.entries.length < cap) (t : τ)
    (pre post : Chain cap τ) :
    ∃ (pre' : Chain cap τ) (a' : BArray cap τ),
      Chain.append t (pre ++ a :: post) = pre' ++ a' :: post ∧ pre'.length = pre.length ∧
        a'.entries.length ≤ a.entries.length + 1 := by
  induction pre with
  | nil =>
    refine ⟨[], a.push t ha, ?_, rfl, by simp⟩
    rw [List.nil_append, Chain.append_of_room ha, List.nil_append]
  | cons b pre ih =>
    by_cases hb : b.entries.length < cap
    · refine ⟨b.push t hb :: pre, a, ?_, rfl, Nat.le_succ _⟩
      rw [List.cons_append, Chain.append_of_room hb, List.cons_append]
    · obtain ⟨pre', a', happ, hlen, hle⟩ := ih
      refine ⟨b :: pre', a', ?_, by simp [hlen], hle⟩
      rw [List.cons_append, Chain.append_of_full hb, happ, List.cons_append]

omit [DecidableEq τ] [NeZero cap] in
theorem entryAt_append_cons (pre : Chain cap τ) (a b : BArray cap τ) (post : Chain cap τ)
    (i : Nat) : Chain.entryAt (pre ++ a :: b :: post) (pre.length + 1) i = b.entries[i]? := by
  induction pre with
  | nil => rfl
  | cons c pre ih => exact ih

omit [DecidableEq τ] [NeZero cap] in
theorem removeAt_append_cons (pre : Chain cap τ) (a b : BArray cap τ) (post : Chain cap τ)
    (i : Nat) :
    Chain.removeAt (pre ++ a :: b :: post) (pre.length + 1) i =
      pre ++ a :: b.eraseIdx i :: post := by
  induction pre with
  | nil => rfl
  | cons c pre ih => exact congrArg (c :: ·) ih

/-- The sweep is at the start of an array, and the array before it has room for
everything in it. -/
def Later (s : State cap τ ρ) : Prop :=
  ∃ (pre : Chain cap τ) (a : BArray cap τ) (post : Chain cap τ),
    s.chain = pre ++ a :: post ∧ s.arr = pre.length + 1 ∧ s.pos = 0 ∧
      ∀ b ∈ post.head?, a.entries.length + b.entries.length ≤ cap

/-- What is left to look at. -/
def ahead (s : State cap τ ρ) : Nat :=
  ((s.chain.drop s.arr).map fun b => b.entries.length + 1).sum

theorem Later.step (hs : Later s) (h : step R s = some s') : Later s' ∧ ahead s' < ahead s := by
  obtain ⟨arr, pos, chain, f⟩ := s
  obtain ⟨pre, a, post, rfl, rfl, rfl, hroom⟩ := hs
  cases post with
  | nil =>
    rw [Sweep.step, if_neg (by simp)] at h
    cases h
  | cons b post =>
    have harr : pre.length + 1 < (pre ++ a :: b :: post).length := by simp
    have hdrop : ∀ (pre' : Chain cap τ) (a' b' : BArray cap τ), pre'.length = pre.length →
        (pre' ++ a' :: b' :: post).drop (pre.length + 1) = b' :: post := by
      intro pre' a' b' hlen
      rw [← hlen]
      simp
    have hroom := hroom b rfl
    cases hb : b.entries with
    | nil =>
      have hentry : Chain.entryAt (pre ++ a :: b :: post) (pre.length + 1) 0 = none := by
        rw [entryAt_append_cons, hb]
        rfl
      rw [step_of_none harr hentry] at h
      cases h
      refine ⟨⟨pre ++ [a], b, post, by simp, by simp, rfl, fun c _ => ?_⟩, ?_⟩
      · rw [hb]
        simpa using c.le
      · have hdrop' : (pre ++ a :: b :: post).drop (pre.length + 1 + 1) = post := by
          rw [← List.drop_drop, hdrop pre a b rfl]
          rfl
        simp only [ahead, hdrop', hdrop pre a b rfl, List.map_cons, List.sum_cons]
        omega
    | cons t ts =>
      have hlen : b.entries.length = ts.length + 1 := by simp [hb]
      have hentry : Chain.entryAt (pre ++ a :: b :: post) (pre.length + 1) 0 = some t := by
        rw [entryAt_append_cons, hb]
        rfl
      have herase : (b.eraseIdx 0).entries.length = ts.length := by simp [hb]
      by_cases hkeep : R.keeps (f t) = true
      · obtain ⟨pre', a', happ, hpre', hle⟩ :=
          exists_append_eq (a := a) (by omega) t pre (b :: post)
        rw [step_of_moves harr hentry hkeep (Nat.succ_ne_zero _), happ, ← hpre',
          removeAt_append_cons] at h
        cases h
        refine ⟨⟨pre', a', b.eraseIdx 0 :: post, rfl, rfl, rfl, fun c hc => ?_⟩, ?_⟩
        · cases hc
          omega
        · simp only [ahead, hdrop pre a b rfl, hpre', hdrop pre' a' _ hpre', List.map_cons,
            List.sum_cons]
          omega
      · rw [step_of_dropped harr hentry hkeep, removeAt_append_cons] at h
        cases h
        refine ⟨⟨pre, a, b.eraseIdx 0 :: post, rfl, rfl, rfl, fun c hc => ?_⟩, ?_⟩
        · cases hc
          omega
        · simp only [ahead, hdrop pre a _ rfl, List.map_cons, List.sum_cons]
          omega

theorem Later.halts (hs : Later s) : Loop.Halts (Sweep.step R) s :=
  Loop.halts_of_measure ahead (fun _ _ hs h => Or.inr (hs.step h)) hs

/-! ### The second array -/

theorem halts_of_second_empty (h : a₁.entries = []) (f : τ → ρ) :
    Loop.Halts (step R) ⟨1, 0, a₀ :: a₁ :: rest, f⟩ := by
  have hentry : Chain.entryAt (a₀ :: a₁ :: rest) 1 0 = none := by simp [h]
  refine (Loop.halts_iff_of_step (step_of_none (by simp) hentry)).mpr (Later.halts ?_)
  refine ⟨[a₀], a₁, rest, rfl, rfl, rfl, fun b _ => ?_⟩
  rw [h]
  simpa using b.le

/-- Looking at the first element of the second array: it leaves the array, or it is
appended to it with the head array full. -/
theorem step_second (a₀ : BArray cap τ) (rest : Chain cap τ) (f : τ → ρ) {t : τ} {ts : List τ}
    (h : a₁.entries = t :: ts) :
    ∃ (a₀' a₁' : BArray cap τ) (rest' : Chain cap τ),
      step R ⟨1, 0, a₀ :: a₁ :: rest, f⟩ =
        some ⟨1, 0, a₀' :: a₁' :: rest', Function.update f t (R.next (f t))⟩ ∧
      (Blocked R cap a₀.entries.length (t :: ts) f ↔
        Blocked R cap a₀'.entries.length a₁'.entries (Function.update f t (R.next (f t)))) ∧
      (a₁'.entries = ts ∨
        (a₁'.entries = ts ++ [t] ∧ R.keeps (f t) = true ∧ a₀.entries.length = cap ∧
          (t :: ts).length < cap)) := by
  have hle : (t :: ts).length ≤ cap := h ▸ a₁.le
  have hentry : Chain.entryAt (a₀ :: a₁ :: rest) 1 0 = some t := by simp [h]
  have harr : 1 < (a₀ :: a₁ :: rest).length := by simp
  have herase : (a₁.eraseIdx 0).entries = ts := by simp [h]
  by_cases hkeep : R.keeps (f t) = true
  · have hstep := step_of_moves (s := ⟨1, 0, a₀ :: a₁ :: rest, f⟩) harr hentry hkeep
      Nat.one_ne_zero
    by_cases h₀ : a₀.entries.length < cap
    · -- Into the head array.
      refine ⟨a₀.push t h₀, a₁.eraseIdx 0, rest, ?_, ?_, Or.inl herase⟩
      · rw [hstep, Chain.append_of_room h₀]
        rfl
      · rw [herase, blocked_cons_of_leaves hle fun _ => h₀, if_pos hkeep]
        simp
    · have hfull : a₀.entries.length = cap := Nat.le_antisymm a₀.le (Nat.not_lt.mp h₀)
      by_cases h₁ : a₁.entries.length < cap
      · -- Back into the second array.
        have hlt : (t :: ts).length < cap := h ▸ h₁
        have hentries : ((a₁.push t h₁).eraseIdx 0).entries = ts ++ [t] := by simp [h]
        refine ⟨a₀, (a₁.push t h₁).eraseIdx 0, rest, ?_, ?_, Or.inr ⟨hentries, hkeep, hfull, hlt⟩⟩
        · rw [hstep, Chain.append_of_full h₀, Chain.append_of_room h₁]
          rfl
        · rw [hentries, hfull, blocked_cons_of_rotates hlt]
      · -- Behind it.
        have heq : (t :: ts).length = cap := Nat.le_antisymm hle (h ▸ Nat.not_lt.mp h₁)
        refine ⟨a₀, a₁.eraseIdx 0, rest.append t, ?_, ?_, Or.inl herase⟩
        · rw [hstep, Chain.append_of_full h₀, Chain.append_of_full h₁]
          rfl
        · rw [herase, hfull, blocked_cons_of_passes heq]
  · have hstep := step_of_dropped (s := ⟨1, 0, a₀ :: a₁ :: rest, f⟩) harr hentry hkeep
    refine ⟨a₀, a₁.eraseIdx 0, rest, hstep, ?_, Or.inl herase⟩
    rw [herase, blocked_cons_of_leaves hle fun hk => absurd hk hkeep, if_neg hkeep, Nat.add_zero]

theorem not_halts_of_blocked (h : Blocked R cap a₀.entries.length a₁.entries f) :
    ¬ Loop.Halts (step R) ⟨1, 0, a₀ :: a₁ :: rest, f⟩ := by
  refine Loop.not_halts_of_closed
    (D := fun s : State cap τ ρ => ∃ a₀ a₁ rest f, s = ⟨1, 0, a₀ :: a₁ :: rest, f⟩ ∧
      Blocked R cap a₀.entries.length a₁.entries f) ?_ ⟨a₀, a₁, rest, f, rfl, h⟩
  rintro _ ⟨a₀, a₁, rest, f, rfl, hblocked⟩
  cases hts : a₁.entries with
  | nil =>
    obtain ⟨i, t, ht, _⟩ := hblocked
    simp [hts] at ht
  | cons t ts =>
    obtain ⟨a₀', a₁', rest', hstep, hiff, _⟩ := step_second (R := R) a₀ rest f hts
    exact ⟨_, hstep, a₀', a₁', rest', _, rfl, hiff.mp (hts ▸ hblocked)⟩

theorem halts_of_not_blocked (h : ¬ Blocked R cap a₀.entries.length a₁.entries f) :
    Loop.Halts (step R) ⟨1, 0, a₀ :: a₁ :: rest, f⟩ := by
  refine Loop.halts_of_measure
    (I := fun s : State cap τ ρ => ∃ a₀ a₁ rest f, s = ⟨1, 0, a₀ :: a₁ :: rest, f⟩ ∧
      ¬ Blocked R cap a₀.entries.length a₁.entries f)
    (fun s => weight R s.record ((s.chain[1]?.map BArray.entries).getD [])) ?_
    ⟨a₀, a₁, rest, f, rfl, h⟩
  rintro _ s' ⟨a₀, a₁, rest, f, rfl, hblocked⟩ hs'
  cases hts : a₁.entries with
  | nil =>
    exact Or.inl ((Loop.halts_iff_of_step hs').mp (halts_of_second_empty hts f))
  | cons t ts =>
    obtain ⟨a₀', a₁', rest', hstep, hiff, hentries⟩ := step_second (R := R) a₀ rest f hts
    rw [hstep] at hs'
    cases hs'
    rw [hts] at hblocked
    refine Or.inr ⟨⟨a₀', a₁', rest', _, rfl, fun hb => hblocked (hiff.mpr hb)⟩, ?_⟩
    have hle := weight_update_le (R := R) (f := f) t ts
    have hcons : weight R f (t :: ts) = (life R (f t) + 1) + weight R f ts := rfl
    simp only [List.getElem?_cons_succ, List.getElem?_cons_zero, Option.map_some, Option.getD_some,
      hts]
    rcases hentries with hentries | ⟨hentries, hkeep, hfull, hlt⟩
    · rw [hentries]
      omega
    · -- An element that is appended again does not lodge, so it has lost one look.
      have hlodges : ¬ Lodges R (f t) := fun hlodges =>
        hblocked (by rw [hfull]; exact (blocked_of_full hlt).mpr ⟨t, List.mem_cons_self, hlodges⟩)
      have hlife := life_next_lt hkeep hlodges
      have happ : weight R (Function.update f t (R.next (f t))) (ts ++ [t]) =
          weight R (Function.update f t (R.next (f t))) ts + (life R (R.next (f t)) + 1) := by
        simp [weight]
      rw [hentries, happ]
      omega

end Stages

/-! ## Termination -/

/-- The sweep meets an element of the second array that is kept for ever, with the
head array full: counting the elements before it that are kept, there are as
many as the head array holds. -/
def Stuck (R : Rule ρ) (f : τ → ρ) : Chain cap τ → Prop
  | a₀ :: a₁ :: _ =>
    ∃ i t, a₁.entries[i]? = some t ∧ Lodges R (f t) ∧
      cap ≤ kept R f (a₀.entries ++ a₁.entries.take i) ∧ ¬ (i = 0 ∧ a₁.entries.length = cap)
  | _ => False

/-- A sweep ends if and only if it does not get stuck. -/
theorem halts_iff [NeZero cap] (c : Chain cap τ) (f : τ → ρ) :
    Loop.Halts (step R) ⟨0, 0, c, f⟩ ↔ ¬ Stuck R f c := by
  match c with
  | [] => exact ⟨fun _ h => h, fun _ => Loop.halts_of_none rfl⟩
  | [a₀] =>
    obtain ⟨a', _, hhalts⟩ := halts_head_iff (R := R) [] (a := a₀) rfl [] f
    refine ⟨fun _ h => h, fun _ => hhalts.mpr (Loop.halts_of_none ?_)⟩
    rw [step, if_neg (by simp)]
  | a₀ :: a₁ :: rest =>
    obtain ⟨a', hlen, hhalts⟩ := halts_head_iff (R := R) [] (a := a₀) rfl (a₁ :: rest) f
    have hblocked : Blocked R cap a'.entries.length a₁.entries (after R f a₀.entries) ↔
        Stuck R f (a₀ :: a₁ :: rest) := by
      rw [List.length_nil, Nat.zero_add] at hlen
      simp only [Blocked, Stuck, hlen, lodges_after, kept_append]
    rw [← hblocked]
    refine hhalts.trans ⟨fun h hb => not_halts_of_blocked hb h, halts_of_not_blocked⟩

end Sweep
