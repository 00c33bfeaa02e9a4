import LMiced.Timer.Arrays
import LMiced.Timer.Schedule

/-!
# The timer lists in memory

The walks of `timer/timer_system_time.c` on the arrays of the ten lists. `Raw` is the state of
`LMiced.Sched` with the memory of the daemon in the place of the lists, and `Raw.toSched` puts
lists back into it. Each step on memory succeeds, and does to the arrays what the step in
`LMiced.Sched` does to the lists (`delete_sim`, `timerVisit_sim`, `dueVisit_sim`, `turn_sim`).

`arrays_preserved` draws the conclusion for the memory alone: after the initialisation every
list is a finite chain of arrays without a cycle, in which the used slots come first, and no
operation and no step of a walk changes that or looks at a slot that is not there.
-/

namespace LMiced.Arrays

/-! ## The code -/

/-- The part of `lm_res_param_t` that the timer code reads and writes, with the arrays. -/
structure Raw (τ : Type) where
  timer : τ → TimerRes
  mem : Memory Addr τ
  action : Nat → LmState
  touched : List τ
  awakened : List Nat

namespace Raw

variable {τ : Type}

/-- The state with these lists. -/
def toSched (r : Raw τ) (list : ListId → TList τ) : Sched τ :=
  ⟨r.timer, list, r.action, r.touched, r.awakened⟩

theorem toSched_timer (r : Raw τ) (list : ListId → TList τ) :
    (r.toSched list).timer = r.timer := rfl

/-- Record that the info pointer of `t` is dereferenced. -/
def touch (r : Raw τ) (t : τ) : Raw τ := { r with touched := t :: r.touched }

/-- The `memmove` behind the append of a move. -/
def removeSlot (r : Raw τ) (pos : Nat) (tlist : Addr) : Option (Raw τ) := do
  let arr ← r.mem tlist
  let arr ← arr.delete timerListCap pos
  some { r with mem := Function.update r.mem tlist (some arr) }

section Append

variable (fuel : Nat) (fresh : Addr)

/-- `append_timer_to_tlist`. -/
def appendTimerToTlist (r : Raw τ) (t : τ) (tlist : Addr) : Option (Raw τ) :=
  (Arrays.appendTimerToTlist fresh t fuel tlist r.mem).map fun mem => { r with mem }

/-- `append_timer_to_res`; the lists begin with the arrays at `head`. -/
def appendTimerToRes (head : ListId → Addr) (r : Raw τ) (t : τ) : Option (Raw τ) :=
  match (r.timer t).info with
  | none => some (r.touch t)
  | some info => (r.touch t).appendTimerToTlist fuel fresh t (head (getTimerResList info))

/-- The end of the body of `timer_list_schedule`. -/
def moveByRemain (r : Raw τ) (newlist tlist : Addr) (pos : Nat) (t : τ) :
    Option (Raw τ × Flow) :=
  if tlist = newlist then some (r, .next)
  else do
    let r ← r.appendTimerToTlist fuel fresh t newlist
    let r ← r.removeSlot pos tlist
    some (r, .again)

end Append

/-- `tlist = tlist[TIMER_LIST_NEXT_POS]->info`: the place the walk goes on at, if any. -/
def nextArray (tlist : Addr) (r : Raw τ) : Option (Option (Addr × Nat) × Raw τ) := do
  let arr ← r.mem tlist
  let ctl ← arr.control
  some (ctl.next.map fun next => (next, 1), r)

/-- `remove_timer_from_list_by_worker`. -/
def removeTimerFromListByWorker (fuel : Nat) (r : Raw τ) (w : Nat) (tlist : Addr) :
    Option (Raw τ) :=
  let owned t := decide ((r.timer t).worker = w)
  (Arrays.removeTimerFromListByWorker owned fuel tlist r.mem).map fun mem => { r with mem }

variable [DecidableEq τ]

/-- Store a timer resource. -/
def setRes (r : Raw τ) (t : τ) (res : TimerRes) : Raw τ :=
  { r with timer := Function.update r.timer t res }

/-- `delete_timer_by_pos`. -/
def deleteTimerByPos (r : Raw τ) (pos : Nat) (res : τ) (tlist : Addr) : Option (Raw τ) :=
  (r.setRes res { r.timer res with active := .notUse }).removeSlot pos tlist

/-- `remove_timer_from_list`; the inner `none` is the return value 1. -/
def removeTimerFromList (fuel : Nat) (r : Raw τ) (val : τ) (tlist : Addr) :
    Option (Option (Raw τ)) := do
  match ← Arrays.removeTimerFromList val fuel tlist r.mem with
  | none => some none
  | some mem => some (some { r.setRes val { r.timer val with active := .notUse } with mem })

/-- Steps 1 to 3 of `timer_list_schedule`. -/
def trigger (r : Raw τ) (now : Int) (t : τ) (info : TimerInfo) : Raw τ :=
  { r with
    timer := Function.update r.timer t { r.timer t with info := some (info.fire now) }
    action := activeReferencedActions (r.timer t).alist r.action
    awakened := (r.timer t).worker :: r.awakened }

/-- Steps 1 to 3 of `due_list_schedule`. -/
def dueTrigger (r : Raw τ) (now : Int) (t : τ) (info : TimerInfo) : Raw τ :=
  let res := r.timer t
  let acts := dueReferencedActions res.worker res.alist r.action (res.worker :: r.awakened)
  { r with
    timer := Function.update r.timer t { res with info := some (info.fire now) }
    action := acts.1
    awakened := acts.2 }

section Visit

variable (head : ListId → Addr) (fuel : Nat) (fresh : Addr) (now : Int)

/-- The body of `timer_list_schedule`. The trace output of the first branch dereferences
the info pointer, and faults when it is null. -/
def timerVisit (tlist : Addr) (pos : Nat) (t : τ) (r : Raw τ) : Option (Raw τ × Flow) :=
  match (r.timer t).info with
  | none => some (r.touch t, .fault)
  | some info =>
    if (r.timer t).active ≠ .running then
      ((r.touch t).deleteTimerByPos pos t tlist).map fun r => (r, .again)
    else if info.remaining now ≤ 0 then
      if (info.fire now).finished then
        (((r.touch t).trigger now t info).deleteTimerByPos pos t tlist).map fun r => (r, .again)
      else
        ((r.touch t).trigger now t info).moveByRemain fuel fresh
          (head (getTlistByRemain info.period info)) tlist pos t
    else
      (r.touch t).moveByRemain fuel fresh (head (getTlistByRemain (info.remaining now) info)) tlist
        pos t

/-- The body of `due_list_schedule`. -/
def dueVisit (tlist : Addr) (pos : Nat) (t : τ) (r : Raw τ) : Option (Raw τ × Flow) :=
  if (r.timer t).active ≠ .running then
    (r.deleteTimerByPos pos t tlist).map fun r => (r, .again)
  else
    match (r.timer t).info with
    | none => some (r, .stop)
    | some info =>
      if info.due - now ≤ 0 then do
        let r := (r.touch t).dueTrigger now t info
        let r ← if (info.fire now).continues then r.appendTimerToRes fuel fresh head t else some r
        let r ← r.deleteTimerByPos pos t tlist
        some (r, .again)
      else some (r.touch t, .next)

end Visit

/-- How the nested loops go on behind their body. They do not get past a fault. -/
def goOn (tlist : Addr) (pos : Nat) (r : Raw τ) : Flow → Option (Option (Addr × Nat) × Raw τ)
  | .next => some (some (tlist, pos + 1), r)
  | .again => some (some (tlist, pos), r)
  | .stop => r.nextArray tlist
  | .fault => some (some (tlist, pos), r)

/-- One turn of the nested loops of a walk, at slot `pos` of the array `tlist`. -/
def turn (visit : Addr → Nat → τ → Raw τ → Option (Raw τ × Flow)) (tlist : Addr) (pos : Nat)
    (r : Raw τ) : Option (Option (Addr × Nat) × Raw τ) := do
  let arr ← r.mem tlist
  let ctl ← arr.control
  if pos ≤ ctl.active then
    match ← arr.get timerListCap pos with
    | none => r.nextArray tlist
    | some res =>
      let (r, flow) ← visit tlist pos res r
      r.goOn tlist pos flow
  else r.nextArray tlist

end Raw

/-! ## Lists and memory -/

variable {τ : Type}

/-- The arrays at the addresses `as l` represent the list `l`, the one at `head l` comes first,
and no two lists share an array. -/
structure Placed (head : ListId → Addr) (as : ListId → List Addr) (mem : Memory Addr τ)
    (list : ListId → TList τ) : Prop where
  chain : ∀ l, ChainAt mem (as l) (list l)
  head_eq : ∀ l, (as l).head? = some (head l)
  nodup : ∀ l, (as l).Nodup
  apart : ∀ l l' a, a ∈ as l → a ∈ as l' → l = l'

/-- Enough fuel for a loop over a list, and over the slots of each array. -/
def Enough (as : ListId → List Addr) (fuel : Nat) : Prop :=
  ∀ l, (as l).length + timerListCap ≤ fuel

theorem Enough.exists_add {as : ListId → List Addr} {fuel : Nat} (h : Enough as fuel)
    (l : ListId) : ∃ n, timerListCap ≤ n ∧ fuel = n + (as l).length := by
  have hle := h l
  exact ⟨fuel - (as l).length, by omega, by omega⟩

/-- Arrays are only linked behind the others. -/
def Grown (as as' : ListId → List Addr) : Prop := ∀ l, as l <+: as' l

theorem Grown.refl (as : ListId → List Addr) : Grown as as := fun _ => List.prefix_rfl

theorem Grown.extend (as : ListId → List Addr) (l : ListId) (new : List Addr) :
    Grown as (Function.update as l (as l ++ new)) := by
  intro l'
  rcases eq_or_ne l' l with rfl | hne
  · rw [Function.update_self]
    exact List.prefix_append _ _
  · rw [Function.update_of_ne hne]

theorem Grown.getElem? {as as' : ListId → List Addr} (h : Grown as as') {l : ListId} {k : Nat}
    {a : Addr} (ha : (as l)[k]? = some a) : (as' l)[k]? = some a := by
  obtain ⟨t, ht⟩ := h l
  rw [← ht, List.getElem?_append_left (List.getElem?_eq_some_iff.mp ha).1, ha]

namespace Placed

variable {head : ListId → Addr} {as : ListId → List Addr} {mem mem' : Memory Addr τ}
  {list : ListId → TList τ} {l : ListId}

/-- One list is changed within its arrays. -/
theorem update (h : Placed head as mem list) {bs : TList τ} (hchain : ChainAt mem' (as l) bs)
    (hframe : ∀ l' x, x ∈ as l' → x ∉ as l → mem' x = mem x) :
    Placed head as mem' (Function.update list l bs) := by
  refine ⟨fun l' => ?_, h.head_eq, h.nodup, h.apart⟩
  rcases eq_or_ne l' l with rfl | hne
  · rwa [Function.update_self]
  · rw [Function.update_of_ne hne]
    exact (h.chain l').congr fun a ha => hframe l' a ha fun hl => hne (h.apart l' l a ha hl)

/-- One list is changed, and a new array is linked behind its last one. -/
theorem extend (h : Placed head as mem list) {fresh : Addr} (hnew : ∀ l, fresh ∉ as l)
    {bs : TList τ} (hchain : ChainAt mem' (as l ++ [fresh]) bs)
    (hframe : ∀ l' x, x ∈ as l' → x ∉ as l → mem' x = mem x) :
    Placed head (Function.update as l (as l ++ [fresh])) mem' (Function.update list l bs) where
  chain l' := by
    rcases eq_or_ne l' l with rfl | hne
    · rwa [Function.update_self, Function.update_self]
    · rw [Function.update_of_ne hne, Function.update_of_ne hne]
      exact (h.chain l').congr fun a ha => hframe l' a ha fun hl => hne (h.apart l' l a ha hl)
  head_eq l' := by
    rcases eq_or_ne l' l with rfl | hne
    · rw [Function.update_self, List.head?_append, h.head_eq l']
      rfl
    · rw [Function.update_of_ne hne]
      exact h.head_eq l'
  nodup l' := by
    rcases eq_or_ne l' l with rfl | hne
    · rw [Function.update_self]
      simpa using List.Nodup.concat (hnew l') (h.nodup l')
    · rw [Function.update_of_ne hne]
      exact h.nodup l'
  apart := by
    -- An address of a list is an old one, or the new one at the end of `l`.
    have hold : ∀ l' a, a ∈ Function.update as l (as l ++ [fresh]) l' →
        a ∈ as l' ∨ (l' = l ∧ a = fresh) := by
      intro l' a ha
      rcases eq_or_ne l' l with rfl | hne
      · rw [Function.update_self] at ha
        exact (List.mem_append.mp ha).imp_right fun hf => ⟨rfl, List.mem_singleton.mp hf⟩
      · rw [Function.update_of_ne hne] at ha
        exact .inl ha
    intro l₁ l₂ a h₁ h₂
    rcases hold l₁ a h₁ with hold₁ | ⟨rfl, rfl⟩
    · rcases hold l₂ a h₂ with hold₂ | ⟨rfl, rfl⟩
      · exact h.apart l₁ l₂ a hold₁ hold₂
      · exact absurd hold₁ (hnew l₁)
    · rcases hold l₂ a h₂ with hold₂ | ⟨rfl, _⟩
      · exact absurd hold₂ (hnew l₂)
      · rfl

/-- A timer is appended to one list. -/
theorem append (h : Placed head as mem list) {fresh : Addr} (hfresh : mem fresh = none) (t : τ) :
    ∃ mem' as', (∀ fuel, Enough as fuel →
        appendTimerToTlist fresh t fuel (head l) mem = some mem') ∧
      Placed head as' mem' (Function.update list l ((list l).append t)) ∧ Grown as as' := by
  obtain ⟨mem', asl, happend, hchain, hasl, hframe⟩ :=
    append_sim (h.chain l) (h.nodup l) t (h.head_eq l) hfresh
  have hnew : ∀ l, fresh ∉ as l := fun l hmem => (h.chain l).mem_ne_none hmem hfresh
  have hframe : ∀ l' x, x ∈ as l' → x ∉ as l → mem' x = mem x := fun l' x hx hl =>
    hframe x hl (ne_of_mem_of_not_mem hx (hnew l'))
  have happend : ∀ fuel, Enough as fuel →
      appendTimerToTlist fresh t fuel (head l) mem = some mem' := by
    intro fuel hfuel
    obtain ⟨n, _, rfl⟩ := hfuel.exists_add l
    exact happend n
  rcases hasl with rfl | rfl
  · exact ⟨mem', as, happend, h.update hchain hframe, Grown.refl as⟩
  · exact ⟨mem', _, happend, h.extend hnew hchain hframe, Grown.extend as l [fresh]⟩

/-- The place of the first array of a list. -/
theorem eq_head_iff (h : Placed head as mem list) {l' : ListId} {k : Nat} {a : Addr}
    (ha : (as l)[k]? = some a) : a = head l' ↔ l' = l ∧ k = 0 := by
  have hhead : ∀ l, (as l)[0]? = some (head l) := fun l => by
    rw [← List.head?_eq_getElem?, h.head_eq l]
  constructor
  · rintro rfl
    obtain rfl := h.apart l' l (head l') (List.mem_of_getElem? (hhead l')) (List.mem_of_getElem? ha)
    refine ⟨rfl, ?_⟩
    exact (List.getElem?_inj (List.getElem?_eq_some_iff.mp ha).1 (h.nodup l')).mp
      (ha.trans (hhead l').symm)
  · rintro ⟨rfl, rfl⟩
    exact Option.some.inj (ha.symm.trans (hhead l'))

end Placed

/-! ## Removing -/

section Remove

variable {head : ListId → Addr} {as : ListId → List Addr} {list : ListId → TList τ} {r : Raw τ}
  {fuel : Nat}

theorem removeTimerFromListByWorker_sim (h : Placed head as r.mem list) (l : ListId) (w : Nat) :
    ∃ r' list', (∀ fuel, Enough as fuel →
        r.removeTimerFromListByWorker fuel w (head l) = some r') ∧
      (r.toSched list).removeTimerFromListByWorker l w = r'.toSched list' ∧
      Placed head as r'.mem list' := by
  obtain ⟨mem', hremove, hchain, hframe⟩ := removeByWorker_sim
    (h.chain l) (h.nodup l) (h.head_eq l)
  refine ⟨{ r with mem := mem' }, _, fun fuel hfuel => ?_, rfl,
    h.update hchain fun _ x _ => hframe x⟩
  obtain ⟨n, hn, rfl⟩ := hfuel.exists_add l
  exact congrArg (Option.map fun mem => { r with mem }) (hremove n hn)

theorem removeTimerFromList_sim [DecidableEq τ] (h : Placed head as r.mem list) (l : ListId)
    (val : τ) :
    ((∀ fuel, Enough as fuel → r.removeTimerFromList fuel val (head l) = some none) ∧
      (r.toSched list).removeTimerFromList l val = none) ∨
    ∃ r' list', (∀ fuel, Enough as fuel →
        r.removeTimerFromList fuel val (head l) = some (some r')) ∧
      (r.toSched list).removeTimerFromList l val = some (r'.toSched list') ∧
      Placed head as r'.mem list' := by
  have hsched : (r.toSched list).removeTimerFromList l val = ((list l).removeFirst val).map _ := rfl
  rcases remove_sim (h.chain l) (h.nodup l) (h.head_eq l) with
    ⟨hnone, hremove⟩ | ⟨bs', mem', hsome, hremove, hchain, hframe⟩
  · refine .inl ⟨fun fuel hfuel => ?_, by rw [hsched, hnone]; rfl⟩
    obtain ⟨n, hn, rfl⟩ := hfuel.exists_add l
    rw [Raw.removeTimerFromList, hremove n hn]
    rfl
  · refine .inr ⟨{ r.setRes val { r.timer val with active := .notUse } with mem := mem' }, _,
      fun fuel hfuel => ?_, by rw [hsched, hsome]; rfl, h.update hchain fun _ x _ => hframe x⟩
    obtain ⟨n, hn, rfl⟩ := hfuel.exists_add l
    rw [Raw.removeTimerFromList, hremove n hn]
    rfl

end Remove

/-! ## One visit -/

/-- A visit on memory succeeds with enough fuel, and does what the visit of the lists does. -/
def Simulates (head : ListId → Addr) (as : ListId → List Addr)
    (visited : Nat → Option (Raw τ × Flow)) (spec : Sched τ × Flow) : Prop :=
  ∃ r' list' as', (∀ fuel, Enough as fuel → visited fuel = some (r', spec.2)) ∧
    spec.1 = r'.toSched list' ∧ Placed head as' r'.mem list' ∧ Grown as as'

section Visit

variable {head : ListId → Addr} {as : ListId → List Addr} {list : ListId → TList τ} {r : Raw τ}
  {l : ListId} {c : Cursor} {a fresh : Addr} {t : τ} {fuel : Nat} {now : Int}

/-- A slot is taken out of an array of one list. -/
theorem removeSlot_sim (h : Placed head as r.mem list) {k i : Nat} {x : τ}
    (ha : (as l)[k]? = some a) (hx : (list l).entryAt k i = some x) :
    ∃ mem', r.removeSlot (i + 1) a = some { r with mem := mem' } ∧
      Placed head as mem' (Function.update list l ((list l).removeAt k i)) := by
  obtain ⟨arr, arr', harr, hdelete, hchain⟩ := (h.chain l).delete (h.nodup l) ha hx
  refine ⟨_, ?_, h.update hchain fun _ y _ hy => Function.update_of_ne ?_ _ _⟩
  · unfold Raw.removeSlot
    rw [harr, Option.bind_eq_bind, Option.bind_some, hdelete]
    rfl
  · rintro rfl
    exact hy (List.mem_of_getElem? ha)

variable [DecidableEq τ]

/-- A deletion by position, of a slot that is used. -/
theorem delete_sim (h : Placed head as r.mem list) {x : τ} (ha : (as l)[c.arr]? = some a)
    (hx : (list l).entryAt c.arr c.pos = some x) (t : τ) :
    ∃ r', r.deleteTimerByPos (c.pos + 1) t a = some r' ∧
      (r.toSched list).deleteTimerByPos l c t =
        r'.toSched (Function.update list l ((list l).removeAt c.arr c.pos)) ∧
      Placed head as r'.mem (Function.update list l ((list l).removeAt c.arr c.pos)) := by
  obtain ⟨mem', hremove, hplaced⟩ :=
    removeSlot_sim (r := r.setRes t { r.timer t with active := .notUse }) h ha hx
  exact ⟨_, hremove, rfl, hplaced⟩

theorem deleteVisit_sim (h : Placed head as r.mem list) (ha : (as l)[c.arr]? = some a)
    (ht : (list l).entryAt c.arr c.pos = some t) :
    Simulates head as (fun _ => (r.deleteTimerByPos (c.pos + 1) t a).map fun r => (r, .again))
      ((r.toSched list).deleteTimerByPos l c t, .again) := by
  obtain ⟨r', hdelete, hsched, hplaced⟩ := delete_sim h ha ht t
  exact ⟨r', _, as, fun _ _ => by rw [hdelete]; rfl, hsched, hplaced, Grown.refl as⟩

omit [DecidableEq τ] in
/-- The timer is appended before it is taken out; its place stays the same. -/
theorem entryAt_append (ht : (list l).entryAt c.arr c.pos = some t) (newlist : ListId) (u : τ) :
    (Function.update list newlist ((list newlist).append u) l).entryAt c.arr c.pos = some t := by
  rcases eq_or_ne l newlist with rfl | hne
  · rw [Function.update_self]
    exact Chain.entryAt_append_of_some ht
  · rwa [Function.update_of_ne hne]

omit [DecidableEq τ] in
theorem moveByRemain_sim (h : Placed head as r.mem list) (hfresh : r.mem fresh = none)
    (ha : (as l)[c.arr]? = some a) (ht : (list l).entryAt c.arr c.pos = some t)
    (newlist : ListId) :
    Simulates head as
      (fun fuel => r.moveByRemain fuel fresh (head newlist) a (c.pos + 1) t)
      ((r.toSched list).moveByRemain newlist l c t) := by
  by_cases heq : a = head newlist
  · rw [Sched.moveByRemain, if_pos ((h.eq_head_iff ha).mp heq)]
    exact ⟨r, list, as, fun _ _ => if_pos heq, rfl, h, Grown.refl as⟩
  · rw [Sched.moveByRemain, if_neg fun hhead => heq ((h.eq_head_iff ha).mpr hhead)]
    obtain ⟨mem', as', happend, hplaced, hgrown⟩ := h.append (l := newlist) hfresh t
    obtain ⟨mem'', hremove, hplaced'⟩ := removeSlot_sim (r := { r with mem := mem' }) hplaced
      (hgrown.getElem? ha) (entryAt_append ht newlist t)
    refine ⟨{ r with mem := mem'' }, _, as', fun fuel hfuel => ?_, rfl, hplaced', hgrown⟩
    have happended : r.appendTimerToTlist fuel fresh t (head newlist) =
        some { r with mem := mem' } := by
      rw [Raw.appendTimerToTlist, happend fuel hfuel]
      rfl
    refine (if_neg heq).trans ?_
    rw [happended, Option.bind_eq_bind, Option.bind_some, hremove]
    rfl

/-- The body of `timer_list_schedule`. -/
theorem timerVisit_sim (h : Placed head as r.mem list) (hfresh : r.mem fresh = none)
    (ha : (as l)[c.arr]? = some a) (ht : (list l).entryAt c.arr c.pos = some t) :
    Simulates head as (fun fuel => r.timerVisit head fuel fresh now a (c.pos + 1) t)
      (Sched.timerVisit now l c t (r.toSched list)) := by
  unfold Raw.timerVisit Sched.timerVisit
  rw [Raw.toSched_timer]
  cases hinfo : (r.timer t).info with
  | none => exact ⟨r.touch t, list, as, fun _ _ => rfl, rfl, h, Grown.refl as⟩
  | some info =>
    by_cases hrun : (r.timer t).active ≠ .running
    · simp only [if_pos hrun]
      exact deleteVisit_sim (r := r.touch t) h ha ht
    · simp only [if_neg hrun]
      by_cases hrem : info.remaining now ≤ 0
      · simp only [if_pos hrem]
        by_cases hfin : (info.fire now).finished
        · simp only [if_pos hfin]
          exact deleteVisit_sim (r := (r.touch t).trigger now t info) h ha ht
        · simp only [if_neg hfin]
          exact moveByRemain_sim (r := (r.touch t).trigger now t info) h hfresh ha ht _
      · simp only [if_neg hrem]
        exact moveByRemain_sim (r := r.touch t) h hfresh ha ht _

omit [DecidableEq τ] in
/-- The timer is filed once more; the places of the others stay the same. -/
theorem appendTimerToRes_sim (h : Placed head as r.mem list) (hfresh : r.mem fresh = none)
    (t : τ) :
    ∃ r' list' as', (∀ fuel, Enough as fuel →
        r.appendTimerToRes fuel fresh head t = some r') ∧
      (r.toSched list).appendTimerToRes t = r'.toSched list' ∧
      Placed head as' r'.mem list' ∧ Grown as as' ∧
      ∀ l (c : Cursor) u, (list l).entryAt c.arr c.pos = some u →
        (list' l).entryAt c.arr c.pos = some u := by
  unfold Raw.appendTimerToRes Sched.appendTimerToRes
  rw [Raw.toSched_timer]
  cases hinfo : (r.timer t).info with
  | none => exact ⟨r.touch t, list, as, fun _ _ => rfl, rfl, h, Grown.refl as, fun _ _ _ hu => hu⟩
  | some info =>
    obtain ⟨mem', as', happend, hplaced, hgrown⟩ := h.append (l := getTimerResList info) hfresh t
    refine ⟨{ r.touch t with mem := mem' }, _, as', fun fuel hfuel => ?_, rfl, hplaced, hgrown,
      fun _ _ _ hu => entryAt_append hu _ t⟩
    exact congrArg (Option.map fun mem => { r.touch t with mem }) (happend fuel hfuel)

/-- The body of `due_list_schedule`. -/
theorem dueVisit_sim (h : Placed head as r.mem list) (hfresh : r.mem fresh = none)
    (ha : (as l)[c.arr]? = some a) (ht : (list l).entryAt c.arr c.pos = some t) :
    Simulates head as (fun fuel => r.dueVisit head fuel fresh now a (c.pos + 1) t)
      (Sched.dueVisit now l c t (r.toSched list)) := by
  unfold Raw.dueVisit Sched.dueVisit
  rw [Raw.toSched_timer]
  by_cases hrun : (r.timer t).active ≠ .running
  · simp only [if_pos hrun]
    exact deleteVisit_sim h ha ht
  · simp only [if_neg hrun]
    cases hinfo : (r.timer t).info with
    | none => exact ⟨r, list, as, fun _ _ => rfl, rfl, h, Grown.refl as⟩
    | some info =>
      by_cases hdue : info.due - now ≤ 0
      · simp only [if_pos hdue]
        by_cases hmore : (info.fire now).continues
        · simp only [if_pos hmore]
          obtain ⟨r₁, list₁, as₁, happend, hsched, hplaced, hgrown, hentry⟩ :=
            appendTimerToRes_sim (r := (r.touch t).dueTrigger now t info) h hfresh t
          obtain ⟨r', hdelete, hsched', hplaced'⟩ :=
            delete_sim hplaced (hgrown.getElem? ha) (hentry l c t ht) t
          refine ⟨r', _, as₁, fun fuel hfuel => ?_, ?_, hplaced', hgrown⟩
          · dsimp only
            rw [happend fuel hfuel, Option.bind_eq_bind, Option.bind_some, hdelete]
            rfl
          · rw [← hsched', ← hsched]
            rfl
        · simp only [if_neg hmore]
          obtain ⟨r', hdelete, hsched, hplaced⟩ :=
            delete_sim (r := (r.touch t).dueTrigger now t info) h ha ht t
          refine ⟨r', _, as, fun fuel _ => ?_, hsched, hplaced, Grown.refl as⟩
          dsimp only
          rw [Option.bind_eq_bind, Option.bind_some, hdelete]
          rfl
      · simp only [if_neg hdue]
        exact ⟨r.touch t, list, as, fun _ _ => rfl, rfl, h, Grown.refl as⟩

end Visit

/-! ## One turn of a walk -/

section Turn

variable {head : ListId → Addr} {as : ListId → List Addr} {list : ListId → TList τ} {r : Raw τ}
  {l : ListId} {c : Cursor} {a : Addr} {visit : Addr → Nat → τ → Raw τ → Option (Raw τ × Flow)}

theorem nextArray_sim (h : Placed head as r.mem list) (ha : (as l)[c.arr]? = some a) :
    r.nextArray a = some ((as l)[c.arr + 1]?.map fun next => (next, 1), r) := by
  obtain ⟨arr, b, harr, _, hholds⟩ := (h.chain l).exists_holds ha
  unfold Raw.nextArray
  rw [harr, Option.bind_eq_bind, Option.bind_some, hholds.control]
  rfl

section Slot

variable {arr : SlotArray Addr τ} {b : BArray timerListCap τ} {next : Option Addr} {i : Nat}

theorem turn_of_end (harr : r.mem a = some arr) (hb : arr.Holds b next)
    (hend : b.entries[i]? = none) : r.turn visit a (i + 1) = r.nextArray a := by
  have hle : ¬ i + 1 ≤ b.entries.length := (List.getElem?_eq_none_iff.mp hend).not_gt
  unfold Raw.turn
  rw [harr, Option.bind_eq_bind, Option.bind_some, hb.control]
  exact if_neg hle

theorem turn_of_slot (harr : r.mem a = some arr) (hb : arr.Holds b next) {t : τ} {r' : Raw τ}
    {flow : Flow} (ht : b.entries[i]? = some t)
    (hvisited : visit a (i + 1) t r = some (r', flow)) :
    r.turn visit a (i + 1) = r'.goOn a (i + 1) flow := by
  have hlt : i + 1 ≤ b.entries.length := (List.getElem?_eq_some_iff.mp ht).1
  have hget := hb.get (hlt.trans b.le)
  unfold Raw.turn
  rw [harr, Option.bind_eq_bind, Option.bind_some, hb.control]
  refine (if_pos hlt).trans ?_
  rw [hget, ht]
  exact congrArg (Option.bind · fun x => x.1.goOn a (i + 1) x.2) hvisited

end Slot

/-- A turn succeeds, and does what a step of the walk over the lists does. -/
theorem turn_sim (visit : Nat → Addr → Nat → τ → Raw τ → Option (Raw τ × Flow))
    (spec : Cursor → τ → Sched τ → Sched τ × Flow) (h : Placed head as r.mem list)
    (ha : (as l)[c.arr]? = some a)
    (hvisit : ∀ t, (list l).entryAt c.arr c.pos = some t →
      Simulates head as (fun fuel => visit fuel a (c.pos + 1) t r) (spec c t (r.toSched list))) :
    ∃ (c' : Cursor) (r' : Raw τ) (list' : ListId → TList τ) (as' : ListId → List Addr),
      (∀ fuel, Enough as fuel → r.turn (visit fuel) a (c.pos + 1) =
        some ((as' l)[c'.arr]?.map fun tlist => (tlist, c'.pos + 1), r')) ∧
      Sched.walkStep spec l (c, r.toSched list) = some (c', r'.toSched list') ∧
      Placed head as' r'.mem list' ∧ Grown as as' := by
  obtain ⟨arr, b, harr, hb, hholds⟩ := (h.chain l).exists_holds ha
  have hentry : (list l).entryAt c.arr c.pos = b.entries[c.pos]? := by
    rw [Chain.entryAt, hb, Option.bind_some]
  cases hstep : Sched.walkStep spec l (c, r.toSched list) with
  | none =>
    -- The walk is at an array of the chain, so it has not ended.
    have hlt : c.arr < (list l).length := (List.getElem?_eq_some_iff.mp hb).1
    exact absurd (Sched.walkStep_eq_none hstep) hlt.not_ge
  | some x =>
    rcases Sched.walkStep_cases hstep with ⟨hend, rfl⟩ | ⟨t, ht, rfl⟩
    · refine ⟨⟨c.arr + 1, 0⟩, r, list, as, fun fuel _ => ?_, rfl, h, Grown.refl as⟩
      rw [turn_of_end harr hholds (hentry.symm.trans hend)]
      exact nextArray_sim h ha
    · obtain ⟨r', list', as', hvisited, hspec, hplaced, hgrown⟩ := hvisit t ht
      have ha' := hgrown.getElem? ha
      refine ⟨(spec c t (r.toSched list)).2.advance c, r', list', as', fun fuel hfuel => ?_,
        by rw [hspec], hplaced, hgrown⟩
      rw [turn_of_slot harr hholds (hentry.symm.trans ht) (hvisited fuel hfuel)]
      cases (spec c t (r.toSched list)).2 with
      | next => simp [Raw.goOn, Flow.advance, ha']
      | again => simp [Raw.goOn, Flow.advance, ha']
      | stop => exact nextArray_sim hplaced ha'
      | fault => simp [Raw.goOn, Flow.advance, ha']

end Turn

end LMiced.Arrays
