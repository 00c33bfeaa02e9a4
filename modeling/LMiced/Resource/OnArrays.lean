import LMiced.Lib.Refine
import LMiced.Timer.WellFormed
import LMiced.Resource.Tasks

/-!
# The timers of the daemon on arrays

`ResEvent.step` runs the timers on lists. This file runs them on the memory of the daemon, where
the lists are chains of arrays: whole walks, `schedule_timer_and_ticker`, the tasks that
`resource_task_proc` takes from the queue, and the maintenance of a timer slot. `heap` are the
addresses that `malloc` returns, one after the other.

* `scheduleTimerAndTicker_refines`, `taskProc_refines`: what runs on arrays refines what runs
  on lists;
* `onArrays_refines`: so does every run, from the initialisation on. What has been proved about
  the lists holds of the arrays.
-/

namespace LMiced.Arrays

/-! ## The code -/

/-- The timer part of the daemon, and how many of the addresses of the heap may be in use. -/
structure Alloc (τ : Type) where
  raw : Raw τ
  used : Nat

/-- `ResParam` on arrays. -/
structure Param (τ : Type) where
  alloc : Alloc τ
  queue : TaskQueue τ

section Code

variable {τ : Type} [DecidableEq τ] (head : ListId → Addr) (heap : Nat → Addr) (fuel : Nat)

/-- One turn of the nested loops, at a place of the list. -/
def Schedule.turn (schedule : Schedule) (now : Int) (x : Option (Addr × Nat) × Alloc τ) :
    Option (Option (Addr × Nat) × Alloc τ) := do
  let place ← x.1
  let y ← x.2.raw.turn (schedule.visit head (heap x.2.used) now fuel) place.1 place.2
  some (y.1, ⟨y.2, x.2.used + 1⟩)

/-- `timer_list_schedule` and `due_list_schedule`. -/
def Schedule.walk (schedule : Schedule) (turns : Nat) (now : Int) (l : ListId) (d : Alloc τ) :
    Option (Alloc τ) :=
  (Refine.loop (fun x => x.1.isNone) (schedule.turn head heap fuel now) turns
    (some (head l, 1), d)).map Prod.snd

/-- `timer_list_schedule` on every `n`th tick. -/
def timerListEvery (n turns : Nat) (now : Int) (count : Nat) (l : ListId) (d : Alloc τ) :
    Option (Alloc τ) :=
  if count % n = 0 then Schedule.timerList.walk head heap fuel turns now l d else some d

/-- One half of `schedule_timer_and_ticker`. -/
def scheduleFamily (turns : Nat) (f : Family) (now : Int) (count : Nat) (d : Alloc τ) :
    Option (Alloc τ) := do
  let d ← Schedule.dueList.walk head heap fuel turns now ⟨f, .due⟩ d
  let d ← Schedule.timerList.walk head heap fuel turns now ⟨f, .work1⟩ d
  let d ← timerListEvery head heap fuel 16 turns now count ⟨f, .work2⟩ d
  let d ← timerListEvery head heap fuel 32 turns now count ⟨f, .work3⟩ d
  timerListEvery head heap fuel 128 turns now count ⟨f, .work4⟩ d

/-- `schedule_timer_and_ticker`. -/
def scheduleTimerAndTicker (turns : Nat) (now tick : Int) (count : Nat) (d : Alloc τ) :
    Option (Alloc τ) := do
  let d ← scheduleFamily head heap fuel turns .timer now count d
  if 0 < tick then scheduleFamily head heap fuel turns .ticker tick count d else some d

/-- The lists of one family, tried in the order of `remove_timer_from_res`. -/
def removeTimerFromBands (f : Family) (t : τ) : List Band → Raw τ → Option (Raw τ)
  | [], r => some r
  | b :: bs, r => do
    match ← r.removeTimerFromList fuel t (head ⟨f, b⟩) with
    | some r' => some r'
    | none => removeTimerFromBands f t bs r

/-- `remove_timer_from_res`. -/
def removeTimerFromRes (t : τ) (r : Raw τ) : Option (Raw τ) :=
  match (r.timer t).info with
  | none => some (r.touch t)
  | some info =>
    removeTimerFromBands head fuel info.family t [.due, .work1, .work2, .work3, .work4] (r.touch t)

/-- `remove_timer_by_worker`. -/
def removeTimerByWorker (w : Nat) (r : Raw τ) : Option (Raw τ) :=
  ListId.all.foldlM (fun r l => r.removeTimerFromListByWorker fuel w (head l)) r

/-- The body of `resource_task_proc`. -/
def taskProc : ResTask τ → Alloc τ → Option (Alloc τ)
  | .addTimer t, d =>
    (d.raw.appendTimerToRes fuel (heap d.used) head t).map fun raw => ⟨raw, d.used + 1⟩
  | .delTimer t, d => (removeTimerFromRes head fuel t d.raw).map fun raw => { d with raw }
  | .addWorker _, d => some d
  | .delWorker w, d => (removeTimerByWorker head fuel w d.raw).map fun raw => { d with raw }

/-- The loop of `resource_task_proc`. -/
def drain : Nat → Param τ → Option (Param τ)
  | 0, p => some p
  | peeks + 1, p =>
    match peekResourceTask p.queue with
    | none => some p
    | some (task, queue) => do
      let alloc ← taskProc head heap fuel task p.alloc
      drain peeks ⟨alloc, queue⟩

namespace Param

/-- The record of a timer is written. -/
def setRes (t : τ) (r : TimerRes) (p : Param τ) : Param τ :=
  { p with alloc := { p.alloc with raw := p.alloc.raw.setRes t r } }

/-- `open_timer_resource`. -/
def openTimerResource (locked : Bool) (t : τ) (p : Param τ) : Param τ :=
  { p.setRes t { p.alloc.raw.timer t with active := .running } with
    queue := (setResourceTask locked (.addTimer t) p.queue).1 }

/-- `close_timer_resource`. -/
def closeTimerResource (locked : Bool) (t : τ) (p : Param τ) : Param τ :=
  { p.setRes t { p.alloc.raw.timer t with active := .delete } with
    queue := (setResourceTask locked (.delTimer t) p.queue).1 }

/-- The body of `maintain_worker_timer_resource` for one timer slot. -/
def maintainTimer (locked : Bool) (t : τ) (p : Param τ) : Option (Param τ) :=
  (p.alloc.raw.timer t).info.map fun info =>
    if (p.alloc.raw.timer t).active = .notUse ∧ info.instId = 0 then p
    else if (p.alloc.raw.timer t).active = .running ∧ info.instId = 0 then
      p.closeTimerResource locked t
    else if (p.alloc.raw.timer t).active = .notUse ∧ info.instId ≠ 0 then
      p.openTimerResource locked t
    else p

/-- A worker writes the info block of one of its timers. -/
def writeTimer (t : τ) (info : TimerInfo) (p : Param τ) : Option (Param τ) :=
  (p.alloc.raw.timer t).info.map fun _ =>
    p.setRes t { p.alloc.raw.timer t with info := some info }

/-- `ResEvent.step` on arrays. -/
def step (p : Param τ) : ResEvent τ → Option (Param τ)
  | .write t info => p.writeTimer t info
  | .maintain locked t => p.maintainTimer locked t
  | .tasks peeks => drain head heap fuel peeks p
  | .schedule turns now tick count =>
    (scheduleTimerAndTicker head heap fuel turns now tick count p.alloc).map fun alloc =>
      { p with alloc }

end Param

end Code

/-! ## Unused memory -/

/-- Apart from `fresh`, what is not in use stays so. -/
def Keeps (fresh : Addr) {τ : Type} (mem mem' : Memory Addr τ) : Prop :=
  ∀ x, x ≠ fresh → mem x = none → mem' x = none

section Keeps

variable {τ : Type} {fresh a : Addr} {mem mem' mem'' : Memory Addr τ} {r r' : Raw τ}
  {fuel pos : Nat} {t : τ}

theorem Keeps.refl (fresh : Addr) (mem : Memory Addr τ) : Keeps fresh mem mem := fun _ _ h => h

theorem Keeps.trans (h : Keeps fresh mem mem') (h' : Keeps fresh mem' mem'') :
    Keeps fresh mem mem'' := fun x hx hnone => h' x hx (h x hx hnone)

/-- An array that is in use is written. -/
theorem keeps_update {arr : SlotArray Addr τ} (ha : mem a = some arr) (new : SlotArray Addr τ) :
    Keeps fresh mem (Function.update mem a (some new)) := by
  intro x _ hnone
  have hne : x ≠ a := by
    rintro rfl
    rw [ha] at hnone
    cases hnone
  rw [Function.update_of_ne hne, hnone]

theorem appendTimerToTlist_keeps {val : τ}
    (h : appendTimerToTlist fresh val fuel a mem = some mem') : Keeps fresh mem mem' := by
  induction fuel generalizing a with
  | zero => cases h
  | succ fuel ih =>
    simp only [appendTimerToTlist, Option.bind_eq_bind, Option.bind_eq_some_iff] at h
    obtain ⟨arr, harr, ctl, _, h⟩ := h
    split_ifs at h with hroom
    · obtain ⟨new, _, h⟩ := Option.bind_eq_some_iff.mp h
      cases h
      exact keeps_update harr new
    · split at h
      · exact ih h
      · obtain ⟨new, _, h⟩ := Option.bind_eq_some_iff.mp h
        cases h
        intro x hx hnone
        have hne : x ≠ a := by
          rintro rfl
          rw [harr] at hnone
          cases hnone
        rw [Function.update_of_ne hne, Function.update_of_ne hx, hnone]

theorem raw_appendTimerToTlist_keeps (h : r.appendTimerToTlist fuel fresh t a = some r') :
    Keeps fresh r.mem r'.mem := by
  obtain ⟨mem, happend, rfl⟩ := Option.map_eq_some_iff.mp h
  exact appendTimerToTlist_keeps happend

theorem removeSlot_keeps (h : r.removeSlot pos a = some r') : Keeps fresh r.mem r'.mem := by
  simp only [Raw.removeSlot, Option.bind_eq_bind, Option.bind_eq_some_iff] at h
  obtain ⟨arr, harr, new, _, h⟩ := h
  cases h
  exact keeps_update harr new

theorem moveByRemain_keeps {newlist : Addr} {flow : Flow}
    (h : r.moveByRemain fuel fresh newlist a pos t = some (r', flow)) :
    Keeps fresh r.mem r'.mem := by
  unfold Raw.moveByRemain at h
  split_ifs at h
  · cases h
    exact .refl fresh _
  · obtain ⟨r₁, happend, h⟩ := Option.bind_eq_some_iff.mp h
    obtain ⟨r₂, hremove, h⟩ := Option.bind_eq_some_iff.mp h
    cases h
    exact (raw_appendTimerToTlist_keeps happend).trans (removeSlot_keeps hremove)

theorem appendTimerToRes_keeps {head : ListId → Addr}
    (h : r.appendTimerToRes fuel fresh head t = some r') : Keeps fresh r.mem r'.mem := by
  unfold Raw.appendTimerToRes at h
  split at h
  · cases h
    exact .refl fresh _
  · exact raw_appendTimerToTlist_keeps (r := r.touch t) h

theorem removeTimerFromListByWorker_keeps {owned : τ → Bool}
    (h : removeTimerFromListByWorker owned fuel a mem = some mem') : Keeps fresh mem mem' := by
  induction fuel generalizing a mem with
  | zero => cases h
  | succ fuel ih =>
    simp only [removeTimerFromListByWorker, Option.bind_eq_bind, Option.bind_eq_some_iff] at h
    obtain ⟨arr, harr, new, _, ctl, _, h⟩ := h
    split at h
    · exact (keeps_update harr new).trans (ih h)
    · cases h
      exact keeps_update harr new

theorem raw_removeTimerFromListByWorker_keeps {w : Nat}
    (h : r.removeTimerFromListByWorker fuel w a = some r') : Keeps fresh r.mem r'.mem := by
  obtain ⟨mem, hremove, rfl⟩ := Option.map_eq_some_iff.mp h
  exact removeTimerFromListByWorker_keeps hremove

variable [DecidableEq τ]

theorem removeTimerFromList_keeps {val : τ}
    (h : removeTimerFromList val fuel a mem = some (some mem')) : Keeps fresh mem mem' := by
  induction fuel generalizing a with
  | zero => cases h
  | succ fuel ih =>
    simp only [removeTimerFromList, Option.bind_eq_bind, Option.bind_eq_some_iff] at h
    obtain ⟨arr, harr, found, _, h⟩ := h
    cases found with
    | some new =>
      cases h
      exact keeps_update harr new
    | none =>
      obtain ⟨ctl, _, h⟩ := Option.bind_eq_some_iff.mp h
      split at h
      · exact ih h
      · cases h

theorem raw_removeTimerFromList_keeps (h : r.removeTimerFromList fuel t a = some (some r')) :
    Keeps fresh r.mem r'.mem := by
  unfold Raw.removeTimerFromList at h
  obtain ⟨found, hremove, h⟩ := Option.bind_eq_some_iff.mp h
  cases found with
  | none => cases h
  | some mem =>
    cases h
    exact removeTimerFromList_keeps hremove

theorem deleteTimerByPos_keeps (h : r.deleteTimerByPos pos t a = some r') :
    Keeps fresh r.mem r'.mem :=
  removeSlot_keeps (r := r.setRes t { r.timer t with active := .notUse }) h

/-- A visit that ends with a deletion by position. -/
theorem deleteVisit_keeps {r₁ : Raw τ} {flow : Flow}
    (h : (r₁.deleteTimerByPos pos t a).map (fun r => (r, Flow.again)) = some (r', flow))
    (hmem : r₁.mem = r.mem) : Keeps fresh r.mem r'.mem := by
  obtain ⟨r₂, hdelete, h⟩ := Option.map_eq_some_iff.mp h
  cases h
  exact hmem ▸ deleteTimerByPos_keeps hdelete

theorem timerVisit_keeps {head : ListId → Addr} {now : Int} {flow : Flow}
    (h : r.timerVisit head fuel fresh now a pos t = some (r', flow)) :
    Keeps fresh r.mem r'.mem := by
  unfold Raw.timerVisit at h
  split at h
  · cases h
    exact .refl fresh _
  · next info hinfo =>
    split_ifs at h
    · exact deleteVisit_keeps h rfl
    · exact deleteVisit_keeps h rfl
    · exact moveByRemain_keeps (r := (r.touch t).trigger now t info) h
    · exact moveByRemain_keeps (r := r.touch t) h

theorem dueVisit_keeps {head : ListId → Addr} {now : Int} {flow : Flow}
    (h : r.dueVisit head fuel fresh now a pos t = some (r', flow)) : Keeps fresh r.mem r'.mem := by
  unfold Raw.dueVisit at h
  split at h
  · exact deleteVisit_keeps h rfl
  · split at h
    · cases h
      exact .refl fresh _
    · next info hinfo =>
      split_ifs at h with hdue hmore
      · simp only [Option.bind_eq_bind, Option.bind_eq_some_iff] at h
        obtain ⟨r₁, happend, r₂, hdelete, h⟩ := h
        cases h
        exact (appendTimerToRes_keeps (r := (r.touch t).dueTrigger now t info) happend).trans
          (deleteTimerByPos_keeps hdelete)
      · simp only [Option.bind_eq_bind, Option.bind_eq_some_iff] at h
        obtain ⟨r₁, hsame, r₂, hdelete, h⟩ := h
        cases hsame
        cases h
        exact deleteTimerByPos_keeps (r := (r.touch t).dueTrigger now t info) hdelete
      · cases h
        exact .refl fresh _

theorem visit_keeps {head : ListId → Addr} {now : Int} {flow : Flow} (schedule : Schedule)
    (h : schedule.visit head fresh now fuel a pos t r = some (r', flow)) :
    Keeps fresh r.mem r'.mem := by
  cases schedule with
  | timerList => exact timerVisit_keeps h
  | dueList => exact dueVisit_keeps h

omit [DecidableEq τ] in
theorem nextArray_eq {place : Option (Addr × Nat)} (h : r.nextArray a = some (place, r')) :
    r' = r := by
  simp only [Raw.nextArray, Option.bind_eq_bind, Option.bind_eq_some_iff] at h
  obtain ⟨arr, _, ctl, _, h⟩ := h
  cases h
  rfl

omit [DecidableEq τ] in
theorem goOn_eq {place : Option (Addr × Nat)} {flow : Flow}
    (h : r.goOn a pos flow = some (place, r')) : r' = r := by
  cases flow with
  | next =>
    cases h
    rfl
  | again =>
    cases h
    rfl
  | stop => exact nextArray_eq h
  | fault =>
    cases h
    rfl

theorem turn_keeps {head : ListId → Addr} {now : Int} {place : Option (Addr × Nat)}
    (schedule : Schedule)
    (h : r.turn (schedule.visit head fresh now fuel) a pos = some (place, r')) :
    Keeps fresh r.mem r'.mem := by
  simp only [Raw.turn, Option.bind_eq_bind, Option.bind_eq_some_iff] at h
  obtain ⟨arr, _, ctl, _, h⟩ := h
  split_ifs at h
  · obtain ⟨slot, _, h⟩ := Option.bind_eq_some_iff.mp h
    cases slot with
    | none => exact nextArray_eq h ▸ .refl fresh _
    | some res =>
      obtain ⟨⟨r₁, flow⟩, hvisit, h⟩ := Option.bind_eq_some_iff.mp h
      rw [goOn_eq h]
      exact visit_keeps schedule hvisit
  · exact nextArray_eq h ▸ .refl fresh _

end Keeps

/-! ## The lists that the arrays represent -/

section Represents

variable {τ : Type} [DecidableEq τ] (head : ListId → Addr) (heap : Nat → Addr)

/-- The rest of the heap is not in use. -/
def Free (used : Nat) (mem : Memory Addr τ) : Prop := ∀ i, used ≤ i → mem (heap i) = none

/-- The arrays represent the lists of `s`, and the rest of the two states is the same. -/
def Represents (d : Alloc τ) (s : Sched τ) : Prop :=
  ∃ as list, Placed head as d.raw.mem list ∧ Free heap d.used d.raw.mem ∧ s = d.raw.toSched list

/-- A walk over the list `l` is at the place of the cursor. -/
def AtPlace (l : ListId) (x : Option (Addr × Nat) × Alloc τ) (y : Cursor × Sched τ) : Prop :=
  ∃ as list, Placed head as x.2.raw.mem list ∧ Free heap x.2.used x.2.raw.mem ∧
    y.2 = x.2.raw.toSched list ∧ x.1 = (as l)[y.1.arr]?.map fun a => (a, y.1.pos + 1)

variable {head heap}

omit [DecidableEq τ] in
theorem Free.next {used : Nat} {mem mem' : Memory Addr τ} (hheap : Function.Injective heap)
    (h : Free heap used mem) (hkeeps : Keeps (heap used) mem mem') : Free heap (used + 1) mem' := by
  intro i hi
  refine hkeeps _ (fun heq => ?_) (h i ((Nat.le_succ used).trans hi))
  exact absurd (hheap heq) (Nat.ne_of_gt hi)

omit [DecidableEq τ] in
/-- What succeeds with enough fuel for the arrays has an outcome. -/
theorem settles_of_enough {σ : Type} (as : ListId → List Addr) {prog : Nat → Option σ} {y : σ}
    (h : ∀ fuel, Enough as fuel → prog fuel = some y) : Refine.Settles prog (some y) := by
  obtain ⟨n, hn⟩ := exists_enough as
  exact ⟨n, fun fuel hfuel => h fuel (hn fuel hfuel)⟩

/-- A turn on arrays does what a step of the walk over the lists does. -/
theorem turn_refines (hheap : Function.Injective heap) (schedule : Schedule) (now : Int)
    {l : ListId} {x : Option (Addr × Nat) × Alloc τ} {y : Cursor × Sched τ}
    (h : AtPlace head heap l x y) (hplace : x.1.isNone = false) :
    ∃ x' y', Refine.Settles (fun fuel => schedule.turn head heap fuel now x) (some x') ∧
      Sched.walkStep (schedule.onLists now l) l y = some y' ∧ AtPlace head heap l x' y' := by
  obtain ⟨as, list, hplaced, hfree, hsched, hx⟩ := h
  obtain ⟨place, d⟩ := x
  obtain ⟨c, s⟩ := y
  dsimp only at hsched hx hplaced hfree hplace
  subst hsched
  cases ha : (as l)[c.arr]? with
  | none =>
    rw [hx, ha] at hplace
    cases hplace
  | some a =>
    have hfresh : d.raw.mem (heap d.used) = none := hfree d.used le_rfl
    obtain ⟨c', r', list', as', hturn, hstep, hplaced', hgrown⟩ := turn_sim (c := c)
      (fun fuel => schedule.visit head (heap d.used) now fuel) (schedule.onLists now l) hplaced ha
      fun t ht => visit_sim hplaced hfresh ha ht schedule
    -- The turn takes no other address of the heap, so the later ones stay free.
    have hkeeps : Keeps (heap d.used) d.raw.mem r'.mem := by
      obtain ⟨n, hn⟩ := exists_enough as
      exact turn_keeps schedule (hturn n (hn n le_rfl))
    refine ⟨((as' l)[c'.arr]?.map fun a => (a, c'.pos + 1), ⟨r', d.used + 1⟩), _,
      settles_of_enough as fun fuel hfuel => ?_, hstep, as', list', hplaced',
      hfree.next hheap hkeeps, rfl, rfl⟩
    have hturn := hturn fuel hfuel
    rw [hx, ha]
    simp only [Schedule.turn, Option.map_some, Option.bind_eq_bind, Option.bind_some, hturn]

/-- A walk that is over is behind the last array. -/
theorem walkStep_of_none {schedule : Schedule} {now : Int} {l : ListId}
    {x : Option (Addr × Nat) × Alloc τ} {y : Cursor × Sched τ} (h : AtPlace head heap l x y)
    (hplace : x.1.isNone = true) : Sched.walkStep (schedule.onLists now l) l y = none := by
  obtain ⟨as, list, hplaced, _, hsched, hx⟩ := h
  obtain ⟨c, s⟩ := y
  rw [Option.isNone_iff_eq_none, hx, Option.map_eq_none_iff, List.getElem?_eq_none_iff,
    (hplaced.chain l).length_eq] at hplace
  refine if_neg ?_
  rw [show s = x.2.raw.toSched list from hsched]
  exact Nat.not_lt_of_le hplace

omit [DecidableEq τ] in
theorem AtPlace.represents {l : ListId} {x : Option (Addr × Nat) × Alloc τ}
    {y : Cursor × Sched τ} (h : AtPlace head heap l x y) : Represents head heap x.2 y.2 := by
  obtain ⟨as, list, hplaced, hfree, hsched, _⟩ := h
  exact ⟨as, list, hplaced, hfree, hsched⟩

/-- A walk on arrays refines the walk over the lists. -/
theorem walk_refines (hheap : Function.Injective heap) (schedule : Schedule) (turns : Nat)
    (now : Int) (l : ListId) :
    Refine.Refines (Represents head heap) (Represents head heap)
      (fun fuel => schedule.walk (τ := τ) head heap fuel turns now l)
      (Sched.walk (schedule.onLists now l) l turns) := by
  intro d s hds
  have hloop : Refine.Refines (AtPlace head heap l) (AtPlace head heap l)
      (fun fuel => Refine.loop (fun x => x.1.isNone) (schedule.turn (τ := τ) head heap fuel now)
        turns) (Loop.run (Sched.walkStep (schedule.onLists now l) l) turns) := by
    refine Refine.Refines.loop (fun x y h hplace => ?_) (fun x y h hplace => ?_) turns
    · exact walkStep_of_none h hplace
    · exact turn_refines hheap schedule now h hplace
  obtain ⟨as, list, hplaced, hfree, hsched⟩ := hds
  have hstart : AtPlace head heap l (some (head l, 1), d) (⟨0, 0⟩, s) := by
    refine ⟨as, list, hplaced, hfree, hsched, ?_⟩
    rw [← List.head?_eq_getElem?, hplaced.head_eq l]
    rfl
  exact (hloop _ _ hstart).map fun _ _ => AtPlace.represents

/-! ## A tick -/

section Tick

variable (hheap : Function.Injective heap) (turns : Nat)

include hheap

theorem timerListEvery_refines (n : Nat) (now : Int) (count : Nat) (l : ListId) :
    Refine.Refines (Represents head heap) (Represents head heap)
      (fun fuel => timerListEvery (τ := τ) head heap fuel n turns now count l)
      (Sched.timerListEvery n turns now count l) :=
  .ite (count % n = 0) (walk_refines hheap .timerList turns now l) Refine.refines_some

theorem scheduleFamily_refines (f : Family) (now : Int) (count : Nat) :
    Refine.Refines (Represents head heap) (Represents head heap)
      (fun fuel => scheduleFamily (τ := τ) head heap fuel turns f now count)
      (Sched.scheduleFamily turns f now count) :=
  (walk_refines hheap .dueList turns now ⟨f, .due⟩).bind <|
    (walk_refines hheap .timerList turns now ⟨f, .work1⟩).bind <|
    (timerListEvery_refines hheap turns 16 now count ⟨f, .work2⟩).bind <|
    (timerListEvery_refines hheap turns 32 now count ⟨f, .work3⟩).bind <|
    timerListEvery_refines hheap turns 128 now count ⟨f, .work4⟩

/-- `schedule_timer_and_ticker` on arrays refines it on lists. -/
theorem scheduleTimerAndTicker_refines (now tick : Int) (count : Nat) :
    Refine.Refines (Represents head heap) (Represents head heap)
      (fun fuel => scheduleTimerAndTicker (τ := τ) head heap fuel turns now tick count)
      (Sched.scheduleTimerAndTicker turns now tick count) :=
  (scheduleFamily_refines hheap turns .timer now count).bind <|
    .ite (0 < tick) (scheduleFamily_refines hheap turns .ticker tick count) Refine.refines_some

end Tick

/-! ## The tasks -/

section Tasks

variable {as : ListId → List Addr} {list : ListId → TList τ} {r : Raw τ}

/-- What a removal makes of the arrays: it links none, and uses no new one. -/
def Removes (head : ListId → Addr) (as : ListId → List Addr) (r : Raw τ)
    (removed : Nat → Option (Raw τ)) (spec : Sched τ) : Prop :=
  ∃ r' list', (∀ fuel, Enough as fuel → removed fuel = some r') ∧ spec = r'.toSched list' ∧
    Placed head as r'.mem list' ∧ ∀ fresh, Keeps fresh r.mem r'.mem

theorem removeTimerFromBands_sim (h : Placed head as r.mem list) (f : Family) (t : τ)
    (bs : List Band) :
    Removes head as r (fun fuel => removeTimerFromBands head fuel f t bs r)
      ((r.toSched list).removeTimerFromBands f t bs) := by
  induction bs with
  | nil => exact ⟨r, list, fun _ _ => rfl, rfl, h, fun fresh => .refl fresh _⟩
  | cons b bs ih =>
    rcases removeTimerFromList_sim h ⟨f, b⟩ t with
      ⟨hremove, hspec⟩ | ⟨r', list', hremove, hspec, hplaced⟩
    · obtain ⟨r', list', hrest, hsched, hplaced, hkeeps⟩ := ih
      refine ⟨r', list', fun fuel hfuel => ?_, ?_, hplaced, hkeeps⟩
      · show (r.removeTimerFromList fuel t (head ⟨f, b⟩)).bind _ = some r'
        rw [hremove fuel hfuel]
        exact hrest fuel hfuel
      · rw [Sched.removeTimerFromBands, hspec]
        exact hsched
    · refine ⟨r', list', fun fuel hfuel => ?_, ?_, hplaced, fun fresh => ?_⟩
      · show (r.removeTimerFromList fuel t (head ⟨f, b⟩)).bind _ = some r'
        rw [hremove fuel hfuel]
        rfl
      · rw [Sched.removeTimerFromBands, hspec]
      · obtain ⟨n, hn⟩ := exists_enough as
        exact raw_removeTimerFromList_keeps (hremove n (hn n le_rfl))

theorem removeTimerFromRes_sim (h : Placed head as r.mem list) (t : τ) :
    Removes head as r (fun fuel => removeTimerFromRes head fuel t r)
      ((r.toSched list).removeTimerFromRes t) := by
  unfold removeTimerFromRes Sched.removeTimerFromRes
  rw [Raw.toSched_timer]
  cases (r.timer t).info with
  | none => exact ⟨r.touch t, list, fun _ _ => rfl, rfl, h, fun fresh => .refl fresh _⟩
  | some info => exact removeTimerFromBands_sim (r := r.touch t) h info.family t _

omit [DecidableEq τ] in
theorem removeTimerByWorker_sim (h : Placed head as r.mem list) (w : Nat) :
    Removes head as r (fun fuel => removeTimerByWorker head fuel w r)
      ((r.toSched list).removeTimerByWorker w) := by
  unfold removeTimerByWorker Sched.removeTimerByWorker
  induction ListId.all generalizing r list with
  | nil => exact ⟨r, list, fun _ _ => rfl, rfl, h, fun fresh => .refl fresh _⟩
  | cons l ls ih =>
    obtain ⟨r₁, list₁, hremove, hspec, hplaced⟩ := removeTimerFromListByWorker_sim h l w
    obtain ⟨r', list', hrest, hsched, hplaced', hkeeps⟩ := ih hplaced
    refine ⟨r', list', fun fuel hfuel => ?_, ?_, hplaced', fun fresh => ?_⟩
    · show (r.removeTimerFromListByWorker fuel w (head l)).bind _ = some r'
      rw [hremove fuel hfuel]
      exact hrest fuel hfuel
    · rw [List.foldl_cons, hspec, hsched]
    · obtain ⟨n, hn⟩ := exists_enough as
      exact (raw_removeTimerFromListByWorker_keeps (hremove n (hn n le_rfl))).trans (hkeeps fresh)

omit [DecidableEq τ] in
theorem Removes.follows {removed : Nat → Option (Raw τ)} {spec : Sched τ} {used : Nat}
    (h : Removes head as r removed spec) (hfree : Free heap used r.mem) :
    Refine.Follows (Represents head heap) (fun fuel => (removed fuel).map fun raw => ⟨raw, used⟩)
      (some spec) := by
  obtain ⟨r', list', hremoved, rfl, hplaced, hkeeps⟩ := h
  refine Refine.Settles.follows (x := ⟨r', used⟩)
    (settles_of_enough as fun fuel hfuel => ?_) ⟨as, list', hplaced, fun i hi => ?_, rfl⟩
  · rw [hremoved fuel hfuel, Option.map_some]
  · exact hkeeps (heap i + 1) _ (Nat.succ_ne_self _).symm (hfree i hi)

/-- A task on arrays refines the task on lists. It does not fail. -/
theorem taskProc_refines (hheap : Function.Injective heap) (task : ResTask τ) :
    Refine.Refines (Represents head heap) (Represents head heap)
      (fun fuel => taskProc head heap fuel task) (fun s => some (Sched.taskProc task s)) := by
  rintro d s ⟨as, list, hplaced, hfree, rfl⟩
  cases task with
  | addTimer t =>
    obtain ⟨r', list', as', happend, hsched, hplaced', _⟩ :=
      appendTimerToRes_sim hplaced (hfree d.used le_rfl) t
    have hkeeps : Keeps (heap d.used) d.raw.mem r'.mem := by
      obtain ⟨n, hn⟩ := exists_enough as
      exact appendTimerToRes_keeps (happend n (hn n le_rfl))
    have hpair : Represents head heap ⟨r', d.used + 1⟩ ((d.raw.toSched list).appendTimerToRes t) :=
      ⟨as', list', hplaced', hfree.next hheap hkeeps, hsched⟩
    refine Refine.Settles.follows (settles_of_enough as fun fuel hfuel => ?_) hpair
    show (d.raw.appendTimerToRes fuel (heap d.used) head t).map _ = _
    rw [happend fuel hfuel, Option.map_some]
  | delTimer t => exact (removeTimerFromRes_sim hplaced t).follows hfree
  | addWorker w => exact Refine.follows_some ⟨as, list, hplaced, hfree, rfl⟩
  | delWorker w => exact (removeTimerByWorker_sim hplaced w).follows hfree

end Tasks

/-! ## Runs -/

/-- The daemon on arrays, and the daemon on lists. -/
def Param.Represents (head : ListId → Addr) (heap : Nat → Addr) (p : Param τ) (q : ResParam τ) :
    Prop :=
  Arrays.Represents head heap p.alloc q.sched ∧ p.queue = q.queue

omit [DecidableEq τ] in
theorem Represents.timer_eq {d : Alloc τ} {s : Sched τ} (h : Represents head heap d s) :
    s.timer = d.raw.timer := by
  obtain ⟨as, list, _, _, rfl⟩ := h
  rfl

/-- The record of a timer is written. -/
theorem Represents.setRes {d : Alloc τ} {s : Sched τ} (h : Represents head heap d s) (t : τ)
    (r : TimerRes) : Represents head heap { d with raw := d.raw.setRes t r } (s.setRes t r) := by
  obtain ⟨as, list, hplaced, hfree, rfl⟩ := h
  exact ⟨as, list, hplaced, hfree, rfl⟩

/-- The task queue is emptied. -/
theorem drain_refines (hheap : Function.Injective heap) (peeks : Nat) :
    Refine.Refines (Param.Represents head heap) (Param.Represents head heap)
      (fun fuel => drain (τ := τ) head heap fuel peeks)
      (fun q => some (q.resourceTaskProc peeks)) := by
  induction peeks with
  | zero => exact Refine.refines_some
  | succ peeks ih =>
    rintro ⟨d, queue⟩ ⟨s, queue'⟩ ⟨hds, hqueue⟩
    obtain rfl : queue = queue' := hqueue
    have hpq : Param.Represents head heap ⟨d, queue⟩ ⟨s, queue⟩ := ⟨hds, rfl⟩
    show Refine.Follows (Param.Represents head heap)
      (fun fuel => drain head heap fuel (peeks + 1) ⟨d, queue⟩)
      (some ⟨(LMiced.drain Sched.taskProc (peeks + 1) queue s).2,
        (LMiced.drain Sched.taskProc (peeks + 1) queue s).1⟩)
    unfold drain LMiced.drain
    cases peekResourceTask queue with
    | none => exact Refine.follows_some hpq
    | some x =>
      obtain ⟨task, queue⟩ := x
      -- The peeks that are left see the queue without the task.
      have hrest : Refine.Refines (Represents head heap) (Param.Represents head heap)
          (fun fuel alloc => drain head heap fuel peeks ⟨alloc, queue⟩)
          (fun s => some (ResParam.resourceTaskProc peeks ⟨s, queue⟩)) :=
        fun alloc s' halloc => ih ⟨alloc, queue⟩ ⟨s', queue⟩ ⟨halloc, rfl⟩
      exact (taskProc_refines hheap task d s hds).bind hrest

theorem writeTimer_refines (t : τ) (info : TimerInfo) :
    Refine.Refines (Param.Represents head heap) (Param.Represents head heap)
      (fun _ => Param.writeTimer t info) (ResParam.writeTimer t info) := by
  rintro ⟨d, queue⟩ ⟨s, _⟩ ⟨hds, rfl⟩
  refine Refine.follows_const ?_
  unfold Param.writeTimer ResParam.writeTimer
  rw [show s.timer = d.raw.timer from hds.timer_eq]
  cases (d.raw.timer t).info with
  | none => exact .none
  | some old => exact .some ⟨hds.setRes t _, rfl⟩

theorem maintainTimer_refines (locked : Bool) (t : τ) :
    Refine.Refines (Param.Represents head heap) (Param.Represents head heap)
      (fun _ => Param.maintainTimer locked t) (ResParam.maintainTimer locked t) := by
  rintro ⟨d, queue⟩ ⟨s, _⟩ ⟨hds, rfl⟩
  refine Refine.follows_const ?_
  have htimer : s.timer = d.raw.timer := hds.timer_eq
  unfold Param.maintainTimer ResParam.maintainTimer
  rw [htimer]
  cases (d.raw.timer t).info with
  | none => exact .none
  | some info =>
    refine .some ?_
    dsimp only
    split_ifs
    · exact ⟨hds, rfl⟩
    · refine ⟨?_, rfl⟩
      rw [ResParam.closeTimerResource, htimer]
      exact hds.setRes t _
    · refine ⟨?_, rfl⟩
      rw [ResParam.openTimerResource, htimer]
      exact hds.setRes t _
    · exact ⟨hds, rfl⟩

/-- An event on arrays refines the event on lists. -/
theorem step_refines (hheap : Function.Injective heap) (e : ResEvent τ) :
    Refine.Refines (Param.Represents head heap) (Param.Represents head heap)
      (fun fuel p => p.step head heap fuel e) e.step := by
  cases e with
  | write t info => exact writeTimer_refines t info
  | maintain locked t => exact maintainTimer_refines locked t
  | tasks peeks => exact drain_refines hheap peeks
  | schedule turns now tick count =>
    exact fun p q hpq =>
      (scheduleTimerAndTicker_refines hheap turns now tick count p.alloc q.sched hpq.1).map
        fun _ _ halloc => ⟨halloc, hpq.2⟩

end Represents

section Start

variable {τ : Type} {head : ListId → Addr} {mem mem' : Memory Addr τ}

theorem initServerResource_keeps (fresh : Addr) (h : initServerResource head mem = some mem') :
    Keeps fresh mem mem' := by
  unfold initServerResource at h
  generalize initOrder = ls at h
  induction ls generalizing mem with
  | nil =>
    cases h
    exact .refl fresh _
  | cons l ls ih =>
    rw [List.foldlM_cons] at h
    obtain ⟨mem₁, hinit, h⟩ := Option.bind_eq_some_iff.mp h
    obtain ⟨arr, harr, hinit⟩ := Option.bind_eq_some_iff.mp hinit
    cases hinit
    exact (keeps_update harr _).trans (ih h)

/-- Ten head arrays that are all zero are initialised, and then the daemon runs. On the arrays
every event does, with enough fuel, what it does on the lists: it fails or ends with the arrays
that represent the lists, the same records and the same queue. -/
theorem onArrays_refines [DecidableEq τ] {heap : Nat → Addr} (hhead : Function.Injective head)
    (hheap : Function.Injective heap) (raw : Raw τ)
    (hzero : ∀ l, raw.mem (head l) = some .zeroed) (hfree : ∀ i, raw.mem (heap i) = none) :
    ∃ mem, initServerResource head raw.mem = some mem ∧
      ∀ es : List (ResEvent τ), Refine.Follows (Param.Represents head heap)
        (fun fuel => es.foldlM (fun p e => Param.step head heap fuel p e)
          ⟨⟨{ raw with mem }, 0⟩, BArray.empty⟩)
        (es.foldlM (fun q e => e.step q)
          ⟨raw.toSched fun _ => LMiced.initTmlistResource, BArray.empty⟩) := by
  obtain ⟨mem, hinit, hplaced⟩ := initServerResource_placed hhead hzero
  refine ⟨mem, hinit, fun es => ?_⟩
  have hrest : Free heap 0 mem := fun i _ =>
    initServerResource_keeps (heap i + 1) hinit _ (Nat.succ_ne_self _).symm (hfree i)
  exact Refine.Refines.foldlM (step_refines hheap) es _ _
    ⟨⟨fun l => [head l], fun _ => LMiced.initTmlistResource, hplaced, hrest, rfl⟩, rfl⟩

/-- Ten head arrays that are all zero, and one timer. -/
def zeroed : Raw Unit where
  timer _ := ⟨.notUse, some ⟨0, 0, 0, 0, 0, ⟨0, 0, ⟨fun _ => 0⟩⟩⟩, [], 0⟩
  mem a := if a < 10 then some .zeroed else none
  action _ := ⟨fun _ => 0⟩
  touched := []
  awakened := []

/-- The timer is created with a period of 8 ms and opened, and the daemon ticks twice. -/
def createAndTick : List (ResEvent Unit) :=
  [.write () ⟨timerType, 0, 80000, 0, 1, ⟨0, 0, ⟨fun _ => 0⟩⟩⟩, .maintain false (), .tasks 2,
    .schedule 40 90000 0 1, .tasks 2, .schedule 40 100000 0 2]

theorem onArrays_refines_createAndTick :
    let head (l : ListId) : Addr := ListId.all.idxOf l
    ∃ mem, initServerResource head zeroed.mem = some mem ∧
      ∃ p, Refine.Settles (fun fuel => createAndTick.foldlM
        (fun p e => Param.step head (fun i => 10 + i) fuel p e)
          ⟨⟨{ zeroed with mem }, 0⟩, BArray.empty⟩) (some p) := by
  intro head
  have hhead : Function.Injective head := fun l _ h =>
    (List.idxOf_inj (ListId.mem_all l)).mp h
  obtain ⟨mem, hinit, hrun⟩ := onArrays_refines hhead (add_right_injective 10) zeroed
    (fun l => if_pos (List.idxOf_lt_length_of_mem (ListId.mem_all l)))
    (fun i => if_neg (Nat.not_lt_of_le (Nat.le_add_right 10 i)))
  refine ⟨mem, hinit, (hrun createAndTick).returns_iff.mpr ?_⟩
  decide +kernel

end Start

end LMiced.Arrays
