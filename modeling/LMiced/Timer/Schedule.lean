import LMiced.Lib.Loop
import LMiced.Timer.Lists

/-!
# Scheduling the timer lists

The functions of `timer/timer_system_time.c` that walk the timer lists once per
tick: `timer_list_schedule` for a work list, `due_list_schedule` for a due list,
and `schedule_timer_and_ticker`, which calls them in a fixed order.

Both walks are loops over the places of an array inside a loop over the arrays
of a chain. The body may delete the timer it looks at or move it to another
list, and then looks at the same place again. `walkStep` is one turn of these
loops, with what the body does as a parameter. The loops need not end, so the
functions take fuel.

`timerVerdict` says what a work list visit makes of a timer record, and the
`timerVisit` and `dueVisit` lemmas at the end say what one visit does to the
records and to the lists. Everything later is derived from these.
-/

namespace LMiced

/-! ## What a trigger does -/

/-- The counter and start time that a trigger writes, and the state byte that
`ACTIVE_TIMER_STATE` sets. -/
def TimerInfo.fire (now : Int) (info : TimerInfo) : TimerInfo :=
  { info with
    timer :=
      { count := info.timer.count + 1
        begin := now
        state := info.timer.state.activate timerStatePos } }

/-- The time until the next trigger in `timer_list_schedule`. -/
def TimerInfo.remaining (now : Int) (info : TimerInfo) : Int :=
  if info.timer.begin ≤ 0 then 0 else info.timer.begin + info.period - now

/-- Step 4 of `timer_list_schedule`: the timer is removed after this trigger. -/
def TimerInfo.finished (info : TimerInfo) : Prop :=
  info.size = 0 ∨ (info.size.toNat ≤ info.timer.count.toNat ∧ 0 < info.size)

instance (info : TimerInfo) : Decidable info.finished := by
  unfold TimerInfo.finished
  infer_instance

/-- The counter does not overflow below a 32-bit size. -/
theorem toNat_count_add_one {n : UInt64} {size : UInt32} (h : n.toNat < size.toNat) :
    (n + 1).toNat = n.toNat + 1 := by
  have hsize : size.toNat < 2 ^ 32 := size.toNat_lt
  rw [UInt64.toNat_add, UInt64.toNat_one, Nat.mod_eq_of_lt (by omega)]

theorem TimerInfo.not_finished_iff {info : TimerInfo} :
    ¬ info.finished ↔ info.timer.count.toNat < info.size.toNat := by
  have hpos : ¬ info.size = 0 ↔ 0 < info.size := UInt32.pos_iff_ne_zero.symm
  have hsize : 0 < info.size ↔ 0 < info.size.toNat := UInt32.lt_iff_toNat_lt
  unfold finished
  rw [not_or, hpos, hsize]
  omega

/-- Step 4 of `due_list_schedule`: the timer is handed over after this trigger. -/
def TimerInfo.continues (info : TimerInfo) : Prop :=
  info.timer.count.toNat < info.size.toNat ∨ info.size = 0

instance (info : TimerInfo) : Decidable info.continues := by
  unfold TimerInfo.continues
  infer_instance

/-- Step 1 of `timer_list_schedule`: mark the timer in the actions that refer to it. -/
def activeReferencedActions : List RefAct → (Nat → LmState) → Nat → LmState
  | [], action => action
  | ⟨_, none⟩ :: _, action => action
  | ⟨pos, some a⟩ :: acts, action =>
    activeReferencedActions acts (Function.update action a ((action a).activate pos))

/-- Step 2 of `due_list_schedule`: as in a work list, and the worker is woken once
more for every action that is complete. -/
def dueReferencedActions (worker : Nat) :
    List RefAct → (Nat → LmState) → List Nat → (Nat → LmState) × List Nat
  | [], action, awakened => (action, awakened)
  | ⟨_, none⟩ :: _, action, awakened => (action, awakened)
  | ⟨pos, some a⟩ :: acts, action, awakened =>
    dueReferencedActions worker acts (Function.update action a ((action a).activate pos))
      (if ((action a).activate pos).complete then worker :: awakened else awakened)

/-! ## Walks -/

/-- A place in a chain: array `arr`, place `pos`, both from 0. -/
structure Cursor where
  arr : Nat
  pos : Nat
deriving DecidableEq, Repr

/-- How the body of a walk goes on: to the next place, to the same place again
(`--pos; continue`), to the next array (`break`), or not at all, because it has
dereferenced a null pointer. -/
inductive Flow
  | next
  | again
  | stop
  | fault
deriving DecidableEq, Repr

/-- The place the walk looks at next. A walk never gets past a fault, so a call that
faults does not return. -/
def Flow.advance (c : Cursor) : Flow → Cursor
  | .next => ⟨c.arr, c.pos + 1⟩
  | .again => c
  | .stop => ⟨c.arr + 1, 0⟩
  | .fault => c

namespace Sched

variable {τ : Type} [DecidableEq τ]

/-- One turn of the nested loops over the list `l`. The used places of an array
hold no null pointer, so `res == NULL` never ends the inner loop. -/
def walkStep (visit : Cursor → τ → Sched τ → Sched τ × Flow) (l : ListId) :
    Cursor × Sched τ → Option (Cursor × Sched τ)
  | (c, s) =>
    if c.arr < (s.list l).length then
      match (s.list l).entryAt c.arr c.pos with
      | none => some (⟨c.arr + 1, 0⟩, s)
      | some t => some ((visit c t s).2.advance c, (visit c t s).1)
    else none

/-- The whole walk, with fuel. -/
def walk (visit : Cursor → τ → Sched τ → Sched τ × Flow) (l : ListId) (fuel : Nat)
    (s : Sched τ) : Option (Sched τ) :=
  (Loop.run (walkStep visit l) fuel (⟨0, 0⟩, s)).map Prod.snd

/-- `delete_timer_by_pos`. -/
def deleteTimerByPos (s : Sched τ) (l : ListId) (c : Cursor) (t : τ) : Sched τ :=
  (s.setRes t { s.timer t with active := .notUse }).removeAt l c.arr c.pos

/-- Steps 1 to 3 of `timer_list_schedule`. -/
def trigger (s : Sched τ) (now : Int) (t : τ) (info : TimerInfo) : Sched τ :=
  { s with
    timer := Function.update s.timer t { s.timer t with info := some (info.fire now) }
    action := activeReferencedActions (s.timer t).alist s.action
    awakened := (s.timer t).worker :: s.awakened }

/-- Steps 1 to 3 of `due_list_schedule`. -/
def dueTrigger (s : Sched τ) (now : Int) (t : τ) (info : TimerInfo) : Sched τ :=
  let r := s.timer t
  let acts := dueReferencedActions r.worker r.alist s.action (r.worker :: s.awakened)
  { s with
    timer := Function.update s.timer t { r with info := some (info.fire now) }
    action := acts.1
    awakened := acts.2 }

/-- The end of the body of `timer_list_schedule`: move the timer to the list of its
remaining time. `newlist` is the head array of that list, so only a timer that
is looked at in the head array can stay where it is. -/
def moveByRemain (s : Sched τ) (newlist l : ListId) (c : Cursor) (t : τ) : Sched τ × Flow :=
  if newlist = l ∧ c.arr = 0 then (s, .next)
  else ((s.appendTimerToTlist newlist t).removeAt l c.arr c.pos, .again)

/-- The body of `timer_list_schedule`. The trace output of the first branch reads
`res->info->size`, so that branch dereferences the info pointer too, and faults when it
is null. -/
def timerVisit (now : Int) (l : ListId) (c : Cursor) (t : τ) (s : Sched τ) : Sched τ × Flow :=
  match (s.timer t).info with
  | none => (s.touch t, .fault)
  | some info =>
    if (s.timer t).active ≠ .running then ((s.touch t).deleteTimerByPos l c t, .again)
    else if info.remaining now ≤ 0 then
      if (info.fire now).finished then
        (((s.touch t).trigger now t info).deleteTimerByPos l c t, .again)
      else ((s.touch t).trigger now t info).moveByRemain (getTlistByRemain info.period info) l c t
    else (s.touch t).moveByRemain (getTlistByRemain (info.remaining now) info) l c t

/-- The body of `due_list_schedule`. -/
def dueVisit (now : Int) (l : ListId) (c : Cursor) (t : τ) (s : Sched τ) : Sched τ × Flow :=
  if (s.timer t).active ≠ .running then (s.deleteTimerByPos l c t, .again)
  else
    match (s.timer t).info with
    | none => (s, .stop)
    | some info =>
      if info.due - now ≤ 0 then
        let s' := (s.touch t).dueTrigger now t info
        let s'' := if (info.fire now).continues then s'.appendTimerToRes t else s'
        (s''.deleteTimerByPos l c t, .again)
      else (s.touch t, .next)

/-- `timer_list_schedule`. -/
def timerListSchedule (fuel : Nat) (now : Int) (l : ListId) (s : Sched τ) : Option (Sched τ) :=
  walk (timerVisit now l) l fuel s

/-- `due_list_schedule`. -/
def dueListSchedule (fuel : Nat) (now : Int) (l : ListId) (s : Sched τ) : Option (Sched τ) :=
  walk (dueVisit now l) l fuel s

/-- `timer_list_schedule` on every `n`th tick. The code masks the low bits of the
tick counter, which for a power of two is the remainder. -/
def timerListEvery (n : Nat) (fuel : Nat) (now : Int) (count : Nat) (l : ListId) (s : Sched τ) :
    Option (Sched τ) :=
  if count % n = 0 then timerListSchedule fuel now l s else some s

/-- One half of `schedule_timer_and_ticker`: the due list and work list 1 on every
tick, work lists 2, 3 and 4 on every 16th, 32nd and 128th. -/
def scheduleFamily (fuel : Nat) (f : Family) (now : Int) (count : Nat) (s : Sched τ) :
    Option (Sched τ) := do
  let s ← dueListSchedule fuel now ⟨f, .due⟩ s
  let s ← timerListSchedule fuel now ⟨f, .work1⟩ s
  let s ← timerListEvery 16 fuel now count ⟨f, .work2⟩ s
  let s ← timerListEvery 32 fuel now count ⟨f, .work3⟩ s
  timerListEvery 128 fuel now count ⟨f, .work4⟩ s

/-- `schedule_timer_and_ticker`. `now`, `tick` and `count` are the system time, the
simulation time and the tick counter of the time parameter. -/
def scheduleTimerAndTicker (fuel : Nat) (now tick : Int) (count : Nat) (s : Sched τ) :
    Option (Sched τ) := do
  let s ← scheduleFamily fuel .timer now count s
  if 0 < tick then scheduleFamily fuel .ticker tick count s else some s

/-! ## One visit of a work list -/

end Sched

/-- What a visit of a work list does with a timer: it removes the timer, files it in a
list, or faults. -/
inductive TimerDest
  | removed
  | filed (l : ListId)
  | fault
deriving DecidableEq, Repr

/-- What a visit of a work list makes of a timer: the record it leaves, and where the
timer is afterwards. -/
structure Verdict where
  res : TimerRes
  dest : TimerDest

/-- The record part of the body of `timer_list_schedule`. -/
def timerVerdict (now : Int) (r : TimerRes) : Verdict :=
  match r.info with
  | none => ⟨r, .fault⟩
  | some info =>
    if r.active ≠ .running then ⟨{ r with active := .notUse }, .removed⟩
    else if info.remaining now ≤ 0 then
      if (info.fire now).finished then
        ⟨{ r with active := .notUse, info := some (info.fire now) }, .removed⟩
      else ⟨{ r with info := some (info.fire now) }, .filed (getTlistByRemain info.period info)⟩
    else ⟨r, .filed (getTlistByRemain (info.remaining now) info)⟩

/-- A work list visit drops a timer, triggers it for the last time, triggers it
and files it by its period, or files it by its remaining time; or it faults. -/
theorem timerVerdict_cases (now : Int) (r : TimerRes) :
    (r.info ≠ none ∧ r.active ≠ .running ∧
      timerVerdict now r = ⟨{ r with active := .notUse }, .removed⟩) ∨
    (∃ info, r.info = some info ∧ r.active = .running ∧ info.remaining now ≤ 0 ∧
      (info.fire now).finished ∧ timerVerdict now r =
        ⟨{ r with active := .notUse, info := some (info.fire now) }, .removed⟩) ∨
    (∃ info, r.info = some info ∧ r.active = .running ∧ info.remaining now ≤ 0 ∧
      ¬ (info.fire now).finished ∧ timerVerdict now r =
        ⟨{ r with info := some (info.fire now) }, .filed (getTlistByRemain info.period info)⟩) ∨
    (∃ info, r.info = some info ∧ r.active = .running ∧ 0 < info.remaining now ∧
      timerVerdict now r = ⟨r, .filed (getTlistByRemain (info.remaining now) info)⟩) ∨
    (r.info = none ∧ timerVerdict now r = ⟨r, .fault⟩) := by
  unfold timerVerdict
  cases hinfo : r.info with
  | none => exact Or.inr (Or.inr (Or.inr (Or.inr ⟨rfl, rfl⟩)))
  | some info =>
    dsimp only
    by_cases hrun : r.active = .running
    · rw [if_neg (not_not.mpr hrun)]
      by_cases hrem : info.remaining now ≤ 0
      · rw [if_pos hrem]
        by_cases hfin : (info.fire now).finished
        · exact Or.inr (Or.inl ⟨info, rfl, hrun, hrem, hfin, if_pos hfin⟩)
        · exact Or.inr (Or.inr (Or.inl ⟨info, rfl, hrun, hrem, hfin, if_neg hfin⟩))
      · exact Or.inr (Or.inr (Or.inr (Or.inl ⟨info, rfl, hrun, by omega, if_neg hrem⟩)))
    · exact Or.inl ⟨nofun, hrun, if_pos hrun⟩

/-- A removed timer is not in use afterwards, and a filed one is running. -/
theorem timerVerdict_active {now : Int} {r : TimerRes} :
    ((timerVerdict now r).dest = .removed → (timerVerdict now r).res.active = .notUse) ∧
      (∀ l, (timerVerdict now r).dest = .filed l →
        (timerVerdict now r).res.active = .running) := by
  rcases timerVerdict_cases now r with
    ⟨_, _, hv⟩ | ⟨_, _, _, _, _, hv⟩ | ⟨_, _, hrun, _, _, hv⟩ | ⟨_, _, hrun, _, hv⟩ | ⟨_, hv⟩
  · simp [hv]
  · simp [hv]
  · simp [hv, hrun]
  · simp [hv, hrun]
  · simp [hv]

theorem timerVerdict_worker (now : Int) (r : TimerRes) :
    (timerVerdict now r).res.worker = r.worker := by
  rcases timerVerdict_cases now r with
    ⟨_, _, h⟩ | ⟨_, _, _, _, _, h⟩ | ⟨_, _, _, _, _, h⟩ | ⟨_, _, _, _, h⟩ | ⟨_, h⟩ <;> rw [h]

theorem timerVerdict_info_ne_none {now : Int} {r : TimerRes} (h : r.info ≠ none) :
    (timerVerdict now r).res.info ≠ none := by
  rcases timerVerdict_cases now r with
    ⟨_, _, hv⟩ | ⟨_, _, _, _, _, hv⟩ | ⟨_, _, _, _, _, hv⟩ | ⟨_, _, _, _, hv⟩ | ⟨_, hv⟩ <;>
    simp [hv, h]

/-- Only a null info pointer faults. -/
theorem timerVerdict_dest_eq_fault_iff {now : Int} {r : TimerRes} :
    (timerVerdict now r).dest = .fault ↔ r.info = none := by
  rcases timerVerdict_cases now r with
    ⟨hinfo, _, hv⟩ | ⟨_, hinfo, _, _, _, hv⟩ | ⟨_, hinfo, _, _, _, hv⟩ | ⟨_, hinfo, _, _, hv⟩ |
    ⟨hinfo, hv⟩ <;> simp [hv, hinfo]

/-- The info block of a timer is left alone, or fired. -/
theorem timerVerdict_info {now : Int} {r : TimerRes} {info : TimerInfo}
    (h : (timerVerdict now r).res.info = some info) :
    ∃ info', r.info = some info' ∧ (info = info' ∨ info = info'.fire now) := by
  rcases timerVerdict_cases now r with
    ⟨_, _, hv⟩ | ⟨info', hinfo, _, _, _, hv⟩ | ⟨info', hinfo, _, _, _, hv⟩ |
    ⟨_, _, _, _, hv⟩ | ⟨_, hv⟩ <;>
    rw [hv] at h
  · exact ⟨info, h, .inl rfl⟩
  · exact ⟨info', hinfo, .inr (Option.some.inj h).symm⟩
  · exact ⟨info', hinfo, .inr (Option.some.inj h).symm⟩
  · exact ⟨info, h, .inl rfl⟩
  · exact ⟨info, h, .inl rfl⟩

/-- The list a timer is filed in is a work list of its family. -/
theorem timerVerdict_dest {now : Int} {r : TimerRes} {l : ListId}
    (h : (timerVerdict now r).dest = .filed l) :
    ∃ info, r.info = some info ∧ l.family = info.family ∧ l.band ≠ .due := by
  rcases timerVerdict_cases now r with
    ⟨_, _, hv⟩ | ⟨_, _, _, _, _, hv⟩ | ⟨info, hinfo, _, _, _, hv⟩ |
    ⟨info, hinfo, _, _, hv⟩ | ⟨_, hv⟩ <;>
    rw [hv] at h
  · cases h
  · cases h
  · cases h
    exact ⟨info, hinfo, rfl, workBand_ne_due _⟩
  · cases h
    exact ⟨info, hinfo, rfl, workBand_ne_due _⟩
  · cases h

namespace Sched

variable {τ : Type} [DecidableEq τ]

section Frame

variable (s : Sched τ) (now : Int) (l newlist : ListId) (c : Cursor) (t : τ) (info : TimerInfo)

@[simp] theorem deleteTimerByPos_timer : (s.deleteTimerByPos l c t).timer =
    Function.update s.timer t { s.timer t with active := .notUse } := rfl
@[simp] theorem deleteTimerByPos_list : (s.deleteTimerByPos l c t).list =
    Function.update s.list l ((s.list l).removeAt c.arr c.pos) := rfl
@[simp] theorem deleteTimerByPos_touched : (s.deleteTimerByPos l c t).touched = s.touched := rfl
@[simp] theorem trigger_timer : (s.trigger now t info).timer =
    Function.update s.timer t { s.timer t with info := some (info.fire now) } := rfl
@[simp] theorem trigger_list : (s.trigger now t info).list = s.list := rfl
@[simp] theorem trigger_touched : (s.trigger now t info).touched = s.touched := rfl
@[simp] theorem dueTrigger_timer : (s.dueTrigger now t info).timer =
    Function.update s.timer t { s.timer t with info := some (info.fire now) } := rfl
@[simp] theorem dueTrigger_list : (s.dueTrigger now t info).list = s.list := rfl
@[simp] theorem dueTrigger_touched : (s.dueTrigger now t info).touched = s.touched := rfl
omit [DecidableEq τ] in
@[simp] theorem moveByRemain_timer : (s.moveByRemain newlist l c t).1.timer = s.timer := by
  unfold moveByRemain
  split_ifs <;> rfl
omit [DecidableEq τ] in
@[simp] theorem moveByRemain_touched : (s.moveByRemain newlist l c t).1.touched = s.touched := by
  unfold moveByRemain
  split_ifs <;> rfl

end Frame

variable {now : Int} {l : ListId} {c : Cursor} {t : τ} {s : Sched τ}

/-- A work list visit writes the record of the timer it looks at and no other. -/
theorem timerVisit_timer : (timerVisit now l c t s).1.timer =
    Function.update s.timer t (timerVerdict now (s.timer t)).res := by
  unfold timerVisit timerVerdict
  cases hinfo : (s.timer t).info with
  | none => simp
  | some info =>
    dsimp only
    split_ifs <;> simp [hinfo]

theorem timerVisit_touched : (timerVisit now l c t s).1.touched = t :: s.touched := by
  unfold timerVisit
  cases hinfo : (s.timer t).info with
  | none => simp
  | some info =>
    dsimp only
    split_ifs <;> simp

/-- A visit that faults leaves the lists alone. -/
theorem timerVisit_of_fault (h : (timerVerdict now (s.timer t)).dest = .fault) :
    (timerVisit now l c t s).1.list = s.list ∧ (timerVisit now l c t s).2 = .fault := by
  unfold timerVisit
  rw [timerVerdict_dest_eq_fault_iff.mp h]
  exact ⟨rfl, rfl⟩

/-- A removed timer is taken out of the list. -/
theorem timerVisit_of_removed (h : (timerVerdict now (s.timer t)).dest = .removed) :
    (timerVisit now l c t s).1.list = (s.removeAt l c.arr c.pos).list ∧
      (timerVisit now l c t s).2 = .again := by
  unfold timerVerdict at h
  unfold timerVisit
  cases hinfo : (s.timer t).info with
  | none => simp [hinfo] at h
  | some info =>
    rw [hinfo] at h
    dsimp only at h ⊢
    split_ifs at h ⊢ <;> exact ⟨rfl, rfl⟩

/-- A timer that is looked at in the head array of the list it belongs to stays. -/
theorem timerVisit_of_stays (h : (timerVerdict now (s.timer t)).dest = .filed l) (hc : c.arr = 0) :
    (timerVisit now l c t s).1.list = s.list ∧ (timerVisit now l c t s).2 = .next := by
  unfold timerVerdict at h
  unfold timerVisit
  cases hinfo : (s.timer t).info with
  | none => simp [hinfo] at h
  | some info =>
    rw [hinfo] at h
    dsimp only at h ⊢
    split_ifs at h ⊢ <;> simp_all [moveByRemain]

/-- Every other timer is appended to the list it belongs to and taken out of the
place where it was found. -/
theorem timerVisit_of_moves {newlist : ListId}
    (h : (timerVerdict now (s.timer t)).dest = .filed newlist) (hne : ¬ (newlist = l ∧ c.arr = 0)) :
    (timerVisit now l c t s).1.list =
        ((s.appendTimerToTlist newlist t).removeAt l c.arr c.pos).list ∧
      (timerVisit now l c t s).2 = .again := by
  unfold timerVerdict at h
  unfold timerVisit
  cases hinfo : (s.timer t).info with
  | none => simp [hinfo] at h
  | some info =>
    rw [hinfo] at h
    dsimp only at h ⊢
    split_ifs at h ⊢
    · cases h
      rw [moveByRemain, if_neg hne]
      exact ⟨rfl, rfl⟩
    · cases h
      rw [moveByRemain, if_neg hne]
      exact ⟨rfl, rfl⟩

/-- The outcomes of a work list visit, for the lists. -/
theorem timerVisit_cases (now : Int) (l : ListId) (c : Cursor) (t : τ) (s : Sched τ) :
    ((timerVerdict now (s.timer t)).dest = .removed ∧
      (timerVisit now l c t s).1.list = (s.removeAt l c.arr c.pos).list ∧
      (timerVisit now l c t s).2 = .again) ∨
    ((timerVerdict now (s.timer t)).dest = .filed l ∧ c.arr = 0 ∧
      (timerVisit now l c t s).1.list = s.list ∧ (timerVisit now l c t s).2 = .next) ∨
    (∃ newlist, (timerVerdict now (s.timer t)).dest = .filed newlist ∧
      (timerVisit now l c t s).1.list =
        ((s.appendTimerToTlist newlist t).removeAt l c.arr c.pos).list ∧
      (timerVisit now l c t s).2 = .again) ∨
    ((timerVerdict now (s.timer t)).dest = .fault ∧
      (timerVisit now l c t s).1.list = s.list ∧ (timerVisit now l c t s).2 = .fault) := by
  cases h : (timerVerdict now (s.timer t)).dest with
  | removed => exact Or.inl ⟨rfl, timerVisit_of_removed h⟩
  | filed newlist =>
    by_cases hstay : newlist = l ∧ c.arr = 0
    · obtain ⟨rfl, hc⟩ := hstay
      exact Or.inr (Or.inl ⟨rfl, hc, timerVisit_of_stays h hc⟩)
    · exact Or.inr (Or.inr (Or.inl ⟨newlist, rfl, timerVisit_of_moves h hstay⟩))
  | fault => exact Or.inr (Or.inr (Or.inr ⟨rfl, timerVisit_of_fault h⟩))

variable (now) in
/-- A work list visit takes the timer it removes out of one position. -/
theorem timerVisit_positions (h : (s.list l).entryAt c.arr c.pos = some t) (u : τ) :
    (timerVisit now l c t s).1.positions u +
        (if u = t ∧ (timerVerdict now (s.timer t)).dest = .removed then 1 else 0) =
      s.positions u := by
  rcases timerVisit_cases now l c t s with
    ⟨hd, hlist, _⟩ | ⟨hd, _, hlist, _⟩ | ⟨_, hd, hlist, _⟩ | ⟨hd, hlist, _⟩
  · rw [positions_congr hlist, hd]
    simpa using positions_removeAt h u
  · rw [positions_congr hlist, hd]
    simp
  · rw [positions_congr hlist, hd, positions_move h]
    simp
  · rw [positions_congr hlist, hd]
    simp

theorem timerVisit_mem {l' : ListId} {u : τ}
    (hu : u ∈ ((timerVisit now l c t s).1.list l').contents) :
    u ∈ (s.list l').contents ∨ (u = t ∧ (timerVerdict now (s.timer t)).dest = .filed l') := by
  rcases timerVisit_cases now l c t s with
    ⟨_, hlist, _⟩ | ⟨_, _, hlist, _⟩ | ⟨_, hd, hlist, _⟩ | ⟨_, hlist, _⟩
  · rw [hlist] at hu
    exact Or.inl (mem_of_mem_removeAt hu)
  · rw [hlist] at hu
    exact Or.inl hu
  · rw [hlist] at hu
    rcases mem_appendTimerToTlist.mp (mem_of_mem_removeAt hu) with hmem | ⟨heq, rfl⟩
    · exact Or.inl hmem
    · exact Or.inr ⟨heq, hd⟩
  · rw [hlist] at hu
    exact Or.inl hu

/-- No work list visit files a timer in a due list. -/
theorem timerVisit_mem_due {f : Family} {u : τ}
    (hu : u ∈ ((timerVisit now l c t s).1.list ⟨f, .due⟩).contents) :
    u ∈ (s.list ⟨f, .due⟩).contents := by
  rcases timerVisit_mem hu with hu | ⟨_, hdest⟩
  · exact hu
  · obtain ⟨_, _, _, hband⟩ := timerVerdict_dest hdest
    exact absurd rfl hband

variable (now) in
/-- A visit of another timer leaves a timer where it is. -/
theorem timerVisit_occ_of_ne {u : τ} (ht : (s.list l).entryAt c.arr c.pos = some t)
    (hne : u ≠ t) (l' : ListId) : (timerVisit now l c t s).1.occ l' u = s.occ l' u := by
  rcases timerVisit_cases now l c t s with
    ⟨_, hlist, _⟩ | ⟨_, _, hlist, _⟩ | ⟨_, _, hlist, _⟩ | ⟨_, hlist, _⟩
  · rw [occ_congr hlist]
    simpa [hne] using occ_removeAt ht l' u
  · rw [occ_congr hlist]
  · rw [occ_congr hlist]
    simpa [hne] using occ_move ht _ l' u
  · rw [occ_congr hlist]

/-- After a work list visit a timer that was not removed is in the list it was
filed in. -/
theorem mem_timerVisit_of_dest {l' : ListId} (ht : (s.list l).entryAt c.arr c.pos = some t)
    (hdest : (timerVerdict now (s.timer t)).dest = .filed l') :
    t ∈ ((timerVisit now l c t s).1.list l').contents := by
  by_cases hstay : l' = l ∧ c.arr = 0
  · obtain ⟨rfl, hc⟩ := hstay
    rw [(timerVisit_of_stays hdest hc).1]
    exact Chain.mem_of_entryAt ht
  · rw [(timerVisit_of_moves hdest hstay).1]
    have hocc := occ_move ht l' l' t
    have hpos : 0 < s.occ l t := List.count_pos_iff.mpr (Chain.mem_of_entryAt ht)
    refine List.count_pos_iff.mp (show 0 < occ _ l' t from ?_)
    by_cases hl : l' = l
    · subst hl
      simp only [and_self, if_true] at hocc
      omega
    · simp only [hl, false_and, and_self, if_true, if_false] at hocc
      omega

/-- A visit of another timer leaves a timer ahead. -/
theorem ahead_timerVisit {u : τ} (hu : (s.list l).Ahead c.arr c.pos u)
    (ht : (s.list l).entryAt c.arr c.pos = some t) (hne : u ≠ t) :
    let c' := (timerVisit now l c t s).2.advance c
    ((timerVisit now l c t s).1.list l).Ahead c'.arr c'.pos u := by
  rcases timerVisit_cases now l c t s with
    ⟨_, hlist, hflow⟩ | ⟨_, _, hlist, hflow⟩ | ⟨newlist, _, hlist, hflow⟩ | ⟨_, hlist, hflow⟩
  · rw [hflow, hlist, removeAt_list, Function.update_self]
    exact hu.removeAt ht hne
  · rw [hflow, hlist]
    exact hu.next ht hne
  · rw [hflow, hlist, removeAt_list, Function.update_self]
    have ht' := entryAt_appendTimerToTlist ht newlist t
    have hu' : ((s.appendTimerToTlist newlist t).list l).Ahead c.arr c.pos u := by
      by_cases hl : l = newlist
      · subst hl
        simpa using hu.append t
      · simpa [hl] using hu
    exact hu'.removeAt ht' hne
  · rw [hflow, hlist]
    exact hu

/-! ## One visit of a due list -/

/-- A visit of a due list drops a timer that is not running, leaves the array at a
null info pointer, passes over a timer that is not due yet, or triggers it. -/
theorem dueVisit_cases (now : Int) (l : ListId) (c : Cursor) (t : τ) (s : Sched τ) :
    ((s.timer t).active ≠ .running ∧ dueVisit now l c t s = (s.deleteTimerByPos l c t, .again)) ∨
    ((s.timer t).active = .running ∧ (s.timer t).info = none ∧
      dueVisit now l c t s = (s, .stop)) ∨
    (∃ info, (s.timer t).active = .running ∧ (s.timer t).info = some info ∧ now < info.due ∧
      dueVisit now l c t s = (s.touch t, .next)) ∨
    (∃ info, (s.timer t).active = .running ∧ (s.timer t).info = some info ∧ info.due ≤ now ∧
      (dueVisit now l c t s).1.timer = Function.update s.timer t
        { s.timer t with active := .notUse, info := some (info.fire now) } ∧
      (dueVisit now l c t s).1.list =
        (if (info.fire now).continues then
          (s.appendTimerToTlist (getTimerResList info) t).removeAt l c.arr c.pos
        else s.removeAt l c.arr c.pos).list ∧
      (∀ u ∈ (dueVisit now l c t s).1.touched, u = t ∨ u ∈ s.touched) ∧
      (dueVisit now l c t s).2 = .again) := by
  unfold dueVisit
  by_cases hrun : (s.timer t).active ≠ .running
  · exact Or.inl ⟨hrun, if_pos hrun⟩
  rw [if_neg hrun]
  replace hrun := not_not.mp hrun
  cases hinfo : (s.timer t).info with
  | none => exact Or.inr (Or.inl ⟨hrun, rfl, rfl⟩)
  | some info =>
    dsimp only
    by_cases hdue : info.due - now ≤ 0
    · rw [if_pos hdue]
      refine Or.inr (Or.inr (Or.inr ⟨info, hrun, rfl, by omega, ?_⟩))
      by_cases hcont : (info.fire now).continues
      · simp only [if_pos hcont, appendTimerToRes, touch_timer, dueTrigger_timer,
          Function.update_self, deleteTimerByPos_timer, appendTimerToTlist_timer,
          Function.update_idem, deleteTimerByPos_list, appendTimerToTlist_list, touch_list,
          dueTrigger_list, deleteTimerByPos_touched, appendTimerToTlist_touched, touch_touched,
          dueTrigger_touched, removeAt_list, List.mem_cons]
        exact ⟨trivial, rfl, fun u hu => by tauto, trivial⟩
      · simp only [if_neg hcont, deleteTimerByPos_timer, dueTrigger_timer, touch_timer,
          Function.update_self, Function.update_idem, deleteTimerByPos_list, dueTrigger_list,
          touch_list, deleteTimerByPos_touched, dueTrigger_touched, touch_touched, removeAt_list,
          List.mem_cons]
        exact ⟨trivial, trivial, fun u hu => hu, trivial⟩
    · rw [if_neg hdue]
      exact Or.inr (Or.inr (Or.inl ⟨info, hrun, rfl, by omega, rfl⟩))

/-- A due list visit writes the record of the timer it looks at and no other. -/
theorem dueVisit_timer_of_ne {u : τ} (hu : u ≠ t) :
    (dueVisit now l c t s).1.timer u = s.timer u := by
  rcases dueVisit_cases now l c t s with ⟨_, h⟩ | ⟨_, _, h⟩ | ⟨_, _, _, _, h⟩ | ⟨_, _, _, _, h, _⟩
  · simp [h, hu]
  · simp [h]
  · simp [h]
  · simp [h, hu]

theorem dueVisit_worker (u : τ) :
    ((dueVisit now l c t s).1.timer u).worker = (s.timer u).worker := by
  by_cases hu : u = t
  · subst hu
    rcases dueVisit_cases now l c u s with
      ⟨_, h⟩ | ⟨_, _, h⟩ | ⟨_, _, _, _, h⟩ | ⟨_, _, _, _, h, _⟩ <;> simp [h]
  · rw [dueVisit_timer_of_ne hu]

theorem dueVisit_touched {u : τ} (hu : u ∈ (dueVisit now l c t s).1.touched) :
    u = t ∨ u ∈ s.touched := by
  rcases dueVisit_cases now l c t s with
    ⟨_, h⟩ | ⟨_, _, h⟩ | ⟨_, _, _, _, h⟩ | ⟨_, _, _, _, _, _, htouched, _⟩
  · rw [h] at hu
    exact Or.inr hu
  · rw [h] at hu
    exact Or.inr hu
  · rw [h] at hu
    exact List.mem_cons.mp hu
  · exact htouched u hu

variable (now) in
theorem dueVisit_positions_le (h : (s.list l).entryAt c.arr c.pos = some t) (u : τ) :
    (dueVisit now l c t s).1.positions u ≤ s.positions u := by
  have hrem := positions_removeAt h u
  rcases dueVisit_cases now l c t s with
    ⟨_, hv⟩ | ⟨_, _, hv⟩ | ⟨_, _, _, _, hv⟩ | ⟨info, _, _, _, _, hlist, _⟩
  · have hlist : (dueVisit now l c t s).1.list = (s.removeAt l c.arr c.pos).list := by
      rw [hv]
      rfl
    rw [positions_congr hlist]
    omega
  · rw [hv]
  · have hlist : (dueVisit now l c t s).1.list = s.list := by
      rw [hv]
      rfl
    rw [positions_congr hlist]
  · rw [positions_congr hlist]
    split_ifs
    · rw [positions_move h]
    · omega

theorem dueVisit_positions_of_ne (h : (s.list l).entryAt c.arr c.pos = some t) {u : τ}
    (hu : u ≠ t) : (dueVisit now l c t s).1.positions u = s.positions u := by
  have hrem : (s.removeAt l c.arr c.pos).positions u = s.positions u := by
    simpa [hu] using positions_removeAt h u
  rcases dueVisit_cases now l c t s with
    ⟨_, hv⟩ | ⟨_, _, hv⟩ | ⟨_, _, _, _, hv⟩ | ⟨info, _, _, _, _, hlist, _⟩
  · rw [hv]
    exact hrem
  · rw [hv]
  · rw [hv]
    rfl
  · rw [positions_congr hlist]
    split_ifs
    · exact positions_move h _ u
    · exact hrem

theorem dueVisit_mem {l' : ListId} {u : τ}
    (hu : u ∈ ((dueVisit now l c t s).1.list l').contents) :
    u ∈ (s.list l').contents ∨
      (u = t ∧ ∃ info, (s.timer t).info = some info ∧ l' = getTimerResList info) := by
  rcases dueVisit_cases now l c t s with
    ⟨_, hv⟩ | ⟨_, _, hv⟩ | ⟨_, _, _, _, hv⟩ | ⟨info, _, hinfo, _, _, hlist, _⟩
  · rw [hv] at hu
    have hu' : u ∈ ((s.removeAt l c.arr c.pos).list l').contents := hu
    exact Or.inl (mem_of_mem_removeAt hu')
  · rw [hv] at hu
    exact Or.inl hu
  · rw [hv] at hu
    exact Or.inl hu
  · rw [hlist] at hu
    split_ifs at hu
    · rcases mem_appendTimerToTlist.mp (mem_of_mem_removeAt hu) with hu | ⟨hu, hl⟩
      · exact Or.inl hu
      · exact Or.inr ⟨hu, info, hinfo, hl⟩
    · exact Or.inl (mem_of_mem_removeAt hu)

/-! ## Invariants of walks -/

omit [DecidableEq τ] in
theorem walkStep_cases {visit : Cursor → τ → Sched τ → Sched τ × Flow} {x : Cursor × Sched τ}
    (h : walkStep visit l (c, s) = some x) :
    ((s.list l).entryAt c.arr c.pos = none ∧ x = (⟨c.arr + 1, 0⟩, s)) ∨
    ∃ t, (s.list l).entryAt c.arr c.pos = some t ∧
      x = ((visit c t s).2.advance c, (visit c t s).1) := by
  unfold walkStep at h
  dsimp only at h
  split_ifs at h with harr
  cases hentry : (s.list l).entryAt c.arr c.pos with
  | none =>
    rw [hentry] at h
    exact Or.inl ⟨rfl, (Option.some.inj h).symm⟩
  | some t =>
    rw [hentry] at h
    exact Or.inr ⟨t, rfl, (Option.some.inj h).symm⟩

omit [DecidableEq τ] in
theorem arr_lt_of_walkStep {visit : Cursor → τ → Sched τ → Sched τ × Flow} {x : Cursor × Sched τ}
    (h : walkStep visit l (c, s) = some x) : c.arr < (s.list l).length := by
  by_contra hge
  rw [walkStep, if_neg hge] at h
  cases h

omit [DecidableEq τ] in
/-- A walk ends behind the last array. -/
theorem walkStep_eq_none {visit : Cursor → τ → Sched τ → Sched τ × Flow}
    (h : walkStep visit l (c, s) = none) : (s.list l).length ≤ c.arr := by
  by_contra hlt
  rw [walkStep, if_pos (Nat.not_le.mp hlt)] at h
  split at h <;> cases h

omit [DecidableEq τ] in
theorem walkStep_invariant {visit : Cursor → τ → Sched τ → Sched τ × Flow} {I : Sched τ → Prop}
    (hI : ∀ c t s, (s.list l).entryAt c.arr c.pos = some t → I s → I (visit c t s).1)
    (x x' : Cursor × Sched τ) (hx : I x.2) (h : walkStep visit l x = some x') : I x'.2 := by
  obtain ⟨c, s⟩ := x
  rcases walkStep_cases h with ⟨_, rfl⟩ | ⟨t, ht, rfl⟩
  · exact hx
  · exact hI c t s ht hx

omit [DecidableEq τ] in
/-- What every visit of a walk preserves, the walk preserves. -/
theorem walk_invariant {visit : Cursor → τ → Sched τ → Sched τ × Flow} {I : Sched τ → Prop}
    (hI : ∀ c t s, (s.list l).entryAt c.arr c.pos = some t → I s → I (visit c t s).1)
    {fuel : Nat} {s' : Sched τ} (h : walk visit l fuel s = some s') (hs : I s) : I s' := by
  obtain ⟨⟨c', s₁⟩, hrun, rfl⟩ := Option.map_eq_some_iff.mp h
  exact (Loop.run_invariant (I := fun x => I x.2) (walkStep_invariant hI) hrun hs).1

/-- The walk does not get past a timer with a null info pointer: a call that returns has
met none. -/
theorem info_ne_none_of_timerListSchedule {fuel : Nat} {s' : Sched τ}
    (h : timerListSchedule fuel now l s = some s') (ht : t ∈ (s.list l).contents) :
    (s.timer t).info ≠ none := by
  intro hnull
  obtain ⟨⟨c', s₁⟩, hrun, rfl⟩ := Option.map_eq_some_iff.mp h
  obtain ⟨k, i, hentry⟩ := Chain.exists_entryAt_of_mem ht
  have hahead : (s.list l).Ahead 0 0 t := ⟨k, i, hentry, by omega⟩
  have hend := Loop.run_invariant (I := fun x : Cursor × Sched τ =>
    (x.2.timer t).info = none ∧ (x.2.list l).Ahead x.1.arr x.1.pos t) ?_ hrun ⟨hnull, hahead⟩
  · exact Chain.not_ahead_of_length_le (walkStep_eq_none hend.2) hend.1.2
  rintro ⟨c, s⟩ x ⟨hnull, hahead⟩ hstep
  rcases walkStep_cases hstep with ⟨hnext, rfl⟩ | ⟨u, hu, rfl⟩
  · exact ⟨hnull, hahead.nextArray hnext⟩
  · by_cases hut : t = u
    · -- The visit of the timer itself faults, and the walk stays where it is.
      subst hut
      obtain ⟨hlist, hflow⟩ : (timerVisit now l c t s).1.list = s.list ∧
          (timerVisit now l c t s).2 = .fault :=
        timerVisit_of_fault (timerVerdict_dest_eq_fault_iff.mpr hnull)
      refine ⟨?_, ?_⟩
      · rw [timerVisit_timer, Function.update_self, timerVerdict, hnull]
        exact hnull
      · rw [hflow, hlist]
        exact hahead
    · refine ⟨?_, ahead_timerVisit hahead hu hut⟩
      rw [timerVisit_timer, Function.update_of_ne hut]
      exact hnull

end Sched

/-- The clock of a family: the system time or the simulation time. -/
def clock (now tick : Int) : Family → Int
  | .timer => now
  | .ticker => tick

namespace Sched

variable {τ : Type} [DecidableEq τ]

theorem scheduleFamily_invariant {I : Sched τ → Prop} {f : Family} {now : Int} {fuel : Nat}
    (hdue : ∀ s s', dueListSchedule fuel now ⟨f, .due⟩ s = some s' → I s → I s')
    (hwork : ∀ b c t s, b ≠ .due → (s.list ⟨f, b⟩).entryAt c.arr c.pos = some t → I s →
      I (timerVisit now ⟨f, b⟩ c t s).1)
    {count : Nat} {s s' : Sched τ} (h : scheduleFamily fuel f now count s = some s')
    (hs : I s) : I s' := by
  -- A work list is visited or, on most ticks, passed over.
  have hlist : ∀ (b : Band) (n : Nat) (s s' : Sched τ), b ≠ .due →
      timerListEvery n fuel now count ⟨f, b⟩ s = some s' → I s → I s' := by
    intro b n s s' hb h hs
    unfold timerListEvery at h
    split_ifs at h
    · exact walk_invariant (fun c t s ht hs => hwork b c t s hb ht hs) h hs
    · exact Option.some.inj h ▸ hs
  simp only [scheduleFamily, Option.bind_eq_bind, Option.bind_eq_some_iff] at h
  obtain ⟨s₁, h₁, s₂, h₂, s₃, h₃, s₄, h₄, h₅⟩ := h
  have hs₁ : I s₁ := hdue s s₁ h₁ hs
  have hs₂ : I s₂ := walk_invariant (fun c t s => hwork .work1 c t s (by decide)) h₂ hs₁
  have hs₃ : I s₃ := hlist .work2 16 s₂ s₃ (by decide) h₃ hs₂
  have hs₄ : I s₄ := hlist .work3 32 s₃ s₄ (by decide) h₄ hs₃
  exact hlist .work4 128 s₄ s' (by decide) h₅ hs₄

/-- What every walk of a due list and every visit of a work list preserve, a call of
`schedule_timer_and_ticker` preserves. -/
theorem scheduleTimerAndTicker_invariant_of_walks {I : Sched τ → Prop} {now tick : Int}
    {fuel : Nat}
    (hdue : ∀ f s s', dueListSchedule fuel (clock now tick f) ⟨f, .due⟩ s = some s' → I s → I s')
    (hwork : ∀ f b c t s, b ≠ .due → (s.list ⟨f, b⟩).entryAt c.arr c.pos = some t → I s →
      I (timerVisit (clock now tick f) ⟨f, b⟩ c t s).1)
    {count : Nat} {s s' : Sched τ}
    (h : scheduleTimerAndTicker fuel now tick count s = some s') (hs : I s) : I s' := by
  simp only [scheduleTimerAndTicker, Option.bind_eq_bind, Option.bind_eq_some_iff] at h
  obtain ⟨s₁, h₁, h₂⟩ := h
  have hs₁ : I s₁ := scheduleFamily_invariant (hdue .timer) (hwork .timer) h₁ hs
  split_ifs at h₂
  · exact scheduleFamily_invariant (hdue .ticker) (hwork .ticker) h₂ hs₁
  · exact Option.some.inj h₂ ▸ hs₁

/-- What every visit of every list preserves, a call of
`schedule_timer_and_ticker` preserves. -/
theorem scheduleTimerAndTicker_invariant {I : Sched τ → Prop} {now tick : Int}
    (hdue : ∀ f c t s, (s.list ⟨f, .due⟩).entryAt c.arr c.pos = some t → I s →
      I (dueVisit (clock now tick f) ⟨f, .due⟩ c t s).1)
    (hwork : ∀ f b c t s, b ≠ .due → (s.list ⟨f, b⟩).entryAt c.arr c.pos = some t → I s →
      I (timerVisit (clock now tick f) ⟨f, b⟩ c t s).1)
    {fuel count : Nat} {s s' : Sched τ}
    (h : scheduleTimerAndTicker fuel now tick count s = some s') (hs : I s) : I s' :=
  scheduleTimerAndTicker_invariant_of_walks (fun f _ _ h hs => walk_invariant (hdue f) h hs)
    hwork h hs

/-- A tick lists no timer more often, and writes the records of listed timers only. -/
theorem scheduleTimerAndTicker_frame {now tick : Int} {fuel count : Nat} {s s' : Sched τ}
    (h : scheduleTimerAndTicker fuel now tick count s = some s') (u : τ) :
    s'.positions u ≤ s.positions u ∧ (s.positions u = 0 → s'.timer u = s.timer u) := by
  refine scheduleTimerAndTicker_invariant
    (I := fun s' => s'.positions u ≤ s.positions u ∧ (s.positions u = 0 → s'.timer u = s.timer u))
    ?_ ?_ h ⟨Nat.le_refl _, fun _ => rfl⟩
  · intro f c t s₁ ht hs
    refine ⟨Nat.le_trans (dueVisit_positions_le _ ht u) hs.1, fun h0 => ?_⟩
    have hut : u ≠ t := by
      rintro rfl
      have hpos := positions_pos_iff.mpr ⟨_, Chain.mem_of_entryAt ht⟩
      omega
    exact (dueVisit_timer_of_ne hut).trans (hs.2 h0)
  · intro f b c t s₁ _ ht hs
    have hpos := timerVisit_positions (clock now tick f) ht u
    refine ⟨by omega, fun h0 => ?_⟩
    have hut : u ≠ t := by
      rintro rfl
      have hpos := positions_pos_iff.mpr ⟨_, Chain.mem_of_entryAt ht⟩
      omega
    rw [timerVisit_timer, Function.update_of_ne hut]
    exact hs.2 h0

/-! ## While a tick runs -/

/-- What is done with a timer of the list, by the kind of the list. -/
def visitOf (now tick : Int) (l : ListId) : Cursor → τ → Sched τ → Sched τ × Flow :=
  if l.band = .due then dueVisit (clock now tick l.family) l
  else timerVisit (clock now tick l.family) l

/-- The lists that one half of `schedule_timer_and_ticker` walks, in their order. -/
def familyWalks (f : Family) (count : Nat) : List ListId :=
  ⟨f, .due⟩ :: ⟨f, .work1⟩ ::
    ((if count % 16 = 0 then [⟨f, .work2⟩] else []) ++
      ((if count % 32 = 0 then [⟨f, .work3⟩] else []) ++
        if count % 128 = 0 then [⟨f, .work4⟩] else []))

/-- The lists that `schedule_timer_and_ticker` walks. -/
def walks (tick : Int) (count : Nat) : List ListId :=
  familyWalks .timer count ++ if 0 < tick then familyWalks .ticker count else []

/-- `s'` is a state that the walks over the lists go through, one after the other,
from `s` on. The last walk need not come to an end. -/
inductive During (now tick : Int) : List ListId → Sched τ → Sched τ → Prop
  | walking {l : ListId} {ls : List ListId} {s s' : Sched τ} {c : Cursor} :
      StateTransition.Reaches (walkStep (visitOf now tick l) l) (⟨0, 0⟩, s) (c, s') →
      During now tick (l :: ls) s s'
  | walked {l : ListId} {ls : List ListId} {s s₁ s' : Sched τ} {fuel : Nat} :
      walk (visitOf now tick l) l fuel s = some s₁ → During now tick ls s₁ s' →
      During now tick (l :: ls) s s'

/-- What every visit preserves holds all through the walks. -/
theorem During.invariant {I : Sched τ → Prop} {now tick : Int} {ls : List ListId} {s s' : Sched τ}
    (hI : ∀ l c t s, (s.list l).entryAt c.arr c.pos = some t → I s →
      I (visitOf now tick l c t s).1)
    (h : During now tick ls s s') (hs : I s) : I s' := by
  induction h with
  | walking h =>
    exact Loop.reaches_invariant (I := fun x => I x.2) (walkStep_invariant (hI _)) h hs
  | walked h _ ih => exact ih (walk_invariant (hI _) h hs)

/-- The end of the last walk is a state of the walks. -/
theorem During.of_foldlM {now tick : Int} {fuel : Nat} {l : ListId} {ls : List ListId}
    {s s' : Sched τ}
    (h : (l :: ls).foldlM (fun s l => walk (visitOf now tick l) l fuel s) s = some s') :
    During now tick (l :: ls) s s' := by
  induction ls generalizing l s with
  | nil =>
    have hwalk : walk (visitOf now tick l) l fuel s = some s' := by simpa using h
    obtain ⟨⟨c, s₁⟩, hrun, rfl⟩ := Option.map_eq_some_iff.mp hwalk
    exact .walking (Loop.run_sound hrun).1
  | cons l' ls ih =>
    rw [List.foldlM_cons] at h
    obtain ⟨s₁, hwalk, hrest⟩ := Option.bind_eq_some_iff.mp h
    exact .walked hwalk (ih hrest)

/-- A work list is walked or, on most ticks, passed over. -/
theorem timerListEvery_eq (n fuel : Nat) (now tick : Int) (count : Nat) {l : ListId}
    (hl : l.band ≠ .due) (s : Sched τ) :
    timerListEvery n fuel (clock now tick l.family) count l s =
      (if count % n = 0 then [l] else []).foldlM
        (fun s l => walk (visitOf now tick l) l fuel s) s := by
  unfold timerListEvery
  split_ifs
  · simp [visitOf, hl, timerListSchedule]
  · rfl

theorem scheduleFamily_eq (fuel : Nat) (f : Family) (now tick : Int) (count : Nat) (s : Sched τ) :
    scheduleFamily fuel f (clock now tick f) count s =
      (familyWalks f count).foldlM (fun s l => walk (visitOf now tick l) l fuel s) s := by
  have hwork : ∀ (b : Band) (n : Nat) (s : Sched τ), b ≠ .due →
      timerListEvery n fuel (clock now tick f) count ⟨f, b⟩ s =
        (if count % n = 0 then [⟨f, b⟩] else []).foldlM
          (fun s l => walk (visitOf now tick l) l fuel s) s := fun b n s hb =>
    timerListEvery_eq n fuel now tick count hb s
  simp only [familyWalks, List.foldlM_cons, List.foldlM_append,
    ← hwork .work2 16 _ (by decide), ← hwork .work3 32 _ (by decide),
    ← hwork .work4 128 _ (by decide)]
  rfl

/-- `schedule_timer_and_ticker` is its walks, one after the other. -/
theorem scheduleTimerAndTicker_eq (fuel : Nat) (now tick : Int) (count : Nat) (s : Sched τ) :
    scheduleTimerAndTicker fuel now tick count s =
      (walks tick count).foldlM (fun s l => walk (visitOf now tick l) l fuel s) s := by
  have htimer : scheduleFamily fuel .timer now count s = _ :=
    scheduleFamily_eq fuel .timer now tick count s
  unfold scheduleTimerAndTicker walks
  rw [List.foldlM_append, htimer]
  refine congrArg (Option.bind _) (funext fun s₁ => ?_)
  split_ifs
  · exact scheduleFamily_eq fuel .ticker now tick count s₁
  · rfl

theorem During.of_scheduleTimerAndTicker {fuel : Nat} {now tick : Int} {count : Nat}
    {s s' : Sched τ} (h : scheduleTimerAndTicker fuel now tick count s = some s') :
    During now tick (walks tick count) s s' := by
  rw [scheduleTimerAndTicker_eq] at h
  exact During.of_foldlM h

end Sched

end LMiced
