import LMiced.Lib.Fifo
import LMiced.Resource.Tasks

/-!
# The task array

`g_restask` of `resource/resource_manage.c` is an array of 128 tasks, and the type
`LM_RES_TASK_NOTUSE` marks an entry as free. `set_resource_task` writes its task into the
first free entry; `peek_resource_task` takes the first entry and moves the others up. The
type of the last entry is cleared behind that move, and nothing else of it.

* `Holds`: the used entries are the first ones and hold the queue;
* `restask_fifo_of_run`: over every sequence of calls the array is a queue of capacity 128;
* `setResourceTask_refines` and `peekResourceTask_refines`: the queue of `Resource.Tasks`
  is this array.
-/

namespace LMiced

/-! ## The code -/

/-- `lm_res_task_t`. -/
structure LmResTask where
  type : Int
  instId : UInt64
  pval : UInt64
deriving DecidableEq, Repr

/-- `LM_RES_TASK_NOTUSE`. -/
def lmResTaskNotuse : Int := 0

/-- `g_restask`. -/
abbrev Restask := Fin resTasklistSize → LmResTask

namespace Restask

/-- The array before the first call. -/
def zero : Restask := fun _ => ⟨0, 0, 0⟩

/-- `set_resource_task`: the return value and the array. `locked` says that
`eal_spin_trylock` gave up, which it does with 1. -/
def setResourceTask (locked : Bool) (task : LmResTask) (tasks : Restask) : Int × Restask :=
  if locked then (1, tasks)
  else
    match Fin.find? fun i => (tasks i).type = lmResTaskNotuse with
    | some i => (0, Function.update tasks i task)
    | none => (1, tasks)

/-- The `memmove` of `peek_resource_task` and what it does to the last entry. -/
def shift (tasks : Restask) : Restask := fun i =>
  if h : i.val + 1 < resTasklistSize then tasks ⟨i.val + 1, h⟩
  else { tasks i with type := lmResTaskNotuse }

/-- The place of `g_restask[0]`. -/
def first : Fin resTasklistSize := ⟨0, Nat.zero_lt_succ _⟩

/-- `peek_resource_task`: the return value, the caller's task and the array. -/
def peekResourceTask (locked : Bool) (task : LmResTask) (tasks : Restask) :
    (Int × LmResTask) × Restask :=
  if locked then ((1, task), tasks)
  else if (tasks first).type ≠ lmResTaskNotuse then ((0, tasks first), tasks.shift)
  else ((0, task), tasks)

end Restask

/-- A call of one of the two functions with the caller's task. -/
inductive RestaskCall
  | set (locked : Bool) (task : LmResTask)
  | peek (locked : Bool) (task : LmResTask)
deriving DecidableEq, Repr

namespace RestaskCall

/-- What the call returns, the caller's task afterwards, and the array. -/
def step : RestaskCall → Restask → (Int × LmResTask) × Restask
  | .set locked task, tasks =>
    let result := tasks.setResourceTask locked task
    ((result.1, task), result.2)
  | .peek locked task, tasks => tasks.peekResourceTask locked task

/-- What it is meant to do to a queue of tasks. -/
def spec : RestaskCall → List LmResTask → (Int × LmResTask) × List LmResTask
  | .set true task, queue => ((1, task), queue)
  | .set false task, queue =>
    let result := Fifo.put resTasklistSize task queue
    ((if result.1 then 0 else 1, task), result.2)
  | .peek true task, queue => ((1, task), queue)
  | .peek false task, queue =>
    let result := Fifo.get queue
    ((0, result.1.getD task), result.2)

/-- Nobody queues a task that marks a free entry. -/
def Proper : RestaskCall → Prop
  | .set _ task => task.type ≠ lmResTaskNotuse
  | .peek _ _ => True

end RestaskCall

/-! ## The array as a queue -/

/-- The task in an entry, if it is used. -/
def LmResTask.used (task : LmResTask) : Option LmResTask :=
  if task.type = lmResTaskNotuse then none else some task

@[simp] theorem LmResTask.used_eq_none {task : LmResTask} :
    task.used = none ↔ task.type = lmResTaskNotuse := by
  simp [used]

theorem LmResTask.used_eq_some {task : LmResTask} (h : task.type ≠ lmResTaskNotuse) :
    task.used = some task := if_neg h

namespace Restask

/-- The task at a place of the array. -/
def place (tasks : Restask) (i : Nat) : Option LmResTask :=
  if h : i < resTasklistSize then (tasks ⟨i, h⟩).used else none

/-- The used entries are the first ones, and they hold the queue. -/
def Holds (tasks : Restask) (queue : List LmResTask) : Prop :=
  Fifo.Window resTasklistSize tasks.place queue

variable {tasks : Restask} {queue : List LmResTask} {task : LmResTask}

theorem place_of_lt {i : Nat} (hi : i < resTasklistSize) : tasks.place i = (tasks ⟨i, hi⟩).used :=
  dif_pos hi

theorem holds_zero : zero.Holds [] := by
  refine .nil fun i hi => ?_
  rw [place_of_lt hi]
  rfl

theorem Holds.type_eq_iff (h : tasks.Holds queue) (i : Fin resTasklistSize) :
    (tasks i).type = lmResTaskNotuse ↔ queue.length ≤ i := by
  rw [← h.eq_none_iff i.isLt, place_of_lt i.isLt, LmResTask.used_eq_none]

/-- The first free entry is the one behind the queue. -/
theorem Holds.find_of_room (h : tasks.Holds queue) (hroom : queue.length < resTasklistSize) :
    (Fin.find? fun i => (tasks i).type = lmResTaskNotuse) = some ⟨queue.length, hroom⟩ := by
  rw [Fin.find?_eq_some_iff]
  refine ⟨?_, fun i hi => ?_⟩
  · rw [decide_eq_true_eq, h.type_eq_iff]
  · rw [decide_eq_false_iff_not, h.type_eq_iff]
    exact Nat.not_le.mpr hi

theorem Holds.find_of_full (h : tasks.Holds queue) (hfull : ¬ queue.length < resTasklistSize) :
    (Fin.find? fun i => (tasks i).type = lmResTaskNotuse) = none := by
  rw [Fin.find?_eq_none_iff]
  intro i
  rw [decide_eq_false_iff_not, h.type_eq_iff]
  have hi : i.val < resTasklistSize := i.isLt
  omega

theorem Holds.put (h : tasks.Holds queue) (hroom : queue.length < resTasklistSize)
    (htype : task.type ≠ lmResTaskNotuse) :
    Holds (Function.update tasks ⟨queue.length, hroom⟩ task) (queue ++ [task]) := by
  refine Fifo.Window.put h hroom ?_ fun i hi hne => ?_
  · rw [place_of_lt hroom, Function.update_self, LmResTask.used_eq_some htype]
  · have hne' : (⟨i, hi⟩ : Fin resTasklistSize) ≠ ⟨queue.length, hroom⟩ := fun heq =>
      hne (Fin.mk.inj heq)
    rw [place_of_lt hi, place_of_lt hi, Function.update_of_ne hne']

theorem Holds.get (h : tasks.Holds (task :: queue)) : tasks.shift.Holds queue := by
  have hwindow : Fifo.Window (127 + 1) tasks.place (task :: queue) := h
  refine hwindow.get (fun i hi => ?_) ?_
  · have hi' : i + 1 < resTasklistSize := Nat.succ_lt_succ hi
    rw [place_of_lt hi', place_of_lt (Nat.lt_of_succ_lt hi'), shift, dif_pos hi']
  · rw [place_of_lt (by decide)]
    rfl

/-- The first entry holds the oldest task. -/
theorem Holds.used_first (h : tasks.Holds queue) : (tasks first).used = queue.head? := by
  rw [List.head?_eq_getElem?, ← h.entry 0 (by decide)]
  rfl

/-- A call returns what the call on the queue returns, and leaves the array with the queue
that is left. -/
theorem refines : Machine.Refines RestaskCall.step RestaskCall.spec RestaskCall.Proper Holds := by
  have hboth : ∀ call tasks queue, RestaskCall.Proper call → Holds tasks queue →
      (call.step tasks).1 = (call.spec queue).1 ∧
        Holds (call.step tasks).2 (call.spec queue).2 := by
    intro call tasks queue hok h
    cases call with
    | set locked task =>
      cases locked with
      | true => exact ⟨rfl, h⟩
      | false =>
        simp only [RestaskCall.step, RestaskCall.spec, setResourceTask, Fifo.put]
        by_cases hroom : queue.length < resTasklistSize
        · simp only [h.find_of_room hroom, if_pos hroom]
          exact ⟨rfl, h.put hroom hok⟩
        · simp only [h.find_of_full hroom, if_neg hroom]
          exact ⟨rfl, h⟩
    | peek locked task =>
      cases locked with
      | true => exact ⟨rfl, h⟩
      | false =>
        have hfirst := h.used_first
        simp only [RestaskCall.step, RestaskCall.spec, peekResourceTask, Fifo.get]
        cases queue with
        | nil =>
          rw [List.head?_nil, LmResTask.used_eq_none] at hfirst
          simp only [hfirst]
          exact ⟨rfl, h⟩
        | cons oldest queue =>
          rw [List.head?_cons] at hfirst
          have htype : (tasks first).type ≠ lmResTaskNotuse := by
            intro htype
            rw [LmResTask.used_eq_none.mpr htype] at hfirst
            cases hfirst
          rw [LmResTask.used_eq_some htype] at hfirst
          cases hfirst
          simp only [ne_eq, htype, not_false_eq_true, if_true]
          exact ⟨rfl, h.get⟩
  exact ⟨fun call tasks queue hok h => (hboth call tasks queue hok h).1,
    fun call tasks queue hok h => (hboth call tasks queue hok h).2⟩

/-- What leaves the queue as it is leaves the whole array as it is, stale entries included. -/
theorem Holds.step_eq (h : tasks.Holds queue) {call : RestaskCall}
    (hsame : (call.spec queue).2 = queue) : (call.step tasks).2 = tasks := by
  cases call with
  | set locked task =>
    cases locked with
    | true => rfl
    | false =>
      simp only [RestaskCall.spec, Fifo.put] at hsame
      split_ifs at hsame with hroom
      · simp at hsame
      · simp [RestaskCall.step, setResourceTask, h.find_of_full hroom]
  | peek locked task =>
    cases locked with
    | true => rfl
    | false =>
      cases queue with
      | nil =>
        have hfirst := h.used_first
        rw [List.head?_nil, LmResTask.used_eq_none] at hfirst
        simp [RestaskCall.step, peekResourceTask, hfirst]
      | cons oldest queue => simp [RestaskCall.spec, Fifo.get] at hsame

/-! ## The queue of the daemon -/

section Daemon

variable {τ : Type} {q : TaskQueue τ} {encode : ResTask τ → LmResTask}

/-- A task of the daemon is queued in the array as it is in the queue. -/
theorem setResourceTask_refines (hencode : ∀ t, (encode t).type ≠ lmResTaskNotuse)
    (h : tasks.Holds (q.entries.map encode)) (locked : Bool) (t : ResTask τ) :
    let result := tasks.setResourceTask locked (encode t)
    let result' := LMiced.setResourceTask locked t q
    result.2.Holds (result'.1.entries.map encode) ∧ (result.1 = 0 ↔ result'.2 = true) := by
  cases locked with
  | true => exact ⟨h, by simp [setResourceTask, LMiced.setResourceTask]⟩
  | false =>
    by_cases hroom : q.entries.length < resTasklistSize
    · have hroom' : (q.entries.map encode).length < resTasklistSize := by simpa using hroom
      have hput := h.put hroom' (hencode t)
      simp only [setResourceTask, h.find_of_room hroom', LMiced.setResourceTask, dif_pos hroom]
      exact ⟨by simpa using hput, by simp⟩
    · have hfull : ¬ (q.entries.map encode).length < resTasklistSize := by simpa using hroom
      simp only [setResourceTask, h.find_of_full hfull, LMiced.setResourceTask, dif_neg hroom]
      exact ⟨h, by simp⟩

/-- A peek of the daemon takes the task from the array that it takes from the queue. -/
theorem peekResourceTask_refines (h : tasks.Holds (q.entries.map encode)) (task : LmResTask) :
    (LMiced.peekResourceTask q = none → tasks.peekResourceTask false task = ((0, task), tasks)) ∧
    ∀ t q', LMiced.peekResourceTask q = some (t, q') →
      (tasks.peekResourceTask false task).1 = (0, encode t) ∧
        (tasks.peekResourceTask false task).2.Holds (q'.entries.map encode) := by
  constructor
  · intro hnone
    have hfirst := h.used_first
    rw [LMiced.peekResourceTask_eq_none hnone, List.map_nil, List.head?_nil,
      LmResTask.used_eq_none] at hfirst
    simp [peekResourceTask, hfirst]
  · intro t q' hsome
    rw [LMiced.peekResourceTask_eq_some hsome, List.map_cons] at h
    exact ⟨refines.answer (.peek false task) tasks _ trivial h,
      refines.next (.peek false task) tasks _ trivial h⟩

end Daemon

end Restask

/-- Over every sequence of calls the array of tasks is a queue of capacity 128: each call
returns what the queue returns, the used entries hold the queue, and a call that leaves
the queue alone leaves the array alone. -/
theorem restask_fifo_of_run {calls : List RestaskCall} (h : ∀ call ∈ calls, call.Proper) :
    let tasks := Machine.after RestaskCall.step calls Restask.zero
    let queue := Machine.after RestaskCall.spec calls []
    Machine.answers RestaskCall.step calls Restask.zero =
        Machine.answers RestaskCall.spec calls [] ∧
      tasks.Holds queue ∧
      ∀ call : RestaskCall, (call.spec queue).2 = queue → (call.step tasks).2 = tasks := by
  have hholds := Restask.refines.after h Restask.holds_zero
  exact ⟨Restask.refines.answers_eq h Restask.holds_zero, hholds, fun _ => hholds.step_eq⟩

/-- Two tasks are queued and the first is delivered. -/
theorem restask_fifo_of_run_two :
    Machine.answers RestaskCall.step
        [.set false ⟨1, 5, 0⟩, .set false ⟨2, 6, 0⟩, .peek false ⟨0, 0, 0⟩] Restask.zero =
      [(0, ⟨1, 5, 0⟩), (0, ⟨2, 6, 0⟩), (0, ⟨1, 5, 0⟩)] := by
  have hproper : ∀ call ∈ ([.set false ⟨1, 5, 0⟩, .set false ⟨2, 6, 0⟩,
      .peek false ⟨0, 0, 0⟩] : List RestaskCall), call.Proper := by
    simp [RestaskCall.Proper, lmResTaskNotuse]
  exact (restask_fifo_of_run hproper).1.trans (by decide)

end LMiced
