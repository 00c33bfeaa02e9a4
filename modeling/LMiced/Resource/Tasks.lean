import LMiced.Lib.Run
import LMiced.Timer.Schedule

/-!
# The task queue and the timer slots

The maintenance thread of the daemon and its timer thread meet in a queue of 128
tasks (`g_restask` in `resource/resource_manage.c`). The maintenance thread looks
at every timer slot of a worker and queues a task for each timer that was
created or destroyed at the worker's side; the timer thread empties the queue
at the start of a tick and then schedules the lists.

`ResEvent.step` puts the pieces together to an event system: a worker writes
the info block of a timer, the maintenance thread handles a timer slot, the
timer thread empties the queue, or it schedules.
-/

namespace LMiced

/-! ## The queue -/

/-- `lm_res_task_t` with its type field, for the types that `resource_task_proc`
handles. Workers are referred to by table slot. -/
inductive ResTask (τ : Type)
  | addTimer (t : τ)
  | delTimer (t : τ)
  | addWorker (w : Nat)
  | delWorker (w : Nat)
deriving DecidableEq, Repr

/-- `RES_TASKLIST_SIZE`. -/
abbrev resTasklistSize : Nat := 128

/-- `g_restask`. A task is queued behind the used entries and taken from the front
with the others moving up, so the used entries come first. -/
abbrev TaskQueue (τ : Type) := BArray resTasklistSize (ResTask τ)

section Queue

variable {τ σ : Type}

/-- `set_resource_task`: the queue afterwards, and whether it returned 0. `locked`
says that `eal_spin_trylock` failed. -/
def setResourceTask (locked : Bool) (task : ResTask τ) (q : TaskQueue τ) : TaskQueue τ × Bool :=
  if locked then (q, false)
  else if h : q.entries.length < resTasklistSize then (q.push task h, true)
  else (q, false)

/-- `peek_resource_task` when the lock is free: the first task and the queue without
it, or `none` for the type `LM_RES_TASK_NOTUSE` of an empty queue. -/
def peekResourceTask (q : TaskQueue τ) : Option (ResTask τ × TaskQueue τ) :=
  q.entries.head?.map fun task => (task, q.eraseIdx 0)

/-- The loop of `resource_task_proc`, with what it does for a task as a parameter.
It ends when the queue is empty or when a peek finds the queue locked; `peeks`
is the number of peeks before that one. -/
def drain (proc : ResTask τ → σ → σ) : Nat → TaskQueue τ → σ → TaskQueue τ × σ
  | 0, q, s => (q, s)
  | peeks + 1, q, s =>
    match peekResourceTask q with
    | none => (q, s)
    | some (task, q') => drain proc peeks q' (proc task s)

theorem setResourceTask_cases (locked : Bool) (task : ResTask τ) (q : TaskQueue τ) :
    (setResourceTask locked task q).1.entries = q.entries ++ [task] ∧
        (setResourceTask locked task q).2 = true ∨
      setResourceTask locked task q = (q, false) := by
  unfold setResourceTask
  split_ifs with hlock hroom
  · exact Or.inr rfl
  · exact Or.inl ⟨rfl, rfl⟩
  · exact Or.inr rfl

theorem mem_setResourceTask {locked : Bool} {task task' : ResTask τ} {q : TaskQueue τ}
    (h : task' ∈ (setResourceTask locked task q).1.entries) : task' ∈ q.entries ∨ task' = task := by
  rcases setResourceTask_cases locked task q with ⟨hq, _⟩ | hq
  · rw [hq] at h
    simpa using h
  · rw [hq] at h
    exact Or.inl h

theorem not_mem_setResourceTask {locked : Bool} {task task' : ResTask τ} {q : TaskQueue τ}
    (h : task' ∉ q.entries) (hne : task' ≠ task) :
    task' ∉ (setResourceTask locked task q).1.entries :=
  fun hmem => (mem_setResourceTask hmem).elim h hne

theorem mem_setResourceTask_of_mem {task' : ResTask τ} {q : TaskQueue τ} (h : task' ∈ q.entries)
    (locked : Bool) (task : ResTask τ) : task' ∈ (setResourceTask locked task q).1.entries := by
  rcases setResourceTask_cases locked task q with ⟨hq, _⟩ | hq
  · rw [hq]
    exact List.mem_append_left _ h
  · rw [hq]
    exact h

theorem peekResourceTask_eq_some {q q' : TaskQueue τ} {task : ResTask τ}
    (h : peekResourceTask q = some (task, q')) : q.entries = task :: q'.entries := by
  unfold peekResourceTask at h
  cases hq : q.entries with
  | nil => simp [hq] at h
  | cons x xs =>
    simp only [hq, List.head?_cons, Option.map_some, Option.some.injEq, Prod.mk.injEq] at h
    obtain ⟨rfl, rfl⟩ := h
    simp [hq]

theorem peekResourceTask_eq_none {q : TaskQueue τ} (h : peekResourceTask q = none) :
    q.entries = [] := by
  unfold peekResourceTask at h
  simpa using h

/-- What the handling of every queued task preserves, the loop preserves. The
invariant sees the queue as it is without the task. -/
theorem drain_invariant (proc : ResTask τ → σ → σ) {I : List (ResTask τ) → σ → Prop}
    (hI : ∀ task tasks s, I (task :: tasks) s → I tasks (proc task s))
    (peeks : Nat) (q : TaskQueue τ) (s : σ) (hs : I q.entries s) :
    I (drain proc peeks q s).1.entries (drain proc peeks q s).2 := by
  induction peeks generalizing q s with
  | zero => exact hs
  | succ peeks ih =>
    unfold drain
    cases hpeek : peekResourceTask q with
    | none => exact hs
    | some x =>
      obtain ⟨task, q'⟩ := x
      rw [peekResourceTask_eq_some hpeek] at hs
      exact ih q' (proc task s) (hI task q'.entries s hs)

variable [DecidableEq τ]

/-- The number of `LM_RES_TASK_ADD_TIMER` tasks for `t` among the tasks. -/
def additions (tasks : List (ResTask τ)) (t : τ) : Nat := tasks.count (.addTimer t)

theorem additions_cons_addTimer (u : τ) (tasks : List (ResTask τ)) (t : τ) :
    additions (.addTimer u :: tasks) t = additions tasks t + if t = u then 1 else 0 := by
  unfold additions
  by_cases h : t = u
  · simp [h]
  · simp [h, Ne.symm h]

theorem additions_cons_of_ne (task : ResTask τ) (h : ∀ u, task ≠ .addTimer u)
    (tasks : List (ResTask τ)) : additions (task :: tasks) = additions tasks := by
  funext t
  exact List.count_cons_of_ne (h t)

theorem additions_append_addTimer (tasks : List (ResTask τ)) (u t : τ) :
    additions (tasks ++ [.addTimer u]) t = additions tasks t + if t = u then 1 else 0 := by
  unfold additions
  by_cases h : t = u
  · simp [h]
  · simp [h, Ne.symm h]

theorem additions_setResourceTask_of_ne {locked : Bool} {task : ResTask τ}
    (h : ∀ u, task ≠ .addTimer u) (q : TaskQueue τ) :
    additions (setResourceTask locked task q).1.entries = additions q.entries := by
  funext u
  rcases setResourceTask_cases locked task q with ⟨hq, _⟩ | hq
  · simp [additions, hq, h u]
  · rw [hq]

theorem additions_setResourceTask_le (locked : Bool) (t : τ) (q : TaskQueue τ) (u : τ) :
    additions (setResourceTask locked (.addTimer t) q).1.entries u ≤
      additions q.entries u + if u = t then 1 else 0 := by
  rcases setResourceTask_cases locked (.addTimer t) q with ⟨hq, _⟩ | hq
  · rw [hq, additions_append_addTimer]
  · rw [hq]
    exact Nat.le_add_right _ _

end Queue

/-! ## The event system -/

/-- The lists and the queue. -/
structure ResParam (τ : Type) where
  sched : Sched τ
  queue : TaskQueue τ

variable {τ : Type} [DecidableEq τ]

/-- The body of `resource_task_proc`, as far as the timers are concerned. -/
def Sched.taskProc : ResTask τ → Sched τ → Sched τ
  | .addTimer t, s => s.appendTimerToRes t
  | .delTimer t, s => s.removeTimerFromRes t
  | .addWorker _, s => s
  | .delWorker w, s => s.removeTimerByWorker w

/-- Of the records, a task writes the activity of a timer only. -/
theorem Sched.taskProc_timer (task : ResTask τ) (s : Sched τ) (t : τ) :
    ∃ active, (taskProc task s).timer t = { s.timer t with active := active } := by
  cases task with
  | addTimer u => exact ⟨(s.timer t).active, by simp [taskProc]⟩
  | delTimer u =>
    rcases removeTimerFromRes_cases s u with ⟨htimer, _⟩ | ⟨_, _, _, htimer, _⟩
    · exact ⟨(s.timer t).active, by simp [taskProc, htimer]⟩
    · by_cases htu : t = u
      · subst htu
        exact ⟨.notUse, by simp [taskProc, htimer]⟩
      · exact ⟨(s.timer t).active, by simp [taskProc, htimer, htu]⟩
  | addWorker w => exact ⟨(s.timer t).active, rfl⟩
  | delWorker w => exact ⟨(s.timer t).active, by simp [taskProc]⟩

theorem Sched.taskProc_worker (task : ResTask τ) (s : Sched τ) (t : τ) :
    ((taskProc task s).timer t).worker = (s.timer t).worker := by
  obtain ⟨active, h⟩ := taskProc_timer task s t
  rw [h]

theorem Sched.taskProc_info (task : ResTask τ) (s : Sched τ) (t : τ) :
    ((taskProc task s).timer t).info = (s.timer t).info := by
  obtain ⟨active, h⟩ := taskProc_timer task s t
  rw [h]

/-- The maintenance thread opens the timer: it was created at the worker's side. -/
def TimerRes.Opens (r : TimerRes) : Prop :=
  r.active = .notUse ∧ ∃ info ∈ r.info, info.instId ≠ 0

instance (r : TimerRes) : Decidable r.Opens :=
  inferInstanceAs (Decidable (r.active = .notUse ∧ ∃ info ∈ r.info, info.instId ≠ 0))

namespace ResParam

/-- `resource_task_proc`. -/
def resourceTaskProc (peeks : Nat) (p : ResParam τ) : ResParam τ :=
  ⟨(drain Sched.taskProc peeks p.queue p.sched).2, (drain Sched.taskProc peeks p.queue p.sched).1⟩

/-- `open_timer_resource`. The state is written before the task is queued, and a
failure of `set_resource_task` is only returned. -/
def openTimerResource (locked : Bool) (t : τ) (p : ResParam τ) : ResParam τ :=
  ⟨p.sched.setRes t { p.sched.timer t with active := .running },
    (setResourceTask locked (.addTimer t) p.queue).1⟩

/-- `close_timer_resource`. -/
def closeTimerResource (locked : Bool) (t : τ) (p : ResParam τ) : ResParam τ :=
  ⟨p.sched.setRes t { p.sched.timer t with active := .delete },
    (setResourceTask locked (.delTimer t) p.queue).1⟩

/-- The body of `maintain_worker_timer_resource` for one timer slot. It reads the
instance of the timer through the info pointer. -/
def maintainTimer (locked : Bool) (t : τ) (p : ResParam τ) : Option (ResParam τ) :=
  (p.sched.timer t).info.map fun info =>
    if (p.sched.timer t).active = .notUse ∧ info.instId = 0 then p
    else if (p.sched.timer t).active = .running ∧ info.instId = 0 then
      p.closeTimerResource locked t
    else if (p.sched.timer t).active = .notUse ∧ info.instId ≠ 0 then
      p.openTimerResource locked t
    else p

/-- A worker writes the info block of one of its timers. -/
def writeTimer (t : τ) (info : TimerInfo) (p : ResParam τ) : Option (ResParam τ) :=
  (p.sched.timer t).info.map fun _ =>
    { p with sched := p.sched.setRes t { p.sched.timer t with info := some info } }

end ResParam

/-- What can happen to the timers of the daemon. `schedule` is the second part of a
tick; the fuel bounds the walks. -/
inductive ResEvent (τ : Type)
  | write (t : τ) (info : TimerInfo)
  | maintain (locked : Bool) (t : τ)
  | tasks (peeks : Nat)
  | schedule (fuel : Nat) (now tick : Int) (count : Nat)

/-- The event system of the timers. -/
def ResEvent.step : ResEvent τ → ResParam τ → Option (ResParam τ)
  | .write t info, p => p.writeTimer t info
  | .maintain locked t, p => p.maintainTimer locked t
  | .tasks peeks, p => some (p.resourceTaskProc peeks)
  | .schedule fuel now tick count, p =>
    (p.sched.scheduleTimerAndTicker fuel now tick count).map fun s => { p with sched := s }

namespace ResParam

/-- The number of `LM_RES_TASK_ADD_TIMER` tasks for `t` in the queue. -/
def pending (p : ResParam τ) (t : τ) : Nat := additions p.queue.entries t

/-- The daemon before any timer was opened. -/
def init (info : τ → TimerInfo) (worker : τ → Nat) : ResParam τ where
  sched :=
    { timer := fun t => ⟨.notUse, some (info t), [], worker t⟩
      list := fun _ => initTmlistResource
      action := fun _ => ⟨fun _ => 0⟩
      touched := []
      awakened := [] }
  queue := BArray.empty

theorem positions_init (info : τ → TimerInfo) (worker : τ → Nat) (t : τ) :
    (init info worker).sched.positions t = 0 := by
  simp [init, Sched.positions, Sched.occ, ListId.all, initTmlistResource]

end ResParam

/-- Handling a timer slot opens the timer, closes it, or changes nothing. -/
theorem ResParam.maintainTimer_cases {locked : Bool} {t : τ} {p p' : ResParam τ}
    (h : p.maintainTimer locked t = some p') :
    ((∃ info, (p.sched.timer t).info = some info ∧ info.instId = 0) ∧
        (p.sched.timer t).active = .running ∧ p' = p.closeTimerResource locked t) ∨
      ((p.sched.timer t).Opens ∧ p' = p.openTimerResource locked t) ∨
      p' = p := by
  unfold maintainTimer at h
  obtain ⟨info, hinfo, rfl⟩ := Option.map_eq_some_iff.mp h
  split_ifs with hempty hclose hopen
  · exact Or.inr (Or.inr rfl)
  · exact Or.inl ⟨⟨info, hinfo, hclose.2⟩, hclose.1, rfl⟩
  · exact Or.inr (Or.inl ⟨⟨hopen.1, info, hinfo, hopen.2⟩, rfl⟩)
  · exact Or.inr (Or.inr rfl)

/-- With an info block to read, handling a timer slot succeeds. A timer that exists at
the worker's side is in use afterwards, and no other record changes. -/
theorem ResParam.exists_maintainTimer (locked : Bool) {t : τ} {p : ResParam τ} {info : TimerInfo}
    (hinfo : (p.sched.timer t).info = some info) :
    ∃ p', p.maintainTimer locked t = some p' ∧
      (info.instId ≠ 0 → (p'.sched.timer t).active ≠ .notUse) ∧
      ∀ u, u ≠ t → p'.sched.timer u = p.sched.timer u := by
  unfold maintainTimer
  rw [hinfo, Option.map_some]
  split_ifs with hempty hclose hopen
  · exact ⟨p, rfl, fun hinst => absurd hempty.2 hinst, fun _ _ => rfl⟩
  · exact ⟨_, rfl, fun hinst => absurd hclose.2 hinst, fun u hu => Function.update_of_ne hu _ _⟩
  · exact ⟨_, rfl, fun _ => by simp [openTimerResource], fun u hu => Function.update_of_ne hu _ _⟩
  · exact ⟨p, rfl, fun hinst hnot => hopen ⟨hnot, hinst⟩, fun _ _ => rfl⟩

end LMiced
