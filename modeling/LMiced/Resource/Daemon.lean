import LMiced.Resource.Tasks

/-!
# Workers, their table and their shared memory

The daemon and the workers meet in a table of 200 worker records in shared
memory. A worker registers itself in the first free record
(`lmice_spi::init` in `spi/main.cpp`) and puts its messages, timers and actions
into a shared memory of its own, named by its instance id. The trust thread
clears the records of dead workers (`trust/trust_manage.c`), and the maintenance
thread opens, synchronises and closes the workers at the server's side
(`resource/resource_manage.c`).

`DaemonEvent.step` puts these together with the timers and the task queue to an
event system, in which a maintenance pass, a pass of the trust thread and a tick
of the timer thread are single events.

Shared memory is referred to by name, and an address is the name of what is
mapped there.
-/

namespace LMiced

/-! ## Data model -/

/-- `DEFAULT_WORKER_SIZE` of the daemon and `MAX_CLIENT_COUNT` of the workers. -/
def defaultWorkerSize : Nat := 200

/-- One of the 128 message, timer or action slots of a worker. -/
abbrev ResSlot := Fin 128

/-- A timer resource by the table slot of its worker and its own slot there. -/
abbrev TimerPtr := Nat × ResSlot

/-- `LMICE_VERSION`. -/
def lmiceVersion : Nat := 1

/-- `PUBLISH_RESOURCE_TYPE`. -/
def publishResourceType : Nat := 1

/-- `SUBSCRIBE_RESOURCE_TYPE`. -/
def subscribeResourceType : Nat := 2

/-- `CUSTOM_EVENT_TYPE`. -/
def customEventType : Nat := 5

/-- `DEFAULT_SHM_SIZE`. -/
def defaultShmSize : Nat := 4096

/-- `enum lmice_worker_state_e`, and 0 in a record that was cleared. -/
inductive WorkerState
  | unused
  | running
  | modified
  | dead
deriving DecidableEq, Repr

/-- `lm_worker_info_t`, a record of the worker table. -/
structure WorkerInfo where
  version : Nat
  state : WorkerState
  processId : Int
  threadId : Nat
  typeId : Nat
  instId : Nat
deriving DecidableEq, Repr

/-- A record that was cleared by `memset`. -/
def WorkerInfo.zero : WorkerInfo := ⟨0, .unused, 0, 0, 0, 0⟩

/-- `lm_mesg_info_t` without its state, which is not used here. -/
structure MesgInfo where
  type : Nat
  size : Nat
  period : Int
  instId : Nat
  typeId : Nat

/-- `lm_action_info_t` without the referenced events and the state, which are not
used here. -/
structure ActionInfo where
  type : Nat
  size : Nat
  instId : Nat

/-- `lm_worker_t`, the shared memory of a worker. -/
structure WorkerShm where
  state : WorkerState
  mesg : ResSlot → MesgInfo
  timer : ResSlot → TimerInfo
  action : ResSlot → ActionInfo

/-- The info block of a timer that was never registered. -/
def TimerInfo.zero : TimerInfo := ⟨0, 0, 0, 0, 0, 0, 0, ⟨fun _ => 0⟩⟩

/-- Shared memory as it is created. -/
def WorkerShm.zero : WorkerShm :=
  ⟨.unused, fun _ => ⟨0, 0, 0, 0, 0⟩, fun _ => TimerInfo.zero, fun _ => ⟨0, 0, 0⟩⟩

/-- `lm_worker_res_t`, the server's side of a worker, apart from its timers. `addr`
is the mapped shared memory. `block` is the shared memory that the info pointers
of the messages, timers and actions point into, `none` for null pointers; it is
written when a worker is opened and left as it is when the worker is closed.
`mesg` and `action` are the address of each message and whether each action is
active. -/
structure WorkerRes where
  addr : Option Nat
  block : Option Nat
  mesg : ResSlot → Option Nat
  action : ResSlot → Bool

/-- The daemon and the shared memory it works on. -/
structure Daemon extends ResParam TimerPtr where
  table : Nat → WorkerInfo
  worker : Nat → WorkerRes
  shm : Nat → WorkerShm

/-! ## The side of the workers -/

namespace WorkerShm

/-- The scan of the register functions for a slot with `inst_id == 0`. -/
def firstFree (instId : ResSlot → Nat) : Option ResSlot :=
  (List.finRange 128).find? fun i => instId i = 0

theorem firstFree_eq_none_iff (instId : ResSlot → Nat) :
    firstFree instId = none ↔ ∀ i, instId i ≠ 0 := by
  simp [firstFree]

theorem firstFree_eq_some {instId : ResSlot → Nat} {i : ResSlot} (h : firstFree instId = some i) :
    instId i = 0 ∧ ∀ j, j < i → instId j ≠ 0 := by
  obtain ⟨hi, k, hk, hget, hbefore⟩ := List.find?_eq_some_iff_getElem.mp h
  rw [List.getElem_finRange] at hget
  refine ⟨of_decide_eq_true hi, fun j hj => ?_⟩
  have hjk : j.val < k := by
    rw [← hget] at hj
    exact hj
  simpa using hbefore j.val hjk

/-- `register_publish` and `register_subscribe` fill a free message slot. -/
def registerMesg (info : MesgInfo) (shm : WorkerShm) : WorkerShm :=
  match firstFree fun i => (shm.mesg i).instId with
  | none => shm
  | some i => { shm with mesg := Function.update shm.mesg i info }

/-- `register_tick_event` and `register_timer_event` fill a free timer slot; they
write the state of the timer only in part. -/
def registerTimer (fill : TimerInfo → TimerInfo) (shm : WorkerShm) : WorkerShm :=
  match firstFree fun i => (shm.timer i).instId with
  | none => shm
  | some i => { shm with timer := Function.update shm.timer i (fill (shm.timer i)) }

/-- `register_publish`. -/
def registerPublish (instId typeId size : Nat) : WorkerShm → WorkerShm :=
  registerMesg ⟨publishResourceType, size, 0, instId, typeId⟩

/-- `register_subscribe`. -/
def registerSubscribe (instId typeId : Nat) : WorkerShm → WorkerShm :=
  registerMesg ⟨subscribeResourceType, defaultShmSize, 0, instId, typeId⟩

/-- `register_tick_event`. -/
def registerTickEvent (instId : Nat) (period : Int) (size : UInt32) (due : Int) :
    WorkerShm → WorkerShm :=
  registerTimer fun old =>
    { type := tickerType, size, period, due, instId
      timer := ⟨0, 0, ⟨Function.update old.timer.state.value timerStatePos 0⟩⟩ }

/-- `register_timer_event`. -/
def registerTimerEvent (instId : Nat) (period : Int) (size : UInt32) (due : Int) :
    WorkerShm → WorkerShm :=
  registerTimer fun old =>
    { type := timerType, size, period, due, instId, timer := ⟨0, 0, old.timer.state⟩ }

/-- `register_custom_event`. -/
def registerCustomEvent (instId size : Nat) (shm : WorkerShm) : WorkerShm :=
  match firstFree fun i => (shm.action i).instId with
  | none => shm
  | some i => { shm with action := Function.update shm.action i ⟨customEventType, size, instId⟩ }

end WorkerShm

/-- A call of one of the register functions. The instance id, which they compute by
hashing their arguments, is given with the call. -/
inductive Registration
  | publish (instId typeId size : Nat)
  | subscribe (instId typeId : Nat)
  | tickEvent (instId : Nat) (period : Int) (size : UInt32) (due : Int)
  | timerEvent (instId : Nat) (period : Int) (size : UInt32) (due : Int)
  | customEvent (instId size : Nat)

/-- What the call does to the shared memory of the worker. -/
def Registration.apply : Registration → WorkerShm → WorkerShm
  | .publish instId typeId size => .registerPublish instId typeId size
  | .subscribe instId typeId => .registerSubscribe instId typeId
  | .tickEvent instId period size due => .registerTickEvent instId period size due
  | .timerEvent instId period size due => .registerTimerEvent instId period size due
  | .customEvent instId size => .registerCustomEvent instId size

namespace Daemon

/-! ## Shared memory -/

/-- The info blocks as the timers reach them: every info pointer leads into the
block of its worker. This is applied after every change of the shared memory or
of the pointers. -/
def refresh (d : Daemon) : Daemon :=
  { d with
    sched :=
      { d.sched with
        timer := fun t =>
          { d.sched.timer t with
            info := (d.worker t.1).block.map fun n => (d.shm n).timer t.2 } } }

/-- The process of a worker writes its shared memory. -/
def write (n : Nat) (f : WorkerShm → WorkerShm) (d : Daemon) : Daemon :=
  refresh { d with shm := Function.update d.shm n (f (d.shm n)) }

/-- The table slot that has the shared memory `n` mapped. -/
def mappedBy (d : Daemon) (n : Nat) : Option Nat :=
  (List.range defaultWorkerSize).find? fun w => (d.worker w).addr = some n

/-- What the timer thread wrote through the info pointers is in the shared memory. -/
def store (d : Daemon) : Daemon :=
  refresh
    { d with
      shm := fun n =>
        match d.mappedBy n with
        | none => d.shm n
        | some w =>
          { d.shm n with
            timer := fun i => ((d.sched.timer (w, i)).info).getD ((d.shm n).timer i) } }

/-! ## Registration and trust -/

/-- The scan of `lmice_spi::init` for a record with `inst_id == 0`. -/
def freeSlot (d : Daemon) : Option Nat :=
  (List.range defaultWorkerSize).find? fun w => (d.table w).instId = 0

/-- `lmice_spi::init`. The record is written in the state `WORKER_MODIFIED`, the
maintenance thread is not woken, and a full table goes unnoticed. -/
def spiInit (processId : Int) (threadId instId : Nat) (d : Daemon) : Daemon :=
  match d.freeSlot with
  | none => d
  | some w =>
    { d with
      table := Function.update d.table w
        ⟨lmiceVersion, .modified, processId, threadId, 0, instId⟩ }

/-- `lmice_spi::commit`. It writes the state of the shared memory of the worker. -/
def commit (n : Nat) (d : Daemon) : Daemon :=
  { d with shm := Function.update d.shm n { d.shm n with state := .modified } }

end Daemon

/-- The checks of `trust_thread_proc`: the process or the thread of the worker is
gone. `deadProcesses` and `deadThreads` are those that `kill` and `pthread_kill`
do not find. -/
def WorkerInfo.gone (deadProcesses : List Int) (deadThreads : List Nat) (r : WorkerInfo) : Prop :=
  r.instId ≠ 0 ∧ r.version = lmiceVersion ∧
    ((r.processId ≠ 0 ∧ r.processId ∈ deadProcesses) ∨
      (r.threadId ≠ 0 ∧ r.threadId ∈ deadThreads))

instance (deadProcesses : List Int) (deadThreads : List Nat) (r : WorkerInfo) :
    Decidable (r.gone deadProcesses deadThreads) := by
  unfold WorkerInfo.gone
  infer_instance

namespace Daemon

/-- `trust_thread_proc`. -/
def trustThreadProc (deadProcesses : List Int) (deadThreads : List Nat) (d : Daemon) : Daemon :=
  { d with
    table := fun w =>
      if (d.table w).gone deadProcesses deadThreads then { WorkerInfo.zero with state := .dead }
      else d.table w }

/-! ## Maintenance -/

/-- The body of `maintain_worker_message_resource` for one message. `refused` holds
the names of the shared memories that cannot be opened. -/
def maintainMesg (refused : List Nat) (info : MesgInfo) (addr : Option Nat) : Option Nat :=
  if addr = none ∧ info.instId = 0 then addr
  else if addr ≠ none ∧ info.instId = 0 then none
  else if addr = none ∧ info.instId ≠ 0 then
    if info.instId ∈ refused then none else some info.instId
  else addr

/-- The body of `maintain_worker_action_resource` for one action. -/
def maintainAction (info : ActionInfo) (active : Bool) : Bool :=
  if active = false ∧ info.instId = 0 then active
  else if active = true ∧ info.instId = 0 then false
  else if active = false ∧ info.instId ≠ 0 then true
  else active

/-- Every timer of the worker gets the state `LM_TIMER_NOTUSE`. -/
def resetTimers (w : Nat) (s : Sched TimerPtr) : Sched TimerPtr :=
  { s with
    timer := fun t => if t.1 = w then { s.timer t with active := .notUse } else s.timer t }

/-- `open_worker_resource` with `init_worker_resource`, when the shared memory and
the event can be opened. -/
def openWorkerResource (w : Nat) (d : Daemon) : Daemon :=
  refresh
    { d with
      worker := Function.update d.worker w
        ⟨some (d.table w).instId, some (d.table w).instId, fun _ => none, fun _ => false⟩
      sched := resetTimers w d.sched }

/-- `close_worker_resource`. The info pointers keep their values, and a failure of
`set_resource_task` is only returned. No other thread is in the queue during a
pass, so its lock is free. -/
def closeWorkerResource (w : Nat) (d : Daemon) : Daemon :=
  { d with
    worker := Function.update d.worker w
      { d.worker w with addr := none, mesg := fun _ => none, action := fun _ => false }
    sched := resetTimers w d.sched
    queue := (setResourceTask false (.delWorker w) d.queue).1 }

/-- `maintain_worker_timer_resource`. -/
def maintainTimers (w : Nat) (is : List ResSlot) (p : ResParam TimerPtr) :
    Option (ResParam TimerPtr) :=
  is.foldlM (fun p i => p.maintainTimer false (w, i)) p

/-- The messages and actions of the worker follow the info blocks in the shared
memory `n`, and the worker runs. -/
def follow (refused : List Nat) (w n : Nat) (d : Daemon) : Daemon :=
  { d with
    worker := Function.update d.worker w
      { d.worker w with
        mesg := fun i => maintainMesg refused ((d.shm n).mesg i) ((d.worker w).mesg i)
        action := fun i => maintainAction ((d.shm n).action i) ((d.worker w).action i) }
    table := Function.update d.table w { d.table w with state := .running } }

/-- The end of the body of `maintain_worker_resource`, for a worker in the state
`WORKER_MODIFIED`. It reads the info blocks; `none` stands for a null pointer. -/
def syncWorker (refused : List Nat) (w : Nat) (d : Daemon) : Option Daemon :=
  (d.worker w).block.bind fun n =>
    (maintainTimers w (List.finRange 128) d.toResParam).map fun p =>
      { d.follow refused w n with toResParam := p }

/-- A worker that is not mapped is opened, if that succeeds. -/
def openIfUnmapped (refused : List Nat) (w : Nat) (d : Daemon) : Daemon :=
  if (d.worker w).addr = none ∧ (d.table w).instId ∉ refused then d.openWorkerResource w else d

/-- The body of `maintain_worker_resource` for one table slot. -/
def maintainWorker (refused : List Nat) (w : Nat) (d : Daemon) : Option Daemon :=
  if (d.table w).state = .running then some d
  else if (d.worker w).addr = none ∧ (d.table w).instId = 0 then some d
  else if (d.worker w).addr ≠ none ∧ (d.table w).instId = 0 then some (d.closeWorkerResource w)
  else if (d.table w).state = .modified then (d.openIfUnmapped refused w).syncWorker refused w
  else some (d.openIfUnmapped refused w)

/-- The loop of `maintain_worker_resource` over some table slots. -/
def maintainWorkers (refused : List Nat) (ws : List Nat) (d : Daemon) : Option Daemon :=
  ws.foldlM (fun d w => d.maintainWorker refused w) d

/-- `maintain_worker_resource`. -/
def maintainWorkerResource (refused : List Nat) (d : Daemon) : Option Daemon :=
  d.maintainWorkers refused (List.range defaultWorkerSize)

/-! ## The tick -/

/-- What `resource_task_proc` does to the worker table: `remove_worker_from_res`
clears the record of the table slot. -/
def taskTable (table : Nat → WorkerInfo) : ResTask TimerPtr → Nat → WorkerInfo
  | .delWorker w => Function.update table w { table w with instId := 0, state := .unused }
  | _ => table

/-- One turn of the loop of `resource_task_proc`, `none` when the queue is empty. -/
def taskTurn (d : Daemon) : Option Daemon :=
  (peekResourceTask d.queue).map fun x =>
    { d with
      sched := Sched.taskProc x.1 d.sched
      queue := x.2
      table := taskTable d.table x.1 }

/-- At most the given number of turns of that loop. -/
def taskTurns : Nat → Daemon → Daemon
  | 0, d => d
  | n + 1, d =>
    match d.taskTurn with
    | none => d
    | some d' => taskTurns n d'

/-- `resource_task_proc`. The queue has at most 128 tasks. -/
def resourceTaskProc (d : Daemon) : Daemon := d.taskTurns resTasklistSize

/-- Forget which info pointers were dereferenced. -/
def untouched (d : Daemon) : Daemon := { d with sched := { d.sched with touched := [] } }

/-- A tick of the timer thread: `resource_task_proc`, then
`schedule_timer_and_ticker`. -/
def tick (fuel : Nat) (now simTime : Int) (count : Nat) (d : Daemon) : Option Daemon :=
  let d' := d.untouched.resourceTaskProc
  (d'.sched.scheduleTimerAndTicker fuel now simTime count).map fun s => store { d' with sched := s }

/-- `create_resource_service`: the table is empty but for slot 0, which the daemon
takes for itself, without setting the info pointers. -/
def createResourceService (processId : Int) (instId : Nat) (shm : Nat → WorkerShm) : Daemon where
  sched :=
    { timer := fun t => ⟨.notUse, none, [], t.1⟩
      list := fun _ => initTmlistResource
      action := fun _ => ⟨fun _ => 0⟩
      touched := []
      awakened := [] }
  queue := BArray.empty
  table := Function.update (fun _ => WorkerInfo.zero) 0
    ⟨lmiceVersion, .running, processId, 0, 0, instId⟩
  worker := Function.update (fun _ => ⟨none, none, fun _ => none, fun _ => false⟩) 0
    ⟨some instId, none, fun _ => none, fun _ => false⟩
  shm := Function.update shm instId { WorkerShm.zero with state := .running }

end Daemon

/-! ## The event system -/

/-- What can happen to the daemon. `register` is a call of a register function by
the worker with the shared memory `n`, `write` any change that the worker makes
to that memory. -/
inductive DaemonEvent
  | spiInit (processId : Int) (threadId instId : Nat)
  | register (n : Nat) (r : Registration)
  | write (n : Nat) (f : WorkerShm → WorkerShm)
  | commit (n : Nat)
  | trust (deadProcesses : List Int) (deadThreads : List Nat)
  | maintain (refused : List Nat)
  | tick (fuel : Nat) (now simTime : Int) (count : Nat)

/-- The event system of the daemon. -/
def DaemonEvent.step : DaemonEvent → Daemon → Option Daemon
  | .spiInit processId threadId instId, d => some (d.spiInit processId threadId instId)
  | .register n r, d => some (d.write n r.apply)
  | .write n f, d => some (d.write n f)
  | .commit n, d => some (d.commit n)
  | .trust deadProcesses deadThreads, d => some (d.trustThreadProc deadProcesses deadThreads)
  | .maintain refused, d => d.maintainWorkerResource refused
  | .tick fuel now simTime count, d => d.tick fuel now simTime count

namespace Daemon

/-! ## What the operations leave alone -/

section Frame

variable (d : Daemon) (t : TimerPtr) (w : Nat)

@[simp] theorem refresh_worker : d.refresh.worker = d.worker := rfl
@[simp] theorem refresh_shm : d.refresh.shm = d.shm := rfl
@[simp] theorem refresh_active : (d.refresh.sched.timer t).active = (d.sched.timer t).active := rfl
@[simp] theorem refresh_timer_worker :
    (d.refresh.sched.timer t).worker = (d.sched.timer t).worker := rfl

@[simp] theorem resetTimers_timer_worker (s : Sched TimerPtr) :
    ((resetTimers w s).timer t).worker = (s.timer t).worker := by
  unfold resetTimers
  dsimp only
  split_ifs <;> rfl

@[simp] theorem openIfUnmapped_table (refused : List Nat) :
    (d.openIfUnmapped refused w).table = d.table := by
  unfold openIfUnmapped
  split_ifs <;> rfl

end Frame

/-- What the handling of the timers of the worker `w` can do: it touches their
activity only and queues tasks for them. -/
structure TimersHandled (w : Nat) (p p' : ResParam TimerPtr) : Prop where
  list : p'.sched.list = p.sched.list
  info : ∀ t, (p'.sched.timer t).info = (p.sched.timer t).info
  worker : ∀ t, (p'.sched.timer t).worker = (p.sched.timer t).worker
  others : ∀ t, t.1 ≠ w → p'.sched.timer t = p.sched.timer t
  keeps : ∀ task ∈ p.queue.entries, task ∈ p'.queue.entries
  adds : ∀ task ∈ p'.queue.entries,
    task ∈ p.queue.entries ∨ ∃ i, task = .addTimer (w, i) ∨ task = .delTimer (w, i)

namespace TimersHandled

variable {w : Nat} {p p' p'' : ResParam TimerPtr}

theorem refl : TimersHandled w p p :=
  ⟨rfl, fun _ => rfl, fun _ => rfl, fun _ _ => rfl, fun _ h => h, fun _ h => Or.inl h⟩

theorem trans (h : TimersHandled w p p') (h' : TimersHandled w p' p'') : TimersHandled w p p'' where
  list := h'.list.trans h.list
  info t := (h'.info t).trans (h.info t)
  worker t := (h'.worker t).trans (h.worker t)
  others t ht := (h'.others t ht).trans (h.others t ht)
  keeps task htask := h'.keeps task (h.keeps task htask)
  adds task htask := (h'.adds task htask).elim (h.adds task) Or.inr

/-- Setting the activity of a timer and queueing a task for it. -/
theorem of_set {i : ResSlot} {active : TimerState} {task : ResTask TimerPtr}
    (htask : task = .addTimer (w, i) ∨ task = .delTimer (w, i)) :
    TimersHandled w p
      ⟨p.sched.setRes (w, i) { p.sched.timer (w, i) with active := active },
        (setResourceTask false task p.queue).1⟩ where
  list := rfl
  info t := by
    by_cases ht : t = (w, i)
    · subst ht
      simp
    · simp [ht]
  worker t := by
    by_cases ht : t = (w, i)
    · subst ht
      simp
    · simp [ht]
  others t ht := by
    have hne : t ≠ (w, i) := fun h => ht (congrArg Prod.fst h)
    simp [hne]
  keeps _ hmem := mem_setResourceTask_of_mem hmem false task
  adds task' hmem := by
    rcases mem_setResourceTask hmem with hmem | rfl
    · exact Or.inl hmem
    · exact Or.inr ⟨i, htask⟩

theorem of_maintainTimer {i : ResSlot} (h : p.maintainTimer false (w, i) = some p') :
    TimersHandled w p p' := by
  rcases ResParam.maintainTimer_cases h with ⟨_, _, rfl⟩ | ⟨_, rfl⟩ | rfl
  · exact of_set (Or.inr rfl)
  · exact of_set (Or.inl rfl)
  · exact refl

theorem of_maintainTimers {is : List ResSlot} (h : maintainTimers w is p = some p') :
    TimersHandled w p p' :=
  Loop.foldlM_invariant (I := TimersHandled w p)
    (fun _ _ _ hstep hp => hp.trans (of_maintainTimer hstep)) h refl

/-- The timer `i` is in use in `p'` if in `p` it exists at the worker's side. -/
def InUse (w : Nat) (p : ResParam TimerPtr) (i : ResSlot) (p' : ResParam TimerPtr) : Prop :=
  ∀ info, (p.sched.timer (w, i)).info = some info → info.instId ≠ 0 →
    (p'.sched.timer (w, i)).active ≠ .notUse

/-- With info blocks to read, the loop over the timers of a worker succeeds, and the
timers that exist at the worker's side are in use afterwards. -/
theorem exists_maintainTimers (is : List ResSlot)
    (hinfo : ∀ i, ∃ info, (p.sched.timer (w, i)).info = some info) :
    ∃ p', maintainTimers w is p = some p' ∧ TimersHandled w p p' ∧ ∀ i ∈ is, InUse w p i p' := by
  have hbody : ∀ i p₁, TimersHandled w p p₁ → ∃ p₂, p₁.maintainTimer false (w, i) = some p₂ ∧
      TimersHandled w p p₂ ∧ InUse w p i p₂ ∧ ∀ j, InUse w p j p₁ → InUse w p j p₂ := by
    intro i p₁ hp₁
    obtain ⟨info, hi⟩ := hinfo i
    have hi₁ : (p₁.sched.timer (w, i)).info = some info := (hp₁.info (w, i)).trans hi
    obtain ⟨p₂, hstep, huse, hothers⟩ := ResParam.exists_maintainTimer false hi₁
    have husei : InUse w p i p₂ := fun info' hi' => by
      cases hi.symm.trans hi'
      exact huse
    refine ⟨p₂, hstep, hp₁.trans (of_maintainTimer hstep), husei, fun j hj => ?_⟩
    rcases eq_or_ne j i with rfl | hne
    · exact husei
    · intro info' hj'
      rw [hothers (w, j) fun h => hne (congrArg Prod.snd h)]
      exact hj info' hj'
  obtain ⟨p', hrun, hp', hall, _⟩ := Loop.foldlM_forall (l := is) hbody refl
  exact ⟨p', hrun, hp', hall⟩

end TimersHandled

/-! ## Handling a table slot -/

variable {refused : List Nat} {w : Nat} {d d' : Daemon}

theorem syncWorker_eq_some (h : d.syncWorker refused w = some d') :
    ∃ n p, (d.worker w).block = some n ∧ TimersHandled w d.toResParam p ∧
      d' = { d.follow refused w n with toResParam := p } := by
  obtain ⟨n, hn, hrest⟩ := Option.bind_eq_some_iff.mp h
  obtain ⟨p, hp, rfl⟩ := Option.map_eq_some_iff.mp hrest
  exact ⟨n, p, hn, TimersHandled.of_maintainTimers hp, rfl⟩

/-- Handling a table slot does nothing, closes the worker, or opens it if need be
and then, in the state `WORKER_MODIFIED`, synchronises it. -/
theorem maintainWorker_cases (h : d.maintainWorker refused w = some d') :
    (((d.table w).state = .running ∨ ((d.worker w).addr = none ∧ (d.table w).instId = 0)) ∧
      d' = d) ∨
    ((d.table w).state ≠ .running ∧ (d.worker w).addr ≠ none ∧ (d.table w).instId = 0 ∧
      d' = d.closeWorkerResource w) ∨
    ((d.table w).instId ≠ 0 ∧ (d.table w).state = .modified ∧
      (d.openIfUnmapped refused w).syncWorker refused w = some d') ∨
    ((d.table w).instId ≠ 0 ∧ (d.table w).state ≠ .running ∧ (d.table w).state ≠ .modified ∧
      d' = d.openIfUnmapped refused w) := by
  unfold maintainWorker at h
  split_ifs at h with hrun hempty hclose hmod
  · exact Or.inl ⟨Or.inl hrun, (Option.some.inj h).symm⟩
  · exact Or.inl ⟨Or.inr hempty, (Option.some.inj h).symm⟩
  · exact Or.inr (Or.inl ⟨hrun, hclose.1, hclose.2, (Option.some.inj h).symm⟩)
  all_goals
    have hinst : (d.table w).instId ≠ 0 := fun h0 => by
      rcases Decidable.em ((d.worker w).addr = none) with haddr | haddr
      · exact hempty ⟨haddr, h0⟩
      · exact hclose ⟨haddr, h0⟩
  · exact Or.inr (Or.inr (Or.inl ⟨hinst, hmod, h⟩))
  · exact Or.inr (Or.inr (Or.inr ⟨hinst, hrun, hmod, (Option.some.inj h).symm⟩))

/-- What the handling of the table slot `w` can do. The record of the slot keeps its
instance, everything at the other slots stays as it is, and tasks are queued for
`w` only, the removal of the worker only when the record is empty. -/
structure SlotHandled (w : Nat) (d d' : Daemon) : Prop where
  instId : ∀ v, (d'.table v).instId = (d.table v).instId
  table : ∀ v, v ≠ w → d'.table v = d.table v
  worker : ∀ v, v ≠ w → d'.worker v = d.worker v
  shm : d'.shm = d.shm
  list : d'.sched.list = d.sched.list
  owner : ∀ t, (d'.sched.timer t).worker = (d.sched.timer t).worker
  active : ∀ t, t.1 ≠ w → (d'.sched.timer t).active = (d.sched.timer t).active
  keeps : ∀ task ∈ d.queue.entries, task ∈ d'.queue.entries
  adds : ∀ task ∈ d'.queue.entries, task ∈ d.queue.entries ∨
    (task = .delWorker w ∧ (d.table w).instId = 0) ∨
    ((d.table w).instId ≠ 0 ∧ ∃ i, task = .addTimer (w, i) ∨ task = .delTimer (w, i))

namespace SlotHandled

theorem refl : SlotHandled w d d :=
  ⟨fun _ => rfl, fun _ _ => rfl, fun _ _ => rfl, rfl, rfl, fun _ => rfl, fun _ _ => rfl,
    fun _ h => h, fun _ h => Or.inl h⟩

theorem trans {d'' : Daemon} (h : SlotHandled w d d') (h' : SlotHandled w d' d'') :
    SlotHandled w d d'' where
  instId v := (h'.instId v).trans (h.instId v)
  table v hv := (h'.table v hv).trans (h.table v hv)
  worker v hv := (h'.worker v hv).trans (h.worker v hv)
  shm := h'.shm.trans h.shm
  list := h'.list.trans h.list
  owner t := (h'.owner t).trans (h.owner t)
  active t ht := (h'.active t ht).trans (h.active t ht)
  keeps task htask := h'.keeps task (h.keeps task htask)
  adds task htask := by
    rcases h'.adds task htask with hmem | hnew
    · exact h.adds task hmem
    · rw [h.instId w] at hnew
      exact Or.inr hnew

theorem of_openIfUnmapped : SlotHandled w d (d.openIfUnmapped refused w) := by
  unfold openIfUnmapped
  split_ifs
  · exact
      { instId := fun _ => rfl
        table := fun _ _ => rfl
        worker := fun v hv => Function.update_of_ne hv _ _
        shm := rfl
        list := rfl
        owner := fun t => by simp [openWorkerResource]
        active := fun t ht => by simp [openWorkerResource, resetTimers, ht]
        keeps := fun _ h => h
        adds := fun _ h => Or.inl h }
  · exact refl

theorem of_closeWorkerResource (hinst : (d.table w).instId = 0) :
    SlotHandled w d (d.closeWorkerResource w) where
  instId _ := rfl
  table _ _ := rfl
  worker v hv := Function.update_of_ne hv _ _
  shm := rfl
  list := rfl
  owner t := by simp [closeWorkerResource]
  active t ht := by simp [closeWorkerResource, resetTimers, ht]
  keeps _ h := mem_setResourceTask_of_mem h false (.delWorker w)
  adds task h := by
    rcases mem_setResourceTask h with h | rfl
    · exact Or.inl h
    · exact Or.inr (Or.inl ⟨rfl, hinst⟩)

theorem of_syncWorker (hinst : (d.table w).instId ≠ 0) (h : d.syncWorker refused w = some d') :
    SlotHandled w d d' := by
  obtain ⟨n, p, _, hhandled, rfl⟩ := syncWorker_eq_some h
  exact
    { instId := fun v => by
        by_cases hv : v = w
        · subst hv
          simp [follow]
        · simp [follow, hv]
      table := fun v hv => Function.update_of_ne hv _ _
      worker := fun v hv => Function.update_of_ne hv _ _
      shm := rfl
      list := hhandled.list
      owner := hhandled.worker
      active := fun t ht => congrArg TimerRes.active (hhandled.others t ht)
      keeps := hhandled.keeps
      adds := fun task htask =>
        (hhandled.adds task htask).imp_right fun hnew => Or.inr ⟨hinst, hnew⟩ }

theorem of_maintainWorker (h : d.maintainWorker refused w = some d') : SlotHandled w d d' := by
  rcases maintainWorker_cases h with
    ⟨_, rfl⟩ | ⟨_, _, hinst, rfl⟩ | ⟨hinst, _, hsync⟩ | ⟨_, _, _, rfl⟩
  · exact refl
  · exact of_closeWorkerResource hinst
  · have hopen : SlotHandled w d (d.openIfUnmapped refused w) := of_openIfUnmapped
    exact hopen.trans (of_syncWorker (by rwa [hopen.instId w]) hsync)
  · exact of_openIfUnmapped

end SlotHandled

/-! ## Invariants of passes and ticks -/

/-- What the handling of every table slot preserves, a maintenance pass preserves. -/
theorem maintainWorkerResource_invariant {I : Daemon → Prop}
    (hI : ∀ w d d', d.maintainWorker refused w = some d' → I d → I d')
    (h : d.maintainWorkerResource refused = some d') (hd : I d) : I d' :=
  Loop.foldlM_invariant hI h hd

theorem taskTurn_eq_some (h : d.taskTurn = some d') :
    ∃ task q, d.queue.entries = task :: q.entries ∧
      d' =
        { d with
          sched := Sched.taskProc task d.sched
          queue := q
          table := taskTable d.table task } := by
  obtain ⟨⟨task, q⟩, hpeek, rfl⟩ := Option.map_eq_some_iff.mp h
  exact ⟨task, q, peekResourceTask_eq_some hpeek, rfl⟩

/-- What every task preserves, `resource_task_proc` preserves. -/
theorem taskTurns_invariant {I : Daemon → Prop} (hI : ∀ d d', d.taskTurn = some d' → I d → I d')
    (n : Nat) (hd : I d) : I (d.taskTurns n) := by
  induction n generalizing d with
  | zero => exact hd
  | succ n ih =>
    unfold taskTurns
    cases hturn : d.taskTurn with
    | none => exact hd
    | some d₁ => exact ih (hI d d₁ hturn hd)

/-- `resource_task_proc` empties the queue. -/
theorem taskTurns_queue {n : Nat} (h : d.queue.entries.length ≤ n) :
    (d.taskTurns n).queue.entries = [] := by
  induction n generalizing d with
  | zero => exact List.eq_nil_of_length_eq_zero (Nat.le_zero.mp h)
  | succ n ih =>
    unfold taskTurns
    cases hturn : d.taskTurn with
    | none => exact peekResourceTask_eq_none (Option.map_eq_none_iff.mp hturn)
    | some d₁ =>
      obtain ⟨task, q, hq, rfl⟩ := taskTurn_eq_some hturn
      rw [hq] at h
      exact ih (Nat.le_of_succ_le_succ h)

/-- What every task and the scheduling preserve, a tick preserves. -/
theorem tick_invariant {I : Daemon → Prop} {fuel count : Nat} {now simTime : Int}
    (htouch : ∀ d, I d → I d.untouched) (htask : ∀ d d', d.taskTurn = some d' → I d → I d')
    (hsched : ∀ d s, d.sched.scheduleTimerAndTicker fuel now simTime count = some s → I d →
      I (store { d with sched := s }))
    (h : d.tick fuel now simTime count = some d') (hd : I d) : I d' := by
  obtain ⟨s, hs, rfl⟩ := Option.map_eq_some_iff.mp h
  exact hsched _ s hs (taskTurns_invariant htask _ (htouch d hd))

/-! ## Info pointers -/

/-- Every timer reaches its info block through its info pointer. -/
def Coherent (d : Daemon) : Prop :=
  ∀ t, (d.sched.timer t).info = (d.worker t.1).block.map fun n => (d.shm n).timer t.2

namespace Coherent

theorem of_refresh (d : Daemon) : d.refresh.Coherent := fun _ => rfl

theorem openIfUnmapped (hd : d.Coherent) : (d.openIfUnmapped refused w).Coherent := by
  unfold Daemon.openIfUnmapped
  split_ifs
  · exact of_refresh _
  · exact hd

theorem maintainWorker (hd : d.Coherent) (h : d.maintainWorker refused w = some d') :
    d'.Coherent := by
  have hopen : (d.openIfUnmapped refused w).Coherent := hd.openIfUnmapped
  rcases maintainWorker_cases h with
    ⟨_, rfl⟩ | ⟨_, _, _, rfl⟩ | ⟨_, _, hsync⟩ | ⟨_, _, _, rfl⟩
  · exact hd
  · intro t
    by_cases ht : t.1 = w
    · simpa [closeWorkerResource, resetTimers, ht] using hd t
    · simpa [closeWorkerResource, resetTimers, ht] using hd t
  · obtain ⟨n, p, _, hp, rfl⟩ := syncWorker_eq_some hsync
    intro t
    rw [hp.info t, hopen t]
    by_cases ht : t.1 = w
    · simp [follow, ht]
    · simp [follow, ht]
  · exact hopen

theorem step {e : DaemonEvent} (hd : d.Coherent) (h : e.step d = some d') : d'.Coherent := by
  cases e with
  | spiInit processId threadId instId =>
    cases h
    unfold spiInit
    split
    · exact hd
    · exact hd
  | register n r =>
    cases h
    exact of_refresh _
  | write n f =>
    cases h
    exact of_refresh _
  | commit n =>
    cases h
    intro t
    rw [show ((d.commit n).sched.timer t).info = (d.sched.timer t).info from rfl, hd t]
    refine congrArg (fun g => Option.map g (d.worker t.1).block) (funext fun m => ?_)
    by_cases hm : m = n
    · simp [commit, hm]
    · simp [commit, hm]
  | trust deadProcesses deadThreads =>
    cases h
    exact hd
  | maintain refused =>
    exact maintainWorkerResource_invariant (fun _ _ _ hstep hd => hd.maintainWorker hstep) h hd
  | tick fuel now simTime count =>
    refine tick_invariant (fun _ hd => hd) ?_ (fun _ _ _ _ => of_refresh _) h hd
    intro d d' hturn hd t
    obtain ⟨task, q, _, rfl⟩ := taskTurn_eq_some hturn
    exact (Sched.taskProc_info task d.sched t).trans (hd t)

theorem createResourceService (processId : Int) (instId : Nat) (shm : Nat → WorkerShm) :
    (Daemon.createResourceService processId instId shm).Coherent := by
  intro t
  by_cases ht : t.1 = 0
  · simp [Daemon.createResourceService, ht]
  · simp [Daemon.createResourceService, ht]

/-- With info pointers set, the synchronisation succeeds. -/
theorem exists_syncWorker (hd : d.Coherent) {n : Nat} (hblock : (d.worker w).block = some n)
    (refused : List Nat) :
    ∃ p, d.syncWorker refused w = some { d.follow refused w n with toResParam := p } ∧
      TimersHandled w d.toResParam p ∧ ∀ i, TimersHandled.InUse w d.toResParam i p := by
  have hinfo : ∀ i, ∃ info, (d.sched.timer (w, i)).info = some info := fun i =>
    ⟨(d.shm n).timer i, by rw [hd (w, i), hblock, Option.map_some]⟩
  obtain ⟨p, hrun, hp, hall⟩ := TimersHandled.exists_maintainTimers (List.finRange 128) hinfo
  refine ⟨p, ?_, hp, fun i => hall i (List.mem_finRange i)⟩
  unfold syncWorker
  rw [hblock, Option.bind_some, hrun, Option.map_some]

end Coherent

end Daemon

end LMiced
