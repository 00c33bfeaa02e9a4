import LMiced.Eal.Spinlock
import LMiced.Resource.Restask

/-!
# The task array under its lock

`set_resource_task` and `peek_resource_task` are called by different threads, and
`g_reslock` is all that keeps them apart. Here both functions are taken apart into the turns
of their loops and single copies of tasks, and any number of threads run them side by side.

* `restask_implements`: a function whose steps are not disturbed is the function of
  `Resource.Restask`;
* `restask_queue_of_run`: in every interleaving the completed calls have the answers of a
  queue with a capacity of 128, in the order in which they completed.
-/

namespace LMiced

open StateTransition

/-- A call of one of the two functions. -/
inductive RestaskFn
  | set (task : LmResTask)
  | peek (task : LmResTask)
deriving DecidableEq, Repr

/-- What the function returns when it does not get the lock, and the caller's task. -/
def RestaskFn.refused : RestaskFn → Int × LmResTask
  | .set task => (1, task)
  | .peek task => (1, task)

/-- The call, when `eal_spin_trylock` has given up and when it has not. -/
def RestaskFn.call : RestaskFn → Bool → RestaskCall
  | .set task, refused => .set refused task
  | .peek task, refused => .peek refused task

/-- The function in one step. -/
def RestaskFn.run (fn : RestaskFn) (tasks : Restask) : (Int × LmResTask) × Restask :=
  (fn.call false).step tasks

/-- The place of `g_restask[127]`. -/
def Restask.last : Fin resTasklistSize := ⟨127, Nat.lt_succ_self _⟩

/-- Where a thread is in its function, with the caller's task. -/
inductive RestaskPc
  /-- The head of the loop of `set_resource_task`. -/
  | scan (i : Nat) (task : LmResTask)
  /-- `memcpy(g_restask+i, task, sizeof(lm_res_task_t))`. -/
  | copy (i : Nat) (task : LmResTask)
  /-- The test of `peek_resource_task`. -/
  | test (task : LmResTask)
  /-- `memcpy(task, g_restask, sizeof(lm_res_task_t))`. -/
  | take (task : LmResTask)
  /-- The entry `i` within the `memmove`. -/
  | move (i : Nat) (task : LmResTask)
  /-- `g_restask[127].type = LM_RES_TASK_NOTUSE`. -/
  | clear (task : LmResTask)
  /-- Behind the critical part, with the return value. -/
  | leave (ret : Int) (task : LmResTask)
deriving DecidableEq, Repr

namespace RestaskPc

/-- The first step behind `eal_spin_trylock`. -/
def enter : RestaskFn → RestaskPc
  | .set task => .scan 0 task
  | .peek task => .test task

/-- One step of a thread that is inside. -/
def next : RestaskPc × Restask → Option (RestaskPc × Restask)
  | (.scan i task, tasks) =>
    if h : i < resTasklistSize then
      if (tasks ⟨i, h⟩).type = lmResTaskNotuse then some (.copy i task, tasks)
      else some (.scan (i + 1) task, tasks)
    else some (.leave 1 task, tasks)
  | (.copy i task, tasks) =>
    if h : i < resTasklistSize then some (.leave 0 task, Function.update tasks ⟨i, h⟩ task)
    else none
  | (.test task, tasks) =>
    if (tasks Restask.first).type ≠ lmResTaskNotuse then some (.take task, tasks)
    else some (.leave 0 task, tasks)
  | (.take _, tasks) => some (.move 0 (tasks Restask.first), tasks)
  | (.move i task, tasks) =>
    if h : i + 1 < resTasklistSize then
      some (.move (i + 1) task,
        Function.update tasks ⟨i, Nat.lt_of_succ_lt h⟩ (tasks ⟨i + 1, h⟩))
    else some (.clear task, tasks)
  | (.clear task, tasks) =>
    some (.leave 0 task, Function.update tasks Restask.last
      { tasks Restask.last with type := lmResTaskNotuse })
  | (.leave _ _, _) => none

/-- What the function returns, and the caller's task. -/
def result : RestaskPc → Int × LmResTask
  | .leave ret task => (ret, task)
  | .scan _ task | .copy _ task | .test task | .take task | .move _ task | .clear task => (1, task)

end RestaskPc

/-- The two functions, with the lock `g_reslock`. -/
def restaskCode : Critical.Code Int64 RestaskFn (Option SpinCounters) RestaskPc Restask
    (Int × LmResTask) :=
  spinCode (fun _ => true) RestaskFn.refused RestaskPc.enter RestaskPc.next RestaskPc.result

/-! ## A function that is not disturbed -/

namespace RestaskPc

variable {tasks : Restask} {task : LmResTask}

/-- The loop passes over the used entries. -/
theorem reaches_scan {n : Nat} (hn : n ≤ resTasklistSize)
    (h : ∀ i : Fin resTasklistSize, i.val < n → (tasks i).type ≠ lmResTaskNotuse) :
    Reaches next (.scan 0 task, tasks) (.scan n task, tasks) := by
  induction n with
  | zero => exact Relation.ReflTransGen.refl
  | succ n ih =>
    have hlt : n < resTasklistSize := hn
    refine (ih hlt.le fun i hi => h i (Nat.lt_succ_of_lt hi)).tail ?_
    show next _ = _
    rw [next, dif_pos hlt, if_neg (h ⟨n, hlt⟩ (Nat.lt_succ_self n))]

/-- The array after `n` entries of the `memmove`. -/
def moved (n : Nat) (tasks : Restask) : Restask := fun i =>
  if i.val < n then tasks.shift i else tasks i

/-- One more entry. -/
theorem moved_succ {n : Nat} (h : n + 1 < resTasklistSize) (tasks : Restask) :
    Function.update (moved n tasks) ⟨n, Nat.lt_of_succ_lt h⟩ (moved n tasks ⟨n + 1, h⟩) =
      moved (n + 1) tasks := by
  funext i
  by_cases hi : i = ⟨n, Nat.lt_of_succ_lt h⟩
  · subst hi
    rw [Function.update_self, moved, if_neg (by simp), moved, if_pos (Nat.lt_succ_self n),
      Restask.shift, dif_pos h]
  · have hne : i.val ≠ n := fun heq => hi (Fin.ext heq)
    rw [Function.update_of_ne hi, moved, moved]
    by_cases hlt : i.val < n
    · rw [if_pos hlt, if_pos (Nat.lt_succ_of_lt hlt)]
    · rw [if_neg hlt, if_neg (by omega)]

theorem reaches_move {n : Nat} (hn : n < resTasklistSize) :
    Reaches next (.move 0 task, tasks) (.move n task, moved n tasks) := by
  induction n with
  | zero => exact Relation.ReflTransGen.refl
  | succ n ih =>
    refine (ih (Nat.lt_of_succ_lt hn)).tail ?_
    show next _ = _
    rw [next, dif_pos hn, moved_succ hn]

/-- The entry behind the `memmove` loses its type. -/
theorem update_moved_last (tasks : Restask) :
    Function.update (moved 127 tasks) Restask.last
        { moved 127 tasks Restask.last with type := lmResTaskNotuse } = tasks.shift := by
  funext i
  by_cases hi : i = Restask.last
  · subst hi
    have hbehind : ¬ Restask.last.val < 127 := by decide
    have hend : ¬ Restask.last.val + 1 < resTasklistSize := by decide
    have hmoved : moved 127 tasks Restask.last = tasks Restask.last := if_neg hbehind
    have hshift : tasks.shift Restask.last = { tasks Restask.last with type := lmResTaskNotuse } :=
      dif_neg hend
    rw [hshift, Function.update_self, hmoved]
  · have hne : i.val ≠ 127 := fun heq => hi (Fin.ext heq)
    have hlt : i.val < 128 := i.isLt
    rw [Function.update_of_ne hi, moved, if_pos (by omega)]

/-- The steps of `set_resource_task`. -/
theorem reaches_set (tasks : Restask) (task : LmResTask) :
    Reaches next (.scan 0 task, tasks)
      (.leave (tasks.setResourceTask false task).1 task, (tasks.setResourceTask false task).2) := by
  cases hfind : Fin.find? fun i => (tasks i).type = lmResTaskNotuse with
  | some i =>
    obtain ⟨hfree, hused⟩ := Fin.find?_eq_some_iff.mp hfind
    have hset : tasks.setResourceTask false task = (0, Function.update tasks i task) := by
      simp only [Restask.setResourceTask, hfind, if_neg Bool.false_ne_true]
    -- The scan passes the entries in use and stops at the first free one.
    have hscan : Reaches next (.scan 0 task, tasks) (.scan i.val task, tasks) :=
      reaches_scan i.isLt.le fun j hj => of_decide_eq_false (hused j hj)
    have hcopy : next (.scan i.val task, tasks) = some (.copy i.val task, tasks) := by
      rw [next, dif_pos i.isLt, if_pos (of_decide_eq_true hfree)]
    have hleave : next (.copy i.val task, tasks) =
        some (.leave 0 task, Function.update tasks i task) := by
      rw [next, dif_pos i.isLt]
    rw [hset]
    exact (hscan.tail hcopy).tail hleave
  | none =>
    have hset : tasks.setResourceTask false task = (1, tasks) := by
      simp only [Restask.setResourceTask, hfind, if_neg Bool.false_ne_true]
    -- No entry is free, and the scan runs to the end.
    have hscan : Reaches next (.scan 0 task, tasks) (.scan resTasklistSize task, tasks) :=
      reaches_scan (le_refl _) fun j _ =>
        of_decide_eq_false (Fin.find?_eq_none_iff.mp hfind j)
    have hleave : next (.scan resTasklistSize task, tasks) = some (.leave 1 task, tasks) := by
      rw [next, dif_neg (lt_irrefl _)]
    rw [hset]
    exact hscan.tail hleave

/-- The steps of `peek_resource_task`. -/
theorem reaches_peek (tasks : Restask) (task : LmResTask) :
    Reaches next (.test task, tasks)
      (.leave (tasks.peekResourceTask false task).1.1 (tasks.peekResourceTask false task).1.2,
        (tasks.peekResourceTask false task).2) := by
  by_cases hused : (tasks Restask.first).type ≠ lmResTaskNotuse
  · have hpeek : tasks.peekResourceTask false task = ((0, tasks Restask.first), tasks.shift) := by
      rw [Restask.peekResourceTask, if_neg Bool.false_ne_true, if_pos hused]
    have htake : next (.test task, tasks) = some (.take task, tasks) := by
      rw [next, if_pos hused]
    have hmove : next (.take task, tasks) = some (.move 0 (tasks Restask.first), tasks) := by
      rw [next]
    have hclear : next (.move 127 (tasks Restask.first), moved 127 tasks) =
        some (.clear (tasks Restask.first), moved 127 tasks) := by
      rw [next, dif_neg (by decide)]
    have hleave : next (.clear (tasks Restask.first), moved 127 tasks) =
        some (.leave 0 (tasks Restask.first), tasks.shift) := by
      rw [next, update_moved_last]
    have hstart : Reaches next (.test task, tasks) (.move 0 (tasks Restask.first), tasks) :=
      .tail (.tail .refl htake) hmove
    -- The `memmove` runs entry by entry, all 127 of them.
    have hmoved : Reaches next (.move 0 (tasks Restask.first), tasks)
        (.move 127 (tasks Restask.first), moved 127 tasks) :=
      reaches_move (by decide)
    rw [hpeek]
    exact ((hstart.trans hmoved).tail hclear).tail hleave
  · have hpeek : tasks.peekResourceTask false task = ((0, task), tasks) := by
      rw [Restask.peekResourceTask, if_neg Bool.false_ne_true, if_neg hused]
    have hleave : next (.test task, tasks) = some (.leave 0 task, tasks) := by
      rw [next, if_neg hused]
    rw [hpeek]
    exact Relation.ReflTransGen.single hleave

end RestaskPc

/-- The steps of a function amount to the function. -/
theorem restask_implements : restaskCode.Implements RestaskFn.run := by
  intro fn tasks
  cases fn with
  | set task =>
    have hreach := RestaskPc.reaches_set tasks task
    have hatomic : RestaskFn.run (.set task) tasks =
        (((tasks.setResourceTask false task).1, task), (tasks.setResourceTask false task).2) := by
      rw [RestaskFn.run, RestaskFn.call, RestaskCall.step]
    generalize tasks.setResourceTask false task = r at hreach hatomic
    refine ⟨.leave r.1 task, ?_, rfl, ?_⟩
    · rw [hatomic]
      exact hreach
    · rw [hatomic]
      rfl
  | peek task =>
    have hreach := RestaskPc.reaches_peek tasks task
    have hatomic : RestaskFn.run (.peek task) tasks =
        tasks.peekResourceTask false task := by
      rw [RestaskFn.run, RestaskFn.call, RestaskCall.step]
    generalize tasks.peekResourceTask false task = r at hreach hatomic
    refine ⟨.leave r.1.1 r.1.2, ?_, rfl, ?_⟩
    · rw [hatomic]
      exact hreach
    · rw [hatomic]
      rfl

/-! ## Interleavings -/

/-- The calls of the functions that have completed, in this order. -/
def restaskCalls {ι : Type} (log : List (Critical.Entry ι RestaskFn (Int × LmResTask))) :
    List RestaskCall :=
  log.map fun entry => entry.call.call entry.refused

/-- Nobody queues a task that marks a free entry. -/
def RestaskFn.Proper {ι σ : Type} : Critical.Event ι RestaskFn → σ → Prop
  | .call _ fn, _ => (fn.call false).Proper
  | .act _, _ => True

variable {ι : Type} [DecidableEq ι]

/-- Calls in one step are calls of `Resource.Restask`. -/
theorem serial_restask (input : RestaskFn × Bool) (tasks : Restask) :
    restaskCode.serial RestaskFn.run input tasks =
      (input.1.call input.2).step tasks := by
  obtain ⟨fn, refused⟩ := input
  cases refused with
  | false => rfl
  | true => cases fn <;> rfl

/-- In every interleaving of any number of threads, the completed calls have the answers of a
queue with a capacity of 128, in the order in which they completed; the queue is in the array
whenever no thread is inside; and never are two threads inside. -/
theorem restask_queue_of_run {s : Critical.State ι Int64 RestaskFn (Option SpinCounters)
      RestaskPc Restask (Int × LmResTask)}
    (h : Run.Reachable (Critical.step restaskCode) RestaskFn.Proper
      (.start restaskCode Restask.zero) s) :
    s.log.map Critical.Entry.answer =
        Machine.answers RestaskCall.spec (restaskCalls s.log) [] ∧
      ((∀ i fn pc, s.phase i ≠ .inside fn pc) →
        s.data.Holds (Machine.after RestaskCall.spec (restaskCalls s.log) [])) ∧
      ∀ i j fn fn' pc pc', s.phase i = .inside fn pc → s.phase j = .inside fn' pc' → i = j := by
  have hrun : Run.Reachable (Critical.step restaskCode) (fun _ _ => True)
      (.start restaskCode Restask.zero) s := h.mono fun _ _ _ => trivial
  have hproper : ∀ call ∈ restaskCalls s.log, call.Proper := by
    intro call hcall
    obtain ⟨entry, hentry, rfl⟩ := List.mem_map.mp hcall
    have hmade := Critical.calls_of_run (P := fun fn => (fn.call false).Proper)
      (fun _ _ _ hok => hok) h entry hentry
    cases hfn : entry.call with
    | set task =>
      rw [hfn] at hmade
      exact hmade
    | peek task => trivial
  have hlog : (s.log.map Critical.Entry.input).map
      (fun input => input.1.call input.2) = restaskCalls s.log := by
    rw [List.map_map]
    rfl
  -- The lock makes the calls serial, and serial calls are those of the queue.
  obtain ⟨hanswers, hdata⟩ := Critical.serial_of_run restask_implements hrun
  rw [Machine.answers_map serial_restask, hlog] at hanswers
  refine ⟨hanswers.trans (Restask.refines.answers_eq hproper Restask.holds_zero), ?_, ?_⟩
  · intro hnone
    rw [(hdata hnone).2, Machine.after_map serial_restask, hlog]
    exact Restask.refines.after hproper Restask.holds_zero
  · intro i j fn fn' pc pc' hi hj
    exact Critical.exclusive_of_run restask_implements hrun hi hj

/-- Two threads queue a task each, and one of them finds the lock taken at first. -/
def twoSetters : List (Critical.Event Bool RestaskFn) :=
  [.call false (.set ⟨1, 7, 8⟩), .call true (.set ⟨2, 9, 10⟩), .act false, .act true, .act false,
    .act false, .act false, .act true, .act true, .act true, .act true, .act true]

instance instDecidableRestaskFnProper {σ : Type} (e : Critical.Event Bool RestaskFn) (s : σ) :
    Decidable (RestaskFn.Proper e s) :=
  match e with
  | .call _ (.set task) => inferInstanceAs (Decidable (task.type ≠ lmResTaskNotuse))
  | .call _ (.peek _) => .isTrue trivial
  | .act _ => .isTrue trivial

theorem restask_queue_of_run_two :
    ∃ s : Critical.State Bool Int64 RestaskFn (Option SpinCounters) RestaskPc Restask
        (Int × LmResTask),
      s.log.length = 2 ∧
        s.log.map Critical.Entry.answer =
          Machine.answers RestaskCall.spec (restaskCalls s.log) [] := by
  obtain ⟨s, hrun, htwo⟩ := Run.exists_reachable_of_execute (Critical.step restaskCode)
    RestaskFn.Proper twoSetters (s := .start restaskCode Restask.zero)
    (p := fun s => s.log.length == 2) (by decide)
  exact ⟨s, by simpa using htwo, (restask_queue_of_run hrun).1⟩

end LMiced
