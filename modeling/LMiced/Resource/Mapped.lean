import LMiced.Resource.Daemon

/-!
# Info pointers into unmapped memory

The maintenance thread unmaps the shared memory of a dead worker at once, while
its timers stay in the task queue and in the lists until a tick has carried out
the removal that is queued behind them. The info pointers of these timers lead
into the unmapped memory all that time.

`dereference_mapped_of_run`: a tick dereferences info pointers into mapped memory
only, as long as a worker is closed with none of its timers in the queue and
with room for its removal, and is removed with no two of its timers next to each
other in a list.
-/

namespace LMiced

/-! ## Dereferences of a tick -/

/-- The timer that the task is about. -/
def ResTask.timer : ResTask TimerPtr → Option TimerPtr
  | .addTimer t => some t
  | .delTimer t => some t
  | _ => none

/-- The worker that the task removes. -/
def ResTask.removed : ResTask TimerPtr → Option Nat
  | .delWorker w => some w
  | _ => none

namespace Daemon

/-- The info pointer of the timer leads into the shared memory that is mapped for its
worker. -/
def Mapped (d : Daemon) (t : TimerPtr) : Prop :=
  ∃ n, (d.worker t.1).addr = some n ∧ (d.worker t.1).block = some n

/-- A tick in the state `d` dereferences the info pointer of `t`, in handling the
tasks or in walking the lists. -/
def Dereferences (now simTime : Int) (count : Nat) (d : Daemon) (t : TimerPtr) : Prop :=
  ∃ s, Sched.During now simTime (Sched.walks simTime count) d.untouched.resourceTaskProc.sched s ∧
    t ∈ s.touched

/-- Handling the slot closes a worker only with none of its timers in the queue and
with room for the removal, and opens what it has to open. -/
def SlotOrderly (refused : List Nat) (w : Nat) (d : Daemon) : Prop :=
  (d.table w).state ≠ .running →
    ((d.table w).instId = 0 → (d.worker w).addr ≠ none →
      (∀ task ∈ d.queue.entries, ∀ t ∈ task.timer, t.1 ≠ w) ∧
        d.queue.entries.length < resTasklistSize) ∧
    ((d.table w).instId ≠ 0 → (d.worker w).addr = none → (d.table w).instId ∉ refused)

instance (refused : List Nat) (w : Nat) (d : Daemon) : Decidable (d.SlotOrderly refused w) := by
  unfold SlotOrderly
  infer_instance

/-- Every slot is handled so, in the state the loop has reached. -/
def SlotsOrderly (refused : List Nat) : List Nat → Daemon → Prop
  | [], _ => True
  | w :: ws, d =>
    d.SlotOrderly refused w ∧ ∀ d' ∈ d.maintainWorker refused w, SlotsOrderly refused ws d'

instance decidableSlotsOrderly (refused : List Nat) :
    ∀ (ws : List Nat) (d : Daemon), Decidable (d.SlotsOrderly refused ws)
  | [], _ => isTrue trivial
  | w :: ws, d =>
    have := decidableSlotsOrderly refused ws
    inferInstanceAs (Decidable (d.SlotOrderly refused w ∧
      ∀ d' ∈ d.maintainWorker refused w, d'.SlotsOrderly refused ws))

/-- Among the next tasks, every removal of a worker finds no two timers of the worker
next to each other, in the state the loop has reached. -/
def TasksOrderly : Nat → Daemon → Prop
  | 0, _ => True
  | n + 1, d =>
    (∀ w ∈ d.queue.entries.head?.bind ResTask.removed, d.sched.Apart w) ∧
      ∀ d' ∈ d.taskTurn, TasksOrderly n d'

instance decidableTasksOrderly : ∀ (n : Nat) (d : Daemon), Decidable (d.TasksOrderly n)
  | 0, _ => isTrue trivial
  | n + 1, d =>
    have := decidableTasksOrderly n
    inferInstanceAs (Decidable ((∀ w ∈ d.queue.entries.head?.bind ResTask.removed,
      d.sched.Apart w) ∧ ∀ d' ∈ d.taskTurn, d'.TasksOrderly n))

end Daemon

/-- Maintenance passes and ticks close and remove workers in the orderly way. -/
def DaemonEvent.ClosesOrderly : DaemonEvent → Daemon → Prop
  | .maintain refused, d => d.SlotsOrderly refused (List.range defaultWorkerSize)
  | .tick _ _ _ _, d => d.untouched.TasksOrderly resTasklistSize
  | _, _ => True

instance : ∀ (e : DaemonEvent) (d : Daemon), Decidable (e.ClosesOrderly d)
  | .maintain refused, d =>
    inferInstanceAs (Decidable (d.SlotsOrderly refused (List.range defaultWorkerSize)))
  | .tick _ _ _ _, d => inferInstanceAs (Decidable (d.untouched.TasksOrderly resTasklistSize))
  | .spiInit _ _ _, _ | .register _ _, _ | .write _ _, _ | .commit _, _ | .trust _ _, _ =>
    isTrue trivial

/-! ## Tasks and walks -/

namespace Sched

theorem mem_taskProc {task : ResTask TimerPtr} {s : Sched TimerPtr} {l : ListId} {u : TimerPtr}
    (hu : u ∈ ((taskProc task s).list l).contents) :
    u ∈ (s.list l).contents ∨ task = .addTimer u := by
  cases task with
  | addTimer t =>
    rcases mem_appendTimerToRes hu with hu | ⟨rfl, _⟩
    · exact Or.inl hu
    · exact Or.inr rfl
  | delTimer t => exact Or.inl (mem_of_mem_removeTimerFromRes hu)
  | addWorker w => exact Or.inl hu
  | delWorker w => exact Or.inl ((removeTimerByWorker_sublist s w l).subset hu)

theorem mem_touched_taskProc {task : ResTask TimerPtr} {s : Sched TimerPtr} {u : TimerPtr}
    (hu : u ∈ (taskProc task s).touched) : u ∈ s.touched ∨ u ∈ task.timer := by
  cases task with
  | addTimer t =>
    rw [taskProc, appendTimerToRes_touched] at hu
    rcases List.mem_cons.mp hu with rfl | hu
    · exact Or.inr rfl
    · exact Or.inl hu
  | delTimer t =>
    rw [taskProc, removeTimerFromRes_touched] at hu
    rcases List.mem_cons.mp hu with rfl | hu
    · exact Or.inr rfl
    · exact Or.inl hu
  | addWorker w => exact Or.inl hu
  | delWorker w =>
    rw [taskProc, removeTimerByWorker_touched] at hu
    exact Or.inl hu

/-- Every listed timer and every timer whose info pointer was dereferenced satisfies
`M`, and every timer belongs to the worker of its table slot. -/
structure Within (M : TimerPtr → Prop) (s : Sched TimerPtr) : Prop where
  listed : ∀ l t, t ∈ (s.list l).contents → M t
  touched : ∀ t ∈ s.touched, M t
  owner : ∀ t, (s.timer t).worker = t.1

variable {M : TimerPtr → Prop} {s s' : Sched TimerPtr}

theorem Within.timerVisit {now : Int} {l : ListId} {c : Cursor} {t : TimerPtr} (h : s.Within M)
    (ht : (s.list l).entryAt c.arr c.pos = some t) : (timerVisit now l c t s).1.Within M := by
  have hM : M t := h.listed l t (Chain.mem_of_entryAt ht)
  refine ⟨fun l' u hu => ?_, fun u hu => ?_, fun u => ?_⟩
  · rcases timerVisit_mem hu with hu | ⟨rfl, _⟩
    · exact h.listed l' u hu
    · exact hM
  · rw [timerVisit_touched] at hu
    rcases List.mem_cons.mp hu with rfl | hu
    · exact hM
    · exact h.touched u hu
  · rw [timerVisit_timer]
    rcases eq_or_ne u t with rfl | hne
    · rw [Function.update_self, timerVerdict_worker]
      exact h.owner u
    · rw [Function.update_of_ne hne]
      exact h.owner u

theorem Within.dueVisit {now : Int} {l : ListId} {c : Cursor} {t : TimerPtr} (h : s.Within M)
    (ht : (s.list l).entryAt c.arr c.pos = some t) : (dueVisit now l c t s).1.Within M := by
  have hM : M t := h.listed l t (Chain.mem_of_entryAt ht)
  refine ⟨fun l' u hu => ?_, fun u hu => ?_, fun u => ?_⟩
  · rcases dueVisit_mem hu with hu | ⟨rfl, _⟩
    · exact h.listed l' u hu
    · exact hM
  · rcases dueVisit_touched hu with rfl | hu
    · exact hM
    · exact h.touched u hu
  · rw [dueVisit_worker]
    exact h.owner u

/-- All through the walks only listed timers are dereferenced. -/
theorem Within.during {now tick : Int} {ls : List ListId} (h : s.Within M)
    (hduring : During now tick ls s s') : s'.Within M := by
  refine hduring.invariant (fun l c t s ht hs => ?_) h
  unfold visitOf
  split_ifs
  · exact hs.dueVisit ht
  · exact hs.timerVisit ht

end Sched

/-! ## The invariant -/

namespace Daemon

/-- The info pointers of a mapped worker lead into what is mapped, the queued timers
are mapped, and a listed timer is mapped or its worker is about to be removed. -/
structure PointersMapped (d : Daemon) : Prop where
  pointers : ∀ w a b, (d.worker w).addr = some a → (d.worker w).block = some b → a = b
  owner : ∀ t, (d.sched.timer t).worker = t.1
  tasks : ∀ task ∈ d.queue.entries, ∀ t ∈ task.timer, d.Mapped t
  listed : ∀ l t, t ∈ (d.sched.list l).contents →
    d.Mapped t ∨ ResTask.delWorker t.1 ∈ d.queue.entries

namespace PointersMapped

variable {d d' : Daemon} {w : Nat} {refused : List Nat}

/-- What unmaps nothing, lists nothing and queues mapped timers only. -/
theorem frame (h : d.PointersMapped)
    (hpointers : ∀ w a b, (d'.worker w).addr = some a → (d'.worker w).block = some b → a = b)
    (howner : ∀ t, (d'.sched.timer t).worker = (d.sched.timer t).worker)
    (hlist : d'.sched.list = d.sched.list) (hmapped : ∀ t, d.Mapped t → d'.Mapped t)
    (hkeeps : ∀ task ∈ d.queue.entries, task ∈ d'.queue.entries)
    (hadds : ∀ task ∈ d'.queue.entries, task ∈ d.queue.entries ∨ ∀ t ∈ task.timer, d'.Mapped t) :
    d'.PointersMapped where
  pointers := hpointers
  owner t := (howner t).trans (h.owner t)
  tasks task htask t ht := (hadds task htask).elim
    (fun hmem => hmapped t (h.tasks task hmem t ht)) (fun hnew => hnew t ht)
  listed l t ht := by
    rw [hlist] at ht
    exact (h.listed l t ht).imp (hmapped t) (hkeeps _)

theorem openIfUnmapped (h : d.PointersMapped)
    (hopen : (d.worker w).addr = none → (d.table w).instId ∉ refused) :
    (d.openIfUnmapped refused w).PointersMapped ∧
      ((d.openIfUnmapped refused w).worker w).addr ≠ none := by
  unfold Daemon.openIfUnmapped
  split_ifs with hcond
  · have hworker : (d.openWorkerResource w).worker = Function.update d.worker w
        ⟨some (d.table w).instId, some (d.table w).instId, fun _ => none, fun _ => false⟩ := rfl
    refine ⟨h.frame ?_ ?_ rfl ?_ (fun _ h => h) (fun _ h => Or.inl h), by simp [hworker]⟩
    · intro v a b ha hb
      rw [hworker] at ha hb
      rcases eq_or_ne v w with rfl | hne
      · simp only [Function.update_self] at ha hb
        exact Option.some.inj (ha.symm.trans hb)
      · rw [Function.update_of_ne hne] at ha hb
        exact h.pointers v a b ha hb
    · intro t
      simp [openWorkerResource]
    · intro t ht
      unfold Mapped at ht ⊢
      rw [hworker]
      rcases eq_or_ne t.1 w with heq | hne
      · rw [heq, Function.update_self]
        exact ⟨_, rfl, rfl⟩
      · rwa [Function.update_of_ne hne]
  · exact ⟨h, fun haddr => hcond ⟨haddr, hopen haddr⟩⟩

theorem syncWorker (h : d.PointersMapped) (haddr : (d.worker w).addr ≠ none)
    (hsync : d.syncWorker refused w = some d') : d'.PointersMapped := by
  obtain ⟨n, p, hblock, hp, rfl⟩ := syncWorker_eq_some hsync
  obtain ⟨a, ha⟩ := Option.ne_none_iff_exists'.mp haddr
  -- Messages and actions change, addresses and info pointers do not.
  have hworker : ∀ v, ((d.follow refused w n).worker v).addr = (d.worker v).addr ∧
      ((d.follow refused w n).worker v).block = (d.worker v).block := by
    intro v
    rcases eq_or_ne v w with rfl | hne
    · simp [follow]
    · simp [follow, hne]
  have hmapped : ∀ t, d.Mapped t → Mapped { d.follow refused w n with toResParam := p } t := by
    rintro t ⟨m, hm, hm'⟩
    exact ⟨m, (hworker t.1).1.trans hm, (hworker t.1).2.trans hm'⟩
  have hw : ∀ i, d.Mapped (w, i) := fun i =>
    ⟨n, by rw [ha, h.pointers w a n ha hblock], hblock⟩
  refine h.frame ?_ hp.worker hp.list hmapped hp.keeps fun task htask => ?_
  · intro v a b hva hvb
    exact h.pointers v a b ((hworker v).1.symm.trans hva) ((hworker v).2.symm.trans hvb)
  · refine (hp.adds task htask).imp_right ?_
    rintro ⟨i, rfl | rfl⟩ t ht
    · cases ht
      exact hmapped _ (hw i)
    · cases ht
      exact hmapped _ (hw i)

theorem closeWorkerResource (h : d.PointersMapped)
    (htasks : ∀ task ∈ d.queue.entries, ∀ t ∈ task.timer, t.1 ≠ w)
    (hroom : d.queue.entries.length < resTasklistSize) :
    (d.closeWorkerResource w).PointersMapped := by
  have hqueue : (d.closeWorkerResource w).queue.entries = d.queue.entries ++ [.delWorker w] := by
    simp [Daemon.closeWorkerResource, setResourceTask, hroom]
  have hworker : ∀ v, v ≠ w → (d.closeWorkerResource w).worker v = d.worker v := fun v hv =>
    Function.update_of_ne hv _ _
  have hmapped : ∀ t, t.1 ≠ w → d.Mapped t → (d.closeWorkerResource w).Mapped t := by
    intro t ht hm
    unfold Mapped
    rw [hworker t.1 ht]
    exact hm
  refine ⟨fun v a b ha hb => ?_, fun t => ?_, fun task htask t ht => ?_, fun l t ht => ?_⟩
  · rcases eq_or_ne v w with rfl | hne
    · simp [Daemon.closeWorkerResource] at ha
    · rw [hworker v hne] at ha hb
      exact h.pointers v a b ha hb
  · simpa [Daemon.closeWorkerResource] using h.owner t
  · rw [hqueue] at htask
    rcases List.mem_append.mp htask with hmem | hnew
    · exact hmapped t (htasks task hmem t ht) (h.tasks task hmem t ht)
    · rw [List.mem_singleton.mp hnew] at ht
      cases ht
  · rw [hqueue]
    rcases eq_or_ne t.1 w with heq | hne
    · exact Or.inr (by rw [heq]; exact List.mem_append_right _ List.mem_cons_self)
    · exact (h.listed l t ht).imp (hmapped t hne) (List.mem_append_left _)

theorem maintainWorker (h : d.PointersMapped) (hd : d.SlotOrderly refused w)
    (hstep : d.maintainWorker refused w = some d') : d'.PointersMapped := by
  rcases maintainWorker_cases hstep with
    ⟨_, rfl⟩ | ⟨hrun, haddr, hinst, rfl⟩ | ⟨hinst, hmod, hsync⟩ | ⟨hinst, hrun, _, rfl⟩
  · exact h
  · obtain ⟨htasks, hroom⟩ := (hd hrun).1 hinst haddr
    exact h.closeWorkerResource htasks hroom
  · have hrun : (d.table w).state ≠ .running := by
      rw [hmod]
      decide
    obtain ⟨hopened, haddr⟩ := h.openIfUnmapped ((hd hrun).2 hinst)
    exact hopened.syncWorker haddr hsync
  · exact (h.openIfUnmapped ((hd hrun).2 hinst)).1

theorem maintainWorkers {ws : List Nat} (h : d.PointersMapped) (hd : d.SlotsOrderly refused ws)
    (hpass : d.maintainWorkers refused ws = some d') : d'.PointersMapped := by
  induction ws generalizing d with
  | nil =>
    cases hpass
    exact h
  | cons w ws ih =>
    rw [Daemon.maintainWorkers, List.foldlM_cons] at hpass
    obtain ⟨d₁, hstep, hrest⟩ := Option.bind_eq_some_iff.mp hpass
    exact ih (h.maintainWorker hd.1 hstep) (hd.2 d₁ hstep) hrest

theorem taskTurn (h : d.PointersMapped)
    (hd : ∀ w ∈ d.queue.entries.head?.bind ResTask.removed, d.sched.Apart w)
    (hturn : d.taskTurn = some d') :
    d'.PointersMapped ∧ d'.worker = d.worker ∧
      ∀ t ∈ d'.sched.touched, t ∈ d.sched.touched ∨ d.Mapped t := by
  obtain ⟨task, q, hq, rfl⟩ := taskTurn_eq_some hturn
  have hhead : task ∈ d.queue.entries := by
    rw [hq]
    exact List.mem_cons_self
  refine ⟨⟨h.pointers, fun t => ?_, fun task' htask' => ?_, fun l t ht => ?_⟩, rfl, fun t ht => ?_⟩
  · exact (Sched.taskProc_worker task d.sched t).trans (h.owner t)
  · exact h.tasks task' (by rw [hq]; exact List.mem_cons_of_mem _ htask')
  · rcases Sched.mem_taskProc ht with hmem | hadd
    · rcases h.listed l t hmem with hm | hdel
      · exact Or.inl hm
      · rw [hq] at hdel
        rcases List.mem_cons.mp hdel with hnow | hlater
        · -- The worker of `t` is the one that is removed, so `t` is not listed any more.
          subst hnow
          have hapart : d.sched.Apart t.1 := hd t.1 (by rw [hq]; rfl)
          exact absurd (h.owner t) (hapart.removeTimerByWorker ht)
        · exact Or.inr hlater
    · subst hadd
      exact Or.inl (h.tasks _ hhead t rfl)
  · exact (Sched.mem_touched_taskProc ht).imp_right (h.tasks task hhead t)

theorem taskTurns {n : Nat} (h : d.PointersMapped) (htouched : ∀ t ∈ d.sched.touched, d.Mapped t)
    (hd : d.TasksOrderly n) :
    (d.taskTurns n).PointersMapped ∧ (d.taskTurns n).worker = d.worker ∧
      ∀ t ∈ (d.taskTurns n).sched.touched, d.Mapped t := by
  induction n generalizing d with
  | zero => exact ⟨h, rfl, htouched⟩
  | succ n ih =>
    unfold Daemon.taskTurns
    cases hturn : d.taskTurn with
    | none => exact ⟨h, rfl, htouched⟩
    | some d₁ =>
      obtain ⟨h₁, hworker, htouched₁⟩ := h.taskTurn hd.1 hturn
      have hmapped : ∀ t, d₁.Mapped t ↔ d.Mapped t := by
        intro t
        unfold Mapped
        rw [hworker]
      obtain ⟨h₂, hworker₂, htouched₂⟩ := ih h₁
        (fun t ht => (hmapped t).mpr ((htouched₁ t ht).elim (htouched t) id)) (hd.2 d₁ hturn)
      exact ⟨h₂, hworker₂.trans hworker, fun t ht => (hmapped t).mp (htouched₂ t ht)⟩

/-- After the tasks of a tick, every listed timer is mapped, and so were the timers
that the tasks dereferenced. -/
theorem resourceTaskProc (h : d.PointersMapped) (hd : d.untouched.TasksOrderly resTasklistSize) :
    d.untouched.resourceTaskProc.PointersMapped ∧
      d.untouched.resourceTaskProc.worker = d.worker ∧
      d.untouched.resourceTaskProc.sched.Within d.Mapped := by
  have huntouched : d.untouched.PointersMapped := ⟨h.pointers, h.owner, h.tasks, h.listed⟩
  obtain ⟨hdone, hworker, htouched⟩ := huntouched.taskTurns (fun _ ht => nomatch ht) hd
  refine ⟨hdone, hworker, fun l t ht => ?_, htouched, hdone.owner⟩
  rcases hdone.listed l t ht with ⟨n, hn, hn'⟩ | hdel
  · rw [hworker] at hn hn'
    exact ⟨n, hn, hn'⟩
  · rw [taskTurns_queue d.untouched.queue.le] at hdel
    cases hdel

theorem tick {fuel count : Nat} {now simTime : Int} (h : d.PointersMapped)
    (hd : d.untouched.TasksOrderly resTasklistSize)
    (htick : d.tick fuel now simTime count = some d') : d'.PointersMapped := by
  obtain ⟨hdone, hworker, hwithin⟩ := h.resourceTaskProc hd
  obtain ⟨s, hs, rfl⟩ := Option.map_eq_some_iff.mp htick
  have hend := hwithin.during (Sched.During.of_scheduleTimerAndTicker hs)
  refine ⟨hdone.pointers, hend.owner, hdone.tasks, fun l t ht => Or.inl ?_⟩
  obtain ⟨n, hn, hn'⟩ := hend.listed l t ht
  rw [← hworker] at hn hn'
  exact ⟨n, hn, hn'⟩

theorem step {e : DaemonEvent} (h : d.PointersMapped) (he : e.ClosesOrderly d)
    (hstep : e.step d = some d') : d'.PointersMapped := by
  cases e with
  | spiInit processId threadId instId =>
    cases hstep
    unfold spiInit
    split
    · exact h
    · exact ⟨h.pointers, h.owner, h.tasks, h.listed⟩
  | register n r =>
    cases hstep
    exact ⟨h.pointers, h.owner, h.tasks, h.listed⟩
  | write n f =>
    cases hstep
    exact ⟨h.pointers, h.owner, h.tasks, h.listed⟩
  | commit n =>
    cases hstep
    exact ⟨h.pointers, h.owner, h.tasks, h.listed⟩
  | trust deadProcesses deadThreads =>
    cases hstep
    exact ⟨h.pointers, h.owner, h.tasks, h.listed⟩
  | maintain refused => exact h.maintainWorkers he hstep
  | tick fuel now simTime count => exact h.tick he hstep

theorem createResourceService (processId : Int) (instId : Nat) (shm : Nat → WorkerShm) :
    (Daemon.createResourceService processId instId shm).PointersMapped where
  pointers w a b _ hb := by
    rcases eq_or_ne w 0 with rfl | hne
    · simp [Daemon.createResourceService] at hb
    · simp [Daemon.createResourceService, hne] at hb
  owner _ := rfl
  tasks _ htask := nomatch htask
  listed l t ht := by
    simp [Daemon.createResourceService, initTmlistResource, Chain.contents, BArray.empty] at ht

end PointersMapped

end Daemon

/-- In every run in which workers are closed and removed in the orderly way, a tick
dereferences info pointers into mapped shared memory only. -/
theorem dereference_mapped_of_run {processId : Int} {instId : Nat} {shm : Nat → WorkerShm}
    {d : Daemon}
    (h : Run.Reachable DaemonEvent.step DaemonEvent.ClosesOrderly
      (Daemon.createResourceService processId instId shm) d)
    {fuel count : Nat} {now simTime : Int}
    (hd : DaemonEvent.ClosesOrderly (.tick fuel now simTime count) d) {t : TimerPtr}
    (ht : d.Dereferences now simTime count t) : d.Mapped t := by
  have hinv : d.PointersMapped := h.invariant (fun _ _ _ he hstep hd => hd.step he hstep)
    (Daemon.PointersMapped.createResourceService processId instId shm)
  obtain ⟨s, hduring, htouched⟩ := ht
  exact ((hinv.resourceTaskProc hd).2.2.during hduring).touched t htouched

/-- What the tasks of a tick dereference, the tick dereferences. -/
theorem Daemon.dereferences_of_task {d : Daemon} {t : TimerPtr}
    (h : t ∈ d.untouched.resourceTaskProc.sched.touched) (now simTime : Int) (count : Nat) :
    d.Dereferences now simTime count t :=
  ⟨_, .walking .refl, h⟩

/-- Shared memory can be opened. -/
def DaemonEvent.opens : DaemonEvent → Bool
  | .maintain refused => refused = []
  | _ => true

/-- A worker dies before the first tick after its timer was opened. -/
def closedBeforeTick : List DaemonEvent :=
  [.spiInit 100 1 5, .register 5 (.timerEvent 7 100000 1 0), .maintain [], .trust [100] [],
    .maintain []]

theorem tick_dereferences_unmapped :
    ¬ ∀ (processId : Int) (instId : Nat) (shm : Nat → WorkerShm) (d : Daemon) (now simTime : Int)
        (count : Nat) (t : TimerPtr),
      Run.Reachable DaemonEvent.step (fun e _ => e.opens = true)
        (Daemon.createResourceService processId instId shm) d →
      d.Dereferences now simTime count t → d.Mapped t := by
  intro h
  obtain ⟨d, hrun, hd⟩ := Run.exists_reachable_of_execute DaemonEvent.step
    (fun e _ => e.opens = true) closedBeforeTick
    (s := Daemon.createResourceService 99 4 fun _ => WorkerShm.zero)
    (p := fun d => decide (((1, 0) : TimerPtr) ∈ d.untouched.resourceTaskProc.sched.touched ∧
      (d.worker 1).addr = none)) (by decide +kernel)
  obtain ⟨htouched, haddr⟩ := of_decide_eq_true hd
  obtain ⟨n, hn, _⟩ := h _ _ _ d 1 0 1 (1, 0) hrun (Daemon.dereferences_of_task htouched 1 0 1)
  cases haddr.symm.trans hn

theorem dereference_mapped_of_run_oneTimer :
    ∃ d, Run.Reachable DaemonEvent.step DaemonEvent.ClosesOrderly
        (Daemon.createResourceService 99 4 fun _ => WorkerShm.zero) d ∧
      d.Dereferences 1 0 1 (1, 0) ∧ d.Mapped (1, 0) := by
  obtain ⟨d, hrun, hd⟩ := Run.exists_reachable_of_execute DaemonEvent.step DaemonEvent.ClosesOrderly
    [.spiInit 100 1 5, .register 5 (.timerEvent 7 100000 1 0), .maintain []]
    (s := Daemon.createResourceService 99 4 fun _ => WorkerShm.zero)
    (p := fun d => decide (((1, 0) : TimerPtr) ∈ d.untouched.resourceTaskProc.sched.touched ∧
      DaemonEvent.ClosesOrderly (.tick 10 1 0 1) d)) (by decide +kernel)
  obtain ⟨htouched, horderly⟩ := of_decide_eq_true hd
  have hderef := Daemon.dereferences_of_task htouched 1 0 1
  exact ⟨d, hrun, hderef, dereference_mapped_of_run hrun horderly hderef⟩

end LMiced
