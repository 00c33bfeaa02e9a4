import LMiced.Resource.Daemon

/-!
# The reuse of table slots

A table slot passes from worker to worker: a worker registers in it, the trust
thread clears the record when the worker is dead, the maintenance thread unmaps
the shared memory and queues the removal of the worker, and a tick carries the
removal out. A worker can register in the slot as soon as the record is cleared,
so it can come before the unmapping or before the removal.

* `mapped_after_maintain_of_run`: if every worker registers in a slot that is
  not mapped any more, every registered worker is mapped to its own shared
  memory after every maintenance pass;
* `record_kept_of_run`: if every worker registers in a slot for which no removal
  is queued, a record stays until the trust thread finds its worker dead.
-/

namespace LMiced

/-! ## Mapping the right shared memory -/

/-- Shared memory can be opened, and a worker registers in a slot only after the
daemon has unmapped what was there. -/
def DaemonEvent.TakesUnmapped : DaemonEvent → Daemon → Prop
  | .spiInit _ _ _, d => ∀ w ∈ d.freeSlot, (d.worker w).addr = none
  | .maintain refused, _ => refused = []
  | _, _ => True

instance : ∀ (e : DaemonEvent) (d : Daemon), Decidable (e.TakesUnmapped d)
  | .spiInit _ _ _, d => inferInstanceAs (Decidable (∀ w ∈ d.freeSlot, (d.worker w).addr = none))
  | .maintain refused, _ => inferInstanceAs (Decidable (refused = []))
  | .register _ _, _ | .write _ _, _ | .commit _, _ | .trust _ _, _ | .tick _ _ _ _, _ =>
    isTrue trivial

/-- Registrations, trust passes and maintenance passes with shared memory that can be
opened. -/
def DaemonEvent.slotEvent : DaemonEvent → Bool
  | .spiInit _ _ _ => true
  | .trust _ _ => true
  | .maintain refused => refused = []
  | _ => false

namespace Daemon

/-- The slot is free, or its worker waits to be opened, or the shared memory of its
worker is mapped. A worker that does not run yet has its info pointers there. -/
def SlotSound (d : Daemon) (w : Nat) : Prop :=
  (d.table w).instId = 0 ∨
  ((d.table w).state ≠ .running ∧ (d.worker w).addr = none) ∨
  ((d.worker w).addr = some (d.table w).instId ∧
    ((d.table w).state = .running ∨ (d.worker w).block = some (d.table w).instId))

/-- If a worker is registered in the slot, its shared memory is mapped. -/
def SlotMapped (d : Daemon) (w : Nat) : Prop :=
  (d.table w).instId ≠ 0 → (d.worker w).addr = some (d.table w).instId

variable {d d' : Daemon} {v w : Nat}

theorem SlotSound.congr (h : d.SlotSound w) (htable : d'.table w = d.table w)
    (hworker : d'.worker w = d.worker w) : d'.SlotSound w := by
  unfold SlotSound
  rw [htable, hworker]
  exact h

theorem SlotMapped.congr (h : d.SlotMapped w) (htable : d'.table w = d.table w)
    (hworker : d'.worker w = d.worker w) : d'.SlotMapped w := by
  unfold SlotMapped
  rw [htable, hworker]
  exact h

/-- A registered worker that does not run yet is opened where it is not. -/
theorem SlotSound.openIfUnmapped (h : d.SlotSound w) (hinst : (d.table w).instId ≠ 0)
    (hrun : (d.table w).state ≠ .running) :
    ((d.openIfUnmapped [] w).worker w).addr = some (d.table w).instId ∧
      ((d.openIfUnmapped [] w).worker w).block = some (d.table w).instId := by
  rcases h with hzero | ⟨_, haddr⟩ | ⟨haddr, hblock⟩
  · exact absurd hzero hinst
  · simp [Daemon.openIfUnmapped, haddr, openWorkerResource]
  · have hblock := hblock.resolve_left hrun
    simp [Daemon.openIfUnmapped, haddr, hblock]

/-- Handling a sound slot succeeds and leaves its worker mapped. -/
theorem SlotSound.maintainWorker (h : d.SlotSound w) (hd : d.Coherent) :
    ∃ d', d.maintainWorker [] w = some d' ∧ d'.SlotSound w ∧ d'.SlotMapped w := by
  by_cases hrun : (d.table w).state = .running
  · refine ⟨d, by rw [Daemon.maintainWorker, if_pos hrun], h, fun hinst => ?_⟩
    rcases h with hzero | ⟨hne, _⟩ | ⟨haddr, _⟩
    · exact absurd hzero hinst
    · exact absurd hrun hne
    · exact haddr
  by_cases hinst : (d.table w).instId = 0
  · by_cases haddr : (d.worker w).addr = none
    · exact ⟨d, by simp [Daemon.maintainWorker, hrun, haddr, hinst], h, fun hne => absurd hinst hne⟩
    · exact ⟨d.closeWorkerResource w, by simp [Daemon.maintainWorker, hrun, haddr, hinst],
        Or.inl hinst, fun hne => absurd hinst hne⟩
  -- The record is in use, and the slot is mapped, if need be by this pass.
  obtain ⟨haddr, hblock⟩ := h.openIfUnmapped hinst hrun
  by_cases hmod : (d.table w).state = .modified
  · have hcoh : (d.openIfUnmapped [] w).Coherent := hd.openIfUnmapped
    obtain ⟨p, hsync, _, _⟩ := hcoh.exists_syncWorker hblock []
    refine ⟨_, by simpa [Daemon.maintainWorker, hrun, hinst, hmod] using hsync, ?_, ?_⟩
    · exact Or.inr (Or.inr ⟨by simp [follow, haddr], Or.inl (by simp [follow])⟩)
    · intro _
      simp [follow, haddr]
  · refine ⟨d.openIfUnmapped [] w, by simp [Daemon.maintainWorker, hrun, hinst, hmod], ?_, ?_⟩
    · exact Or.inr (Or.inr ⟨by simpa using haddr, Or.inr (by simpa using hblock)⟩)
    · intro _
      simpa using haddr

/-- Coherent with sound slots. -/
structure Sound (d : Daemon) : Prop where
  coherent : d.Coherent
  slot : ∀ w, d.SlotSound w

namespace Sound

theorem maintainWorker (h : d.Sound) (w : Nat) :
    ∃ d', d.maintainWorker [] w = some d' ∧ d'.Sound ∧ d'.SlotMapped w ∧
      ∀ v, d.SlotMapped v → d'.SlotMapped v := by
  obtain ⟨d', hstep, hsound, hmapped⟩ := (h.slot w).maintainWorker h.coherent
  have hhandled := SlotHandled.of_maintainWorker hstep
  refine ⟨d', hstep, ⟨h.coherent.maintainWorker hstep, fun v => ?_⟩, hmapped, fun v hv => ?_⟩
  · rcases eq_or_ne v w with rfl | hne
    · exact hsound
    · exact (h.slot v).congr (hhandled.table v hne) (hhandled.worker v hne)
  · rcases eq_or_ne v w with rfl | hne
    · exact hmapped
    · exact hv.congr (hhandled.table v hne) (hhandled.worker v hne)

/-- A maintenance pass over sound slots succeeds and leaves every worker mapped. -/
theorem maintainWorkerResource (h : d.Sound) :
    ∃ d', d.maintainWorkerResource [] = some d' ∧ d'.Sound ∧
      ∀ w < defaultWorkerSize, d'.SlotMapped w := by
  obtain ⟨d', hrun, hd', hall, _⟩ := Loop.foldlM_forall (l := List.range defaultWorkerSize)
    (f := fun d w => Daemon.maintainWorker [] w d) (fun w d hd => hd.maintainWorker w) h
  exact ⟨d', hrun, hd', fun w hw => hall w (List.mem_range.mpr hw)⟩

theorem taskTurn (h : ∀ w, d.SlotSound w) (hturn : d.taskTurn = some d') (w : Nat) :
    d'.SlotSound w := by
  obtain ⟨task, q, _, rfl⟩ := taskTurn_eq_some hturn
  cases task with
  | addTimer t => exact (h w).congr rfl rfl
  | delTimer t => exact (h w).congr rfl rfl
  | addWorker v => exact (h w).congr rfl rfl
  | delWorker v =>
    rcases eq_or_ne w v with rfl | hne
    · exact Or.inl (by simp [taskTable])
    · exact (h w).congr (Function.update_of_ne hne _ _) rfl

theorem step {e : DaemonEvent} (h : d.Sound) (he : e.TakesUnmapped d) (hstep : e.step d = some d') :
    d'.Sound := by
  refine ⟨h.coherent.step hstep, ?_⟩
  cases e with
  | spiInit processId threadId instId =>
    cases hstep
    intro w
    unfold spiInit
    split
    · exact h.slot w
    · next u hu =>
      rcases eq_or_ne w u with rfl | hne
      · -- The slot that is taken is unmapped, so the next pass opens it.
        exact Or.inr (Or.inl ⟨by simp, he w hu⟩)
      · exact (h.slot w).congr (Function.update_of_ne hne _ _) rfl
  | register n r =>
    cases hstep
    exact fun w => (h.slot w).congr rfl rfl
  | write n f =>
    cases hstep
    exact fun w => (h.slot w).congr rfl rfl
  | commit n =>
    cases hstep
    exact fun w => (h.slot w).congr rfl rfl
  | trust deadProcesses deadThreads =>
    cases hstep
    intro w
    by_cases hgone : (d.table w).gone deadProcesses deadThreads
    · exact Or.inl (by simp [trustThreadProc, hgone, WorkerInfo.zero])
    · exact (h.slot w).congr (if_neg hgone) rfl
  | maintain refused =>
    cases he
    obtain ⟨d₁, hrun, hd₁, _⟩ := h.maintainWorkerResource
    cases Option.some.inj (hstep.symm.trans hrun)
    exact hd₁.slot
  | tick fuel now simTime count =>
    exact tick_invariant (I := fun d => ∀ w, d.SlotSound w) (fun _ hd => hd)
      (fun _ _ hturn hd => taskTurn hd hturn) (fun _ _ _ hd => hd) hstep h.slot

theorem createResourceService (processId : Int) (instId : Nat) (shm : Nat → WorkerShm) :
    (Daemon.createResourceService processId instId shm).Sound := by
  refine ⟨Coherent.createResourceService processId instId shm, fun w => ?_⟩
  rcases eq_or_ne w 0 with rfl | hne
  · exact Or.inr (Or.inr ⟨rfl, Or.inl rfl⟩)
  · exact Or.inl (by simp [Daemon.createResourceService, hne, WorkerInfo.zero])

end Sound

end Daemon

/-- In every run in which workers register in unmapped slots, a maintenance pass
succeeds, and after it the shared memory mapped for each registered worker is its
own. -/
theorem mapped_after_maintain_of_run {processId : Int} {instId : Nat} {shm : Nat → WorkerShm}
    {d : Daemon}
    (h : Run.Reachable DaemonEvent.step DaemonEvent.TakesUnmapped
      (Daemon.createResourceService processId instId shm) d) :
    ∃ d', d.maintainWorkerResource [] = some d' ∧
      ∀ w < defaultWorkerSize, (d'.table w).instId ≠ 0 →
        (d'.worker w).addr = some (d'.table w).instId := by
  have hsound : d.Sound := h.invariant (fun _ _ _ he hstep hd => hd.step he hstep)
    (Daemon.Sound.createResourceService processId instId shm)
  obtain ⟨d', hrun, _, hmapped⟩ := hsound.maintainWorkerResource
  exact ⟨d', hrun, hmapped⟩

/-- A worker is opened and dies, and another one registers before the next pass. -/
def reregistered : List DaemonEvent :=
  [.spiInit 100 1 5, .maintain [], .trust [100] [], .spiInit 101 2 6]

theorem stale_mapping_of_reregistered :
    ¬ ∀ (processId : Int) (instId : Nat) (shm : Nat → WorkerShm) (d d' : Daemon),
      Run.Reachable DaemonEvent.step (fun e _ => e.slotEvent = true)
        (Daemon.createResourceService processId instId shm) d →
      d.maintainWorkerResource [] = some d' →
      ∀ w < defaultWorkerSize, (d'.table w).instId ≠ 0 →
        (d'.worker w).addr = some (d'.table w).instId := by
  intro h
  obtain ⟨d, hrun, hd⟩ := Run.exists_reachable_of_execute DaemonEvent.step
    (fun e _ => e.slotEvent = true) reregistered
    (s := Daemon.createResourceService 99 4 fun _ => WorkerShm.zero)
    (p := fun d => (d.maintainWorkerResource []).any fun d' =>
      (d'.table 1).instId = 6 ∧ (d'.worker 1).addr = some 5) (by decide +kernel)
  obtain ⟨d', hpass, hd'⟩ := (Option.any_eq_true _ _).mp hd
  obtain ⟨hinst, haddr⟩ := of_decide_eq_true hd'
  have hmapped := h _ _ _ d d' hrun hpass 1 (by decide) (by rw [hinst]; decide)
  rw [hinst, haddr] at hmapped
  exact absurd hmapped (by decide)

/-- A worker is opened and dies, its slot is closed, and another worker takes the slot. -/
theorem mapped_after_maintain_of_run_reuse :
    ∃ d d', Run.Reachable DaemonEvent.step DaemonEvent.TakesUnmapped
        (Daemon.createResourceService 99 4 fun _ => WorkerShm.zero) d ∧
      d.maintainWorkerResource [] = some d' ∧ (d'.worker 1).addr = some 6 := by
  obtain ⟨d, hrun, hd⟩ := Run.exists_reachable_of_execute DaemonEvent.step
    DaemonEvent.TakesUnmapped
    [.spiInit 100 1 5, .maintain [], .trust [100] [], .maintain [], .spiInit 101 2 6]
    (s := Daemon.createResourceService 99 4 fun _ => WorkerShm.zero)
    (p := fun d => (d.maintainWorkerResource []).any fun d' => (d'.table 1).instId = 6)
    (by decide +kernel)
  obtain ⟨d', hpass, hmapped⟩ := mapped_after_maintain_of_run hrun
  rw [hpass] at hd
  have hinst : (d'.table 1).instId = 6 := of_decide_eq_true hd
  refine ⟨d, d', hrun, hpass, ?_⟩
  rw [hmapped 1 (by decide) (by rw [hinst]; decide), hinst]

/-! ## Keeping the record -/

/-- A worker registers in a slot only when no removal of an earlier worker of the slot
is queued. -/
def DaemonEvent.TakesReleased : DaemonEvent → Daemon → Prop
  | .spiInit _ _ _, d => ∀ w ∈ d.freeSlot, ResTask.delWorker w ∉ d.queue.entries
  | _, _ => True

instance : ∀ (e : DaemonEvent) (d : Daemon), Decidable (e.TakesReleased d)
  | .spiInit _ _ _, d =>
    inferInstanceAs (Decidable (∀ w ∈ d.freeSlot, ResTask.delWorker w ∉ d.queue.entries))
  | .register _ _, _ | .write _ _, _ | .commit _, _ | .trust _ _, _ | .maintain _, _
  | .tick _ _ _ _, _ => isTrue trivial

/-- The event is a trust pass that finds the worker of the slot dead. -/
def DaemonEvent.FindsDead : DaemonEvent → Daemon → Nat → Prop
  | .trust deadProcesses deadThreads, d, w => (d.table w).gone deadProcesses deadThreads
  | _, _, _ => False

namespace Daemon

/-- Removals are queued for free slots only. -/
def RemovesFree (d : Daemon) : Prop :=
  ∀ w, ResTask.delWorker w ∈ d.queue.entries → (d.table w).instId = 0

/-- Every worker of `d` has its record in `d'`. -/
def KeepsRecords (d d' : Daemon) : Prop :=
  ∀ w, (d.table w).instId ≠ 0 → (d'.table w).instId = (d.table w).instId

theorem KeepsRecords.trans {d'' : Daemon} (h : KeepsRecords d d') (h' : KeepsRecords d' d'') :
    KeepsRecords d d'' := fun w hw =>
  (h' w (by rwa [h w hw])).trans (h w hw)

namespace RemovesFree

theorem maintainWorker {refused : List Nat} (hd : d.RemovesFree)
    (h : d.maintainWorker refused w = some d') : d'.RemovesFree ∧ KeepsRecords d d' := by
  have hhandled := SlotHandled.of_maintainWorker h
  refine ⟨fun v hv => ?_, fun v _ => hhandled.instId v⟩
  rw [hhandled.instId v]
  rcases hhandled.adds _ hv with hmem | ⟨heq, hinst⟩ | ⟨_, _, heq | heq⟩
  · exact hd v hmem
  · cases heq
    exact hinst
  · cases heq
  · cases heq

/-- A removal meets a free slot, so clearing the record changes no instance. -/
theorem taskTurn (hd : d.RemovesFree) (h : d.taskTurn = some d') :
    d'.RemovesFree ∧ KeepsRecords d d' := by
  obtain ⟨task, q, hq, rfl⟩ := taskTurn_eq_some h
  have htable : ∀ v, (taskTable d.table task v).instId = (d.table v).instId := by
    intro v
    cases task with
    | addTimer t => rfl
    | delTimer t => rfl
    | addWorker u => rfl
    | delWorker u =>
      have hfree : (d.table u).instId = 0 := hd u (by rw [hq]; exact List.mem_cons_self)
      rcases eq_or_ne v u with rfl | hne
      · simp [taskTable, hfree]
      · simp [taskTable, hne]
  refine ⟨fun v hv => (htable v).trans (hd v ?_), fun v _ => htable v⟩
  rw [hq]
  exact List.mem_cons_of_mem _ hv

theorem step {e : DaemonEvent} (hd : d.RemovesFree) (he : e.TakesReleased d)
    (h : e.step d = some d') :
    d'.RemovesFree ∧
      ∀ w, (d.table w).instId ≠ 0 →
        (d'.table w).instId = (d.table w).instId ∨ e.FindsDead d w := by
  cases e with
  | spiInit processId threadId instId =>
    cases h
    unfold spiInit
    split
    · exact ⟨hd, fun w _ => Or.inl rfl⟩
    · next u hu =>
      refine ⟨fun w hw => ?_, fun w hw => Or.inl ?_⟩
      · rcases eq_or_ne w u with rfl | hne
        · exact absurd hw (he w hu)
        · simpa [hne] using hd w hw
      · -- Only a free record is taken.
        have hfree : (d.table u).instId = 0 := by simpa using List.find?_some hu
        rcases eq_or_ne w u with rfl | hne
        · exact absurd hfree hw
        · simp [hne]
  | register n r =>
    cases h
    exact ⟨hd, fun w _ => Or.inl rfl⟩
  | write n f =>
    cases h
    exact ⟨hd, fun w _ => Or.inl rfl⟩
  | commit n =>
    cases h
    exact ⟨hd, fun w _ => Or.inl rfl⟩
  | trust deadProcesses deadThreads =>
    cases h
    refine ⟨fun w hw => ?_, fun w _ => ?_⟩
    · by_cases hgone : (d.table w).gone deadProcesses deadThreads
      · simp [trustThreadProc, hgone, WorkerInfo.zero]
      · simpa [trustThreadProc, hgone] using hd w hw
    · by_cases hgone : (d.table w).gone deadProcesses deadThreads
      · exact Or.inr hgone
      · exact Or.inl (by simp [trustThreadProc, hgone])
  | maintain refused =>
    have hinv := maintainWorkerResource_invariant
      (I := fun d₁ => d₁.RemovesFree ∧ KeepsRecords d d₁)
      (fun _ _ _ hstep hd₁ => ⟨(hd₁.1.maintainWorker hstep).1,
        hd₁.2.trans (hd₁.1.maintainWorker hstep).2⟩) h ⟨hd, fun _ _ => rfl⟩
    exact ⟨hinv.1, fun w hw => Or.inl (hinv.2 w hw)⟩
  | tick fuel now simTime count =>
    have hinv := tick_invariant (I := fun d₁ => d₁.RemovesFree ∧ KeepsRecords d d₁)
      (fun _ hd₁ => hd₁)
      (fun _ _ hturn hd₁ => ⟨(hd₁.1.taskTurn hturn).1, hd₁.2.trans (hd₁.1.taskTurn hturn).2⟩)
      (fun _ _ _ hd₁ => hd₁) h ⟨hd, fun _ _ => rfl⟩
    exact ⟨hinv.1, fun w hw => Or.inl (hinv.2 w hw)⟩

theorem createResourceService (processId : Int) (instId : Nat) (shm : Nat → WorkerShm) :
    (Daemon.createResourceService processId instId shm).RemovesFree := fun _ h =>
  absurd h (by simp [Daemon.createResourceService, BArray.empty])

end RemovesFree

end Daemon

/-- In every run in which workers register in slots without a queued removal, no event
changes the record of a registered worker but a trust pass that finds this worker
dead. -/
theorem record_kept_of_run {processId : Int} {instId : Nat} {shm : Nat → WorkerShm} {d d' : Daemon}
    (h : Run.Reachable DaemonEvent.step DaemonEvent.TakesReleased
      (Daemon.createResourceService processId instId shm) d)
    {e : DaemonEvent} (he : e.TakesReleased d) (hstep : e.step d = some d') (w : Nat)
    (hinst : (d.table w).instId ≠ 0) :
    (d'.table w).instId = (d.table w).instId ∨ e.FindsDead d w := by
  have hfree : d.RemovesFree := h.invariant (fun _ _ _ he hstep hd => (hd.step he hstep).1)
    (Daemon.RemovesFree.createResourceService processId instId shm)
  exact (hfree.step he hstep).2 w hinst

/-- Registrations, trust passes, maintenance passes and ticks. -/
def DaemonEvent.tableEvent : DaemonEvent → Bool
  | .spiInit _ _ _ | .trust _ _ | .maintain _ | .tick _ _ _ _ => true
  | _ => false

/-- A worker dies and is closed, and another one registers before the next tick. -/
def takenOver : List DaemonEvent :=
  [.spiInit 100 1 5, .maintain [], .trust [100] [], .maintain [], .spiInit 101 2 6]

theorem record_cleared_by_earlier_removal :
    ¬ ∀ (processId : Int) (instId : Nat) (shm : Nat → WorkerShm) (d d' : Daemon) (e : DaemonEvent),
      Run.Reachable DaemonEvent.step (fun e _ => e.tableEvent = true)
        (Daemon.createResourceService processId instId shm) d →
      e.tableEvent = true → e.step d = some d' →
      ∀ w, (d.table w).instId ≠ 0 →
        (d'.table w).instId = (d.table w).instId ∨ e.FindsDead d w := by
  intro h
  obtain ⟨d, hrun, hd⟩ := Run.exists_reachable_of_execute DaemonEvent.step
    (fun e _ => e.tableEvent = true) takenOver
    (s := Daemon.createResourceService 99 4 fun _ => WorkerShm.zero)
    (p := fun d => (d.tick 10 1 0 1).any fun d' =>
      (d.table 1).instId = 6 ∧ (d'.table 1).instId = 0) (by decide +kernel)
  obtain ⟨d', htick, hd'⟩ := (Option.any_eq_true _ _).mp hd
  obtain ⟨hinst, hcleared⟩ := of_decide_eq_true hd'
  rcases h _ _ _ d d' (.tick 10 1 0 1) hrun rfl htick 1 (by rw [hinst]; decide) with hkept | hdead
  · rw [hinst, hcleared] at hkept
    exact absurd hkept (by decide)
  · exact hdead

theorem record_kept_of_run_oneWorker :
    ∃ d d', Run.Reachable DaemonEvent.step DaemonEvent.TakesReleased
        (Daemon.createResourceService 99 4 fun _ => WorkerShm.zero) d ∧
      DaemonEvent.step (.maintain []) d = some d' ∧ (d'.table 1).instId = 5 := by
  obtain ⟨d, hrun, hd⟩ := Run.exists_reachable_of_execute DaemonEvent.step
    DaemonEvent.TakesReleased [.spiInit 100 1 5]
    (s := Daemon.createResourceService 99 4 fun _ => WorkerShm.zero)
    (p := fun d => (d.maintainWorkerResource []).any fun _ => (d.table 1).instId = 5)
    (by decide +kernel)
  obtain ⟨d', hpass, hd'⟩ := (Option.any_eq_true _ _).mp hd
  have hinst : (d.table 1).instId = 5 := of_decide_eq_true hd'
  refine ⟨d, d', hrun, hpass, ?_⟩
  rcases record_kept_of_run hrun (e := .maintain []) trivial hpass 1 (by rw [hinst]; decide) with
    hkept | hdead
  · exact hkept.trans hinst
  · exact hdead.elim

end LMiced
