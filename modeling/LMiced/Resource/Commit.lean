import LMiced.Resource.Daemon

/-!
# Committed resources

A worker puts messages, timers and actions into its shared memory and calls
`lmice_spi::commit`, which marks the shared memory as modified and wakes the
maintenance thread. The maintenance thread looks at the state in the worker
table instead, which `lmice_spi::init` sets and which the first synchronisation
resets for good.

`committed_open_of_run`: as long as a worker registers resources only before the
maintenance thread has synchronised it, every resource that it had registered
before a commit is open at the server's side after the next maintenance pass.
-/

namespace LMiced

/-! ## Resources of a worker -/

/-- Every slot that is filled in `shm` is filled in `shm'`. -/
structure WorkerShm.Extends (shm shm' : WorkerShm) : Prop where
  mesg : ∀ i, (shm.mesg i).instId ≠ 0 → (shm'.mesg i).instId ≠ 0
  timer : ∀ i, (shm.timer i).instId ≠ 0 → (shm'.timer i).instId ≠ 0
  action : ∀ i, (shm.action i).instId ≠ 0 → (shm'.action i).instId ≠ 0

/-- Every slot that is filled in `shm` is open for the worker in the table slot `w`. -/
structure Daemon.Serves (d : Daemon) (w : Nat) (shm : WorkerShm) : Prop where
  mesg : ∀ i, (shm.mesg i).instId ≠ 0 → (d.worker w).mesg i ≠ none
  timer : ∀ i, (shm.timer i).instId ≠ 0 → (d.sched.timer (w, i)).active ≠ .notUse
  action : ∀ i, (shm.action i).instId ≠ 0 → (d.worker w).action i = true

namespace WorkerShm

variable {shm shm' shm'' : WorkerShm}

theorem Extends.refl : shm.Extends shm := ⟨fun _ h => h, fun _ h => h, fun _ h => h⟩

theorem Extends.trans (h : shm.Extends shm') (h' : shm'.Extends shm'') : shm.Extends shm'' where
  mesg i hi := h'.mesg i (h.mesg i hi)
  timer i hi := h'.timer i (h.timer i hi)
  action i hi := h'.action i (h.action i hi)

/-- Filling the first free slot leaves the filled slots filled. -/
theorem update_firstFree {α : Type} {slot : ResSlot → α} {instId : α → Nat} {i j : ResSlot}
    (h : (firstFree fun i => instId (slot i)) = some i) (hj : instId (slot j) ≠ 0) (a : α) :
    instId (Function.update slot i a j) ≠ 0 := by
  rcases eq_or_ne j i with rfl | hne
  · have hfree : instId (slot j) = 0 := by simpa using List.find?_some h
    exact absurd hfree hj
  · rwa [Function.update_of_ne hne]

theorem registerMesg_extends (info : MesgInfo) (shm : WorkerShm) :
    shm.Extends (shm.registerMesg info) := by
  unfold registerMesg
  split
  · exact .refl
  · next i hi => exact ⟨fun _ hj => update_firstFree hi hj info, fun _ h => h, fun _ h => h⟩

theorem registerTimer_extends (fill : TimerInfo → TimerInfo) (shm : WorkerShm) :
    shm.Extends (shm.registerTimer fill) := by
  unfold registerTimer
  split
  · exact .refl
  · next i hi => exact ⟨fun _ h => h, fun _ hj => update_firstFree hi hj _, fun _ h => h⟩

theorem registerCustomEvent_extends (instId size : Nat) (shm : WorkerShm) :
    shm.Extends (shm.registerCustomEvent instId size) := by
  unfold registerCustomEvent
  split
  · exact .refl
  · next i hi => exact ⟨fun _ h => h, fun _ h => h, fun _ hj => update_firstFree hi hj _⟩

end WorkerShm

/-- The register functions fill free slots only. -/
theorem Registration.apply_extends (r : Registration) (shm : WorkerShm) :
    shm.Extends (r.apply shm) := by
  cases r with
  | publish instId typeId size => exact shm.registerMesg_extends _
  | subscribe instId typeId => exact shm.registerMesg_extends _
  | tickEvent instId period size due =>
    rw [apply, WorkerShm.registerTickEvent]
    exact shm.registerTimer_extends _
  | timerEvent instId period size due =>
    rw [apply, WorkerShm.registerTimerEvent]
    exact shm.registerTimer_extends _
  | customEvent instId size => exact shm.registerCustomEvent_extends instId size

/-! ## The runs -/

/-- The events of live workers and the maintenance passes they wake, with shared
memory that can be opened. -/
def DaemonEvent.WorkerEvent : DaemonEvent → Prop
  | .spiInit _ _ _ | .register _ _ | .commit _ => True
  | .maintain refused => refused = []
  | _ => False

/-- A worker registers resources only before it is synchronised. -/
def DaemonEvent.RegistersEarly (e : DaemonEvent) (d : Daemon) : Prop :=
  e.WorkerEvent ∧
    match e with
    | .register n _ =>
      ∀ w < defaultWorkerSize, (d.table w).instId = n → (d.table w).state ≠ .running
    | _ => True

instance : DecidablePred DaemonEvent.WorkerEvent
  | .spiInit _ _ _ | .register _ _ | .commit _ => isTrue trivial
  | .maintain refused => inferInstanceAs (Decidable (refused = []))
  | .write _ _ | .trust _ _ | .tick _ _ _ _ => isFalse id

instance (e : DaemonEvent) (d : Daemon) : Decidable (e.RegistersEarly d) := by
  unfold DaemonEvent.RegistersEarly
  cases e <;> infer_instance

namespace Daemon

theorem commit_shm (d : Daemon) (n m : Nat) :
    ∃ state, (d.commit n).shm m = { d.shm m with state := state } := by
  unfold commit
  rcases eq_or_ne m n with rfl | hne
  · exact ⟨.modified, Function.update_self _ _ _⟩
  · exact ⟨(d.shm m).state, Function.update_of_ne hne _ _⟩

/-- A table slot as the runs of live workers leave it. A free slot and a slot whose
worker is not synchronised yet are unmapped or have null pointers for the info
blocks, as slot 0 has from the start. -/
structure SlotServed (d : Daemon) (w : Nat) : Prop where
  fresh : (d.table w).instId = 0 ∨ (d.table w).state = .modified →
    (d.worker w).addr = none ∨ (d.worker w).block = none
  served : (d.table w).state = .running → d.Serves w (d.shm (d.table w).instId)
  live : (d.table w).instId ≠ 0 → (d.table w).state = .modified ∨ (d.table w).state = .running
  bound : (d.table w).state ≠ .unused → w < defaultWorkerSize

variable {d d' : Daemon} {v w : Nat}

theorem Serves.congr {shm shm' : WorkerShm} (h : d.Serves w shm)
    (hworker : d'.worker w = d.worker w)
    (hactive : ∀ i, (d'.sched.timer (w, i)).active = (d.sched.timer (w, i)).active)
    (hshm : shm'.Extends shm) : d'.Serves w shm' where
  mesg i hi := by
    rw [hworker]
    exact h.mesg i (hshm.mesg i hi)
  timer i hi := by
    rw [hactive i]
    exact h.timer i (hshm.timer i hi)
  action i hi := by
    rw [hworker]
    exact h.action i (hshm.action i hi)

theorem SlotServed.congr (h : d.SlotServed w) (htable : d'.table w = d.table w)
    (hworker : d'.worker w = d.worker w)
    (hactive : ∀ i, (d'.sched.timer (w, i)).active = (d.sched.timer (w, i)).active)
    (hshm : (d.table w).state = .running →
      (d'.shm (d.table w).instId).Extends (d.shm (d.table w).instId)) : d'.SlotServed w where
  fresh := by
    rw [htable, hworker]
    exact h.fresh
  served := by
    rw [htable]
    exact fun hrun => (h.served hrun).congr hworker hactive (hshm hrun)
  live := by
    rw [htable]
    exact h.live
  bound := by
    rw [htable]
    exact h.bound

theorem maintainMesg_ne_none {info : MesgInfo} (h : info.instId ≠ 0) (addr : Option Nat) :
    maintainMesg [] info addr ≠ none := by
  unfold maintainMesg
  cases addr with
  | none => simp [h]
  | some a => simp [h]

theorem maintainAction_eq_true {info : ActionInfo} (h : info.instId ≠ 0) (active : Bool) :
    maintainAction info active = true := by
  unfold maintainAction
  cases active with
  | false => simp [h]
  | true => simp [h]

/-- A worker that is opened and synchronised is served. -/
theorem serves_of_syncWorker {n : Nat} (hd : d.Coherent) (hblock : (d.worker w).block = some n)
    (h : d.syncWorker [] w = some d') :
    d'.Serves w (d.shm n) ∧ (d'.table w).state = .running ∧ d'.shm = d.shm := by
  obtain ⟨p, hsync, _, huse⟩ := hd.exists_syncWorker hblock []
  cases Option.some.inj (h.symm.trans hsync)
  refine ⟨⟨fun i hi => ?_, fun i hi => ?_, fun i hi => ?_⟩, by simp [follow], rfl⟩
  · simpa [follow] using maintainMesg_ne_none hi ((d.worker w).mesg i)
  · exact huse i _ (by rw [hd (w, i), hblock, Option.map_some]) hi
  · simpa [follow] using maintainAction_eq_true hi ((d.worker w).action i)

/-- Handling a slot leaves its worker served. -/
theorem SlotServed.maintainWorker (h : d.SlotServed w) (hd : d.Coherent)
    (hstep : d.maintainWorker [] w = some d') :
    d'.SlotServed w ∧ ((d'.table w).instId ≠ 0 → (d'.table w).state = .running) := by
  have hinst' := (SlotHandled.of_maintainWorker hstep).instId w
  rcases maintainWorker_cases hstep with
    ⟨hskip, rfl⟩ | ⟨hrun, _, hinst, rfl⟩ | ⟨hinst, hmod, hsync⟩ | ⟨hinst, hrun, hmod, _⟩
  · refine ⟨h, fun hne => ?_⟩
    rcases hskip with hrun | ⟨_, hzero⟩
    · exact hrun
    · exact absurd hzero hne
  · refine ⟨⟨fun _ => Or.inl ?_, fun hr => absurd hr hrun, h.live, h.bound⟩,
      fun hne => absurd hinst hne⟩
    simp [closeWorkerResource]
  · -- The worker is unmapped, since the pass does not get past null pointers.
    have haddr : (d.worker w).addr = none := by
      rcases h.fresh (Or.inr hmod) with haddr | hblock
      · exact haddr
      · by_contra haddr
        rw [openIfUnmapped, if_neg (fun hand => haddr hand.1), syncWorker, hblock] at hsync
        cases hsync
    have hblock : ((d.openIfUnmapped [] w).worker w).block = some (d.table w).instId := by
      simp [openIfUnmapped, haddr, openWorkerResource]
    have hshm : (d.openIfUnmapped [] w).shm = d.shm := (SlotHandled.of_openIfUnmapped).shm
    obtain ⟨hserves, hrun, hshm'⟩ := serves_of_syncWorker hd.openIfUnmapped hblock hsync
    rw [hshm] at hserves hshm'
    refine ⟨⟨?_, fun _ => ?_, fun _ => Or.inr hrun, fun _ => ?_⟩, fun _ => hrun⟩
    · rintro (hzero | hm)
      · exact absurd (hinst'.symm.trans hzero) hinst
      · exact absurd (hrun.symm.trans hm) (by decide)
    · rw [hinst', hshm']
      exact hserves
    · exact h.bound (by rw [hmod]; decide)
  · rcases h.live hinst with hm | hr
    · exact absurd hm hmod
    · exact absurd hr hrun

/-- Coherent with served slots. -/
structure Served (d : Daemon) : Prop where
  coherent : d.Coherent
  slot : ∀ w, d.SlotServed w

namespace Served

theorem maintainWorker (h : d.Served) (hstep : d.maintainWorker [] w = some d') :
    d'.Served ∧ ((d'.table w).instId ≠ 0 → (d'.table w).state = .running) ∧
      ∀ v, ((d.table v).instId ≠ 0 → (d.table v).state = .running) →
        (d'.table v).instId ≠ 0 → (d'.table v).state = .running := by
  have hhandled := SlotHandled.of_maintainWorker hstep
  obtain ⟨hslot, hrun⟩ := (h.slot w).maintainWorker h.coherent hstep
  refine ⟨⟨h.coherent.maintainWorker hstep, fun v => ?_⟩, hrun, fun v hv => ?_⟩
  · rcases eq_or_ne v w with rfl | hne
    · exact hslot
    · refine (h.slot v).congr (hhandled.table v hne) (hhandled.worker v hne)
        (fun i => hhandled.active (v, i) hne) fun _ => ?_
      rw [hhandled.shm]
      exact .refl
  · rcases eq_or_ne v w with rfl | hne
    · exact hrun
    · rw [hhandled.table v hne]
      exact hv

/-- After a maintenance pass every registered worker runs. -/
theorem maintainWorkerResource (h : d.Served) (hpass : d.maintainWorkerResource [] = some d') :
    d'.Served ∧
      ∀ v < defaultWorkerSize, (d'.table v).instId ≠ 0 → (d'.table v).state = .running := by
  refine ⟨Daemon.maintainWorkerResource_invariant
    (fun _ _ _ hstep hd => (maintainWorker hd hstep).1) hpass h, ?_⟩
  have hall := Loop.foldlM_forall_of_eq_some (I := Served)
    (Q := fun v d => (d.table v).instId ≠ 0 → (d.table v).state = .running)
    (fun _ _ _ hstep hd => maintainWorker hd hstep) hpass h
  exact fun v hv => hall.1 v (List.mem_range.mpr hv)

theorem step {e : DaemonEvent} (h : d.Served) (he : e.RegistersEarly d)
    (hstep : e.step d = some d') : d'.Served := by
  refine ⟨h.coherent.step hstep, ?_⟩
  obtain ⟨hworker, hearly⟩ := he
  cases e with
  | spiInit processId threadId instId =>
    cases hstep
    intro w
    unfold spiInit
    split
    · exact h.slot w
    · next u hu =>
      rcases eq_or_ne w u with rfl | hne
      · have hfree : (d.table w).instId = 0 := by simpa using List.find?_some hu
        have hbound : w < defaultWorkerSize := List.mem_range.mp (List.mem_of_find?_eq_some hu)
        exact ⟨fun _ => (h.slot w).fresh (Or.inl hfree), by simp, by simp, fun _ => hbound⟩
      · exact (h.slot w).congr (Function.update_of_ne hne _ _) rfl (fun _ => rfl) fun _ => .refl
  | register n r =>
    cases hstep
    intro w
    refine (h.slot w).congr rfl rfl (fun _ => rfl) fun hrun => ?_
    have hbound := (h.slot w).bound (by rw [hrun]; decide)
    have hne : (d.table w).instId ≠ n := fun heq => hearly w hbound heq hrun
    simp only [write, refresh_shm, Function.update_of_ne hne]
    exact .refl
  | write n f => exact hworker.elim
  | commit n =>
    cases hstep
    intro w
    refine (h.slot w).congr rfl rfl (fun _ => rfl) fun _ => ?_
    obtain ⟨state, hshm⟩ := commit_shm d n (d.table w).instId
    rw [hshm]
    exact ⟨fun _ h => h, fun _ h => h, fun _ h => h⟩
  | trust deadProcesses deadThreads => exact hworker.elim
  | maintain refused =>
    cases hworker
    exact (h.maintainWorkerResource hstep).1.slot
  | tick fuel now simTime count => exact hworker.elim

theorem createResourceService (processId : Int) (instId : Nat) (shm : Nat → WorkerShm) :
    (Daemon.createResourceService processId instId shm).Served := by
  refine ⟨Coherent.createResourceService processId instId shm, fun w => ?_⟩
  rcases eq_or_ne w 0 with rfl | hne
  · refine ⟨fun _ => Or.inr rfl, fun _ => ?_, fun _ => Or.inr rfl, fun _ => by decide⟩
    -- The shared memory of the daemon itself is empty.
    constructor <;> intro i hi <;>
      simp [Daemon.createResourceService, WorkerShm.zero, TimerInfo.zero] at hi
  · have htable :
        (Daemon.createResourceService processId instId shm).table w = WorkerInfo.zero := by
      simp [Daemon.createResourceService, hne]
    have haddr : ((Daemon.createResourceService processId instId shm).worker w).addr = none := by
      simp [Daemon.createResourceService, hne]
    constructor
    · exact fun _ => Or.inl haddr
    · rw [htable]
      intro hrun
      cases hrun
    · rw [htable]
      exact fun hinst => absurd rfl hinst
    · rw [htable]
      exact fun hused => absurd rfl hused

end Served

/-- In the runs of live workers shared memory only fills up. -/
theorem shm_extends_of_step {e : DaemonEvent} (he : e.WorkerEvent) (hstep : e.step d = some d')
    (n : Nat) : (d.shm n).Extends (d'.shm n) := by
  cases e with
  | spiInit processId threadId instId =>
    cases hstep
    unfold spiInit
    split <;> exact .refl
  | register m r =>
    cases hstep
    simp only [Daemon.write, refresh_shm]
    rcases eq_or_ne n m with rfl | hne
    · rw [Function.update_self]
      exact r.apply_extends _
    · rw [Function.update_of_ne hne]
      exact .refl
  | write m f => exact he.elim
  | commit m =>
    cases hstep
    obtain ⟨state, hshm⟩ := commit_shm d m n
    rw [hshm]
    exact ⟨fun _ h => h, fun _ h => h, fun _ h => h⟩
  | trust deadProcesses deadThreads => exact he.elim
  | maintain refused =>
    have hshm : d'.shm = d.shm := maintainWorkerResource_invariant (I := fun d₁ => d₁.shm = d.shm)
      (fun _ _ _ hslot hd => (SlotHandled.of_maintainWorker hslot).shm.trans hd) hstep rfl
    rw [hshm]
    exact .refl
  | tick fuel now simTime count => exact he.elim

end Daemon

/-- In every run in which workers register their resources before they are
synchronised, when a commit of the worker `n` is followed by a maintenance pass,
then after it everything that the worker had registered before the commit is
open. -/
theorem committed_open_of_run {processId : Int} {instId : Nat} {shm : Nat → WorkerShm}
    {d d₁ d₂ : Daemon} {n : Nat}
    (h : Run.Reachable DaemonEvent.step DaemonEvent.RegistersEarly
      (Daemon.createResourceService processId instId shm) d)
    (h₁ : Run.Reachable DaemonEvent.step DaemonEvent.RegistersEarly (d.commit n) d₁)
    (hpass : d₁.maintainWorkerResource [] = some d₂) (w : Nat) (hw : w < defaultWorkerSize)
    (hn : n ≠ 0) (hinst : (d₂.table w).instId = n) : d₂.Serves w (d.shm n) := by
  have hcommit : DaemonEvent.RegistersEarly (.commit n) d := ⟨trivial, trivial⟩
  have hrun₁ : Run.Reachable DaemonEvent.step DaemonEvent.RegistersEarly
      (Daemon.createResourceService processId instId shm) d₁ := (h.tail hcommit rfl).trans h₁
  have hserved : d₁.Served := hrun₁.invariant (fun _ _ _ he hstep hd => hd.step he hstep)
    (Daemon.Served.createResourceService processId instId shm)
  have hextends : (d.shm n).Extends (d₁.shm n) :=
    h₁.invariant (I := fun d₁ => (d.shm n).Extends (d₁.shm n))
      (fun _ _ _ he hstep hd => hd.trans (Daemon.shm_extends_of_step he.1 hstep n))
      (Daemon.shm_extends_of_step hcommit.1 rfl n)
  have hmaintain : DaemonEvent.WorkerEvent (.maintain []) := rfl
  have hextends₂ : (d₁.shm n).Extends (d₂.shm n) :=
    Daemon.shm_extends_of_step hmaintain hpass n
  obtain ⟨hserved₂, hall⟩ := hserved.maintainWorkerResource hpass
  have hrun : (d₂.table w).state = .running := hall w hw (by rwa [hinst])
  have hserves := (hserved₂.slot w).served hrun
  rw [hinst] at hserves
  exact hserves.congr rfl (fun _ => rfl) (hextends.trans hextends₂)

/-- A worker is opened because another worker woke the maintenance thread, and
registers a timer after that. -/
def openedTooEarly : List DaemonEvent :=
  [.spiInit 100 1 5, .maintain [], .register 5 (.timerEvent 7 100000 1 0)]

theorem committed_timer_not_opened :
    ¬ ∀ (processId : Int) (instId : Nat) (shm : Nat → WorkerShm) (d d₁ d₂ : Daemon) (n : Nat),
      Run.Reachable DaemonEvent.step (fun e _ => e.WorkerEvent)
        (Daemon.createResourceService processId instId shm) d →
      Run.Reachable DaemonEvent.step (fun e _ => e.WorkerEvent) (d.commit n) d₁ →
      d₁.maintainWorkerResource [] = some d₂ →
      ∀ w < defaultWorkerSize, n ≠ 0 → (d₂.table w).instId = n → d₂.Serves w (d.shm n) := by
  intro h
  obtain ⟨d, hrun, hd⟩ := Run.exists_reachable_of_execute DaemonEvent.step
    (fun e _ => e.WorkerEvent) openedTooEarly
    (s := Daemon.createResourceService 99 4 fun _ => WorkerShm.zero)
    (p := fun d => ((d.commit 5).maintainWorkerResource []).any fun d₂ =>
      (d₂.table 1).instId = 5 ∧ ((d.shm 5).timer 0).instId = 7 ∧
        (d₂.sched.timer (1, 0)).active = .notUse) (by decide +kernel)
  obtain ⟨d₂, hpass, hd₂⟩ := (Option.any_eq_true _ _).mp hd
  obtain ⟨hinst, hfilled, hclosed⟩ := of_decide_eq_true hd₂
  have hserves := h _ _ _ d (d.commit 5) d₂ 5 hrun .refl hpass 1 (by decide) (by decide) hinst
  exact hserves.timer 0 (by rw [hfilled]; decide) hclosed

theorem committed_open_of_run_oneTimer :
    ∃ d d₂, Run.Reachable DaemonEvent.step DaemonEvent.RegistersEarly
        (Daemon.createResourceService 99 4 fun _ => WorkerShm.zero) d ∧
      (d.commit 5).maintainWorkerResource [] = some d₂ ∧
      (d₂.sched.timer (1, 0)).active ≠ .notUse := by
  obtain ⟨d, hrun, hd⟩ := Run.exists_reachable_of_execute DaemonEvent.step
    DaemonEvent.RegistersEarly [.spiInit 100 1 5, .register 5 (.timerEvent 7 100000 1 0)]
    (s := Daemon.createResourceService 99 4 fun _ => WorkerShm.zero)
    (p := fun d => ((d.commit 5).maintainWorkerResource []).any fun d₂ =>
      (d₂.table 1).instId = 5 ∧ ((d.shm 5).timer 0).instId = 7) (by decide +kernel)
  obtain ⟨d₂, hpass, hd₂⟩ := (Option.any_eq_true _ _).mp hd
  obtain ⟨hinst, hfilled⟩ := of_decide_eq_true hd₂
  have hserves := committed_open_of_run hrun .refl hpass 1 (by decide) (by decide) hinst
  exact ⟨d, d₂, hrun, hpass, hserves.timer 0 (by rw [hfilled]; decide)⟩

end LMiced
