import LMiced.Resource.Daemon
import LMiced.Spi.Identity

/-!
# Initialisation of a worker

`lmice_spi::init` of `spi/main.cpp`. It opens the shared memory and the event of the server,
creates those of the worker, and writes a record into the worker table. What the first two
steps return is overwritten, and `init` returns 0 in any case: when it returns. After a
failure of the server's side it locks the table through a null pointer, and after a failure
of the worker's side it writes through a pointer that was never set. A result `none` stands
for such an access.

* `spiInit_eq`: when everything succeeds, this is the event of `Resource.Daemon`;
* `init_registers_iff`: when a call registers the worker, or fails as it should.
-/

namespace LMiced

namespace SpiInit

/-! ## The steps -/

/-- What the calls of the operating system return, with the addresses of the memories. -/
structure Env where
  openServerShm : Int × Nat
  openServerEvent : Int
  createWorkerShm : Int × Nat
  createWorkerEvent : Int

/-- `m_server` and `m_worker`. -/
structure Spi where
  server : Option Nat
  worker : Option Nat
deriving DecidableEq, Repr

/-- The object as its constructor leaves it. -/
def Spi.new : Spi := ⟨none, none⟩

/-- `lmice_spi::open_server_resource`: the result, and the address that `m_server` is set
to. -/
def openServerResource (env : Env) : Int × Option Nat :=
  if env.openServerShm.1 ≠ 0 then (env.openServerShm.1, none)
  else if env.openServerEvent ≠ 0 then (env.openServerEvent, none)
  else (0, some env.openServerShm.2)

/-- `lmice_spi::create_work_resource`: the result, and the address that is put into the new
`lm_worker_res_t`. -/
def createWorkResource (env : Env) : Int × Option Nat :=
  if env.createWorkerShm.1 ≠ 0 then (env.createWorkerShm.1, none)
  else if env.createWorkerEvent ≠ 0 then (env.createWorkerEvent, none)
  else (0, some env.createWorkerShm.2)

/-- The end of `lmice_spi::create_worker_resource`: `m_worker` is taken from the new
`lm_worker_res_t`, which `new` does not clear, and the lock there is written. -/
def createWorkerResource (env : Env) : Option (Int × Nat) :=
  match createWorkResource env with
  | (_, none) => none
  | (_, some addr) => some (0, addr)

/-- A thread id as a number. -/
def tidValue : EalTid → Nat
  | .word32 tid => tid.toNat
  | .word64 tid => tid.toNat

/-- The record of the worker. -/
def record (build : Build) (processId : Int32) (threadId : EalTid) : WorkerInfo :=
  ⟨lmiceVersion, .modified, processId.toInt, tidValue threadId, 0,
    (LMiced.createWorkerResource build processId threadId).toNat⟩

/-- The scan for a record with `inst_id == 0`. -/
def freeRecord (table : Nat → WorkerInfo) : Option Nat :=
  (List.range defaultWorkerSize).find? fun w => (table w).instId = 0

/-- The loop over the table: the record is written in the place of the first free one. -/
def writeRecord (info : WorkerInfo) (table : Nat → WorkerInfo) : Nat → WorkerInfo :=
  match freeRecord table with
  | none => table
  | some w => Function.update table w info

/-- `lmice_spi::init`. -/
def init (build : Build) (processId : Int32) (threadId : EalTid) (env : Env) (spi : Spi)
    (table : Nat → WorkerInfo) : Option (Int × Spi × (Nat → WorkerInfo)) :=
  if spi.worker ≠ none ∧ spi.server ≠ none then some (0, spi, table)
  else
    let server := (openServerResource env).2.or spi.server
    match createWorkerResource env with
    | none => none
    | some (_, worker) =>
      match server with
      | none => none
      | some addr =>
        some (0, ⟨some addr, some worker⟩, writeRecord (record build processId threadId) table)

/-! ## What a call is meant to do -/

/-- The server's shared memory and event can be opened, and the worker's can be created. -/
structure Env.Succeeds (env : Env) : Prop where
  openServerShm : env.openServerShm.1 = 0
  openServerEvent : env.openServerEvent = 0
  createWorkerShm : env.createWorkerShm.1 = 0
  createWorkerEvent : env.createWorkerEvent = 0

/-- A record of the table, which was free, now is that of the worker; the others are as they
were. -/
def RegisteredIn (info : WorkerInfo) (table table' : Nat → WorkerInfo) : Prop :=
  ∃ w, w < defaultWorkerSize ∧ (table w).instId = 0 ∧ table' w = info ∧
    ∀ w', w' ≠ w → table' w' = table w'

section Init

variable {build : Build} {processId : Int32} {threadId : EalTid} {env : Env} {spi : Spi}
  {table : Nat → WorkerInfo}

theorem openServerResource_cases (env : Env) :
    (env.openServerShm.1 = 0 ∧ env.openServerEvent = 0 ∧
      openServerResource env = (0, some env.openServerShm.2)) ∨
    (¬(env.openServerShm.1 = 0 ∧ env.openServerEvent = 0) ∧ (openServerResource env).2 = none) := by
  unfold openServerResource
  split
  · next h => exact Or.inr ⟨fun hok => h hok.1, rfl⟩
  · next hshm =>
    split
    · next h => exact Or.inr ⟨fun hok => h hok.2, rfl⟩
    · next hevent => exact Or.inl ⟨not_not.mp hshm, not_not.mp hevent, rfl⟩

theorem createWorkerResource_cases (env : Env) :
    (env.createWorkerShm.1 = 0 ∧ env.createWorkerEvent = 0 ∧
      createWorkerResource env = some (0, env.createWorkerShm.2)) ∨
    (¬(env.createWorkerShm.1 = 0 ∧ env.createWorkerEvent = 0) ∧
      createWorkerResource env = none) := by
  unfold createWorkerResource createWorkResource
  split
  · next heq =>
    split at heq
    · next h => exact Or.inr ⟨fun hok => h hok.1, rfl⟩
    · split at heq
      · next h => exact Or.inr ⟨fun hok => h hok.2, rfl⟩
      · cases heq
  · next heq =>
    split at heq
    · cases heq
    · next hshm =>
      split at heq
      · cases heq
      · next hevent =>
        cases heq
        exact Or.inl ⟨not_not.mp hshm, not_not.mp hevent, rfl⟩

/-- An object that was initialised is left alone. -/
theorem init_again (hserver : spi.server ≠ none) (hworker : spi.worker ≠ none) :
    init build processId threadId env spi table = some (0, spi, table) := by
  rw [init, if_pos ⟨hworker, hserver⟩]

theorem init_of_succeeds (h : env.Succeeds) :
    init build processId threadId env .new table =
      some (0, ⟨some env.openServerShm.2, some env.createWorkerShm.2⟩,
        writeRecord (record build processId threadId) table) := by
  have hserver : openServerResource env = (0, some env.openServerShm.2) := by
    simp [openServerResource, h.openServerShm, h.openServerEvent]
  have hworker : createWorkerResource env = some (0, env.createWorkerShm.2) := by
    simp [createWorkerResource, createWorkResource, h.createWorkerShm, h.createWorkerEvent]
  simp only [init, Spi.new, ne_eq, not_true_eq_false, false_and, if_false, hserver, hworker,
    Option.some_or]

/-- A call on a new object does not return after a failure. -/
theorem init_of_not_succeeds (h : ¬ env.Succeeds) :
    init build processId threadId env .new table = none := by
  simp only [init, Spi.new, ne_eq, not_true_eq_false, false_and, if_false, Option.or_none]
  rcases createWorkerResource_cases env with ⟨hshm, hevent, hworker⟩ | ⟨_, hworker⟩
  · rcases openServerResource_cases env with ⟨hshm', hevent', _⟩ | ⟨_, hserver⟩
    · exact absurd ⟨hshm', hevent', hshm, hevent⟩ h
    · simp only [hworker, hserver]
  · simp only [hworker]

/-- When everything succeeds, the table is what `Resource.Daemon` makes of it. -/
theorem spiInit_eq (h : env.Succeeds) (d : Daemon) :
    (init build processId threadId env .new d.table).map (·.2.2) =
      some (d.spiInit processId.toInt (tidValue threadId)
        (LMiced.createWorkerResource build processId threadId).toNat).table := by
  rw [init_of_succeeds h, Option.map_some, Daemon.spiInit]
  have hfree : freeRecord d.table = d.freeSlot := rfl
  rw [writeRecord, hfree]
  cases d.freeSlot <;> rfl

/-- The loop registers the worker if and only if there is a free record. -/
theorem registeredIn_writeRecord_iff (info : WorkerInfo) (table : Nat → WorkerInfo) :
    RegisteredIn info table (writeRecord info table) ↔
      ∃ w, w < defaultWorkerSize ∧ (table w).instId = 0 := by
  constructor
  · rintro ⟨w, hw, hfree, _⟩
    exact ⟨w, hw, hfree⟩
  · rintro ⟨w, hw, hzero⟩
    unfold writeRecord
    cases hfree : freeRecord table with
    | none =>
      have hnone := List.find?_eq_none.mp hfree w (List.mem_range.mpr hw)
      exact absurd (decide_eq_true hzero) hnone
    | some w' =>
      have hmem := List.mem_range.mp (List.mem_of_find?_eq_some hfree)
      have hzero' : (table w').instId = 0 := by simpa using List.find?_some hfree
      exact ⟨w', hmem, hzero', Function.update_self .., fun w hne => Function.update_of_ne hne ..⟩

end Init

/-- A call on a new object returns 0 with the memory of the worker mapped and its record in
one place of the table that was free, or it returns something else and leaves the table, if
and only if the server's side can be opened, the worker's side can be created and the table
has a free place. -/
theorem init_registers_iff (build : Build) (processId : Int32) (threadId : EalTid) (env : Env)
    (table : Nat → WorkerInfo) :
    (∃ ret spi table', init build processId threadId env .new table = some (ret, spi, table') ∧
      ((ret = 0 ∧ spi.worker = some env.createWorkerShm.2 ∧
          RegisteredIn (record build processId threadId) table table') ∨
        (ret ≠ 0 ∧ table' = table))) ↔
      env.Succeeds ∧ ∃ w, w < defaultWorkerSize ∧ (table w).instId = 0 := by
  by_cases hsucceeds : env.Succeeds
  · rw [init_of_succeeds hsucceeds, and_iff_right hsucceeds,
      ← registeredIn_writeRecord_iff (record build processId threadId) table]
    constructor
    · rintro ⟨ret, spi, table', hinit, ⟨_, _, hregistered⟩ | ⟨hret, _⟩⟩
      · cases hinit
        exact hregistered
      · cases hinit
        exact absurd rfl hret
    · intro hregistered
      exact ⟨0, _, _, rfl, Or.inl ⟨rfl, rfl, hregistered⟩⟩
  · rw [init_of_not_succeeds hsucceeds]
    refine iff_of_false ?_ fun h => hsucceeds h.1
    rintro ⟨ret, spi, table', hinit, _⟩
    cases hinit

/-- The table is full. -/
def fullTable : Nat → WorkerInfo := fun _ => { WorkerInfo.zero with instId := 1 }

/-- A worker that finds the table full is told that it was registered, and one that does not
find the server is not told anything. -/
theorem full_table_returns_zero :
    init .release 7 (.word64 7) ⟨(0, 4096), 0, (0, 8192), 0⟩ .new fullTable =
        some (0, ⟨some 4096, some 8192⟩, fullTable) ∧
      (¬∃ w, w < defaultWorkerSize ∧ (fullTable w).instId = 0) ∧
      init .release 7 (.word64 7) ⟨(2, 0), 0, (0, 8192), 0⟩ .new fullTable = none := by
  refine ⟨?_, ?_, rfl⟩
  · have hfull : freeRecord fullTable = none := by decide
    simp [init, Spi.new, openServerResource, createWorkerResource, createWorkResource, writeRecord,
      hfull]
  · rintro ⟨w, _, hzero⟩
    cases hzero

end SpiInit

end LMiced
