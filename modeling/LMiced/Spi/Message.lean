import LMiced.Spi.Identity
import LMiced.Resource.Daemon
import LMiced.Eal.Names

/-!
# The shared memory of messages

A message is a shared memory, named by the instance id of the message
(`eal/lmice_eal_shm.c`). `register_publish` and `register_subscribe` of
`spi/main.cpp` both make sure that it exists, by `create_shm_resource`. The objects of
the operating system are a map from names to contents.

* `createShmResource_eq`: the shared memory is cut to the size that is asked for and
  cleared, also when it exists already;
* `subscribe_keeps_block_iff`: what becomes of a published message when somebody
  subscribes to it.
-/

namespace LMiced

/-! ## Shared memory objects -/

/-- The name of a shared memory object. -/
abbrev ShmName := Bytes

/-- The shared memory objects with their contents. -/
abbrev Shms := ShmName → Option (List UInt8)

/-- The name of the shared memory with an id, as `shm_open` reads it. By `objectName_posix`
there is one for every id. -/
def shmName (hval : UInt64) : ShmName := (Names.objectName .posix .shm hval).getD []

/-- What the calls of the operating system return, 0 for success. -/
structure ShmCalls where
  shmOpen : Int
  ftruncate : Int
  mmap : Int
deriving DecidableEq, Repr

/-- All calls succeed. -/
def ShmCalls.ok : ShmCalls := ⟨0, 0, 0⟩

/-- `shm_open` with `O_CREAT`: an object that exists is opened as it is. -/
def shmOpenCreat (name : ShmName) (os : Shms) : Shms :=
  Function.update os name (some ((os name).getD []))

/-- `ftruncate`: bytes beyond the size are lost, missing ones are zero. -/
def ftruncate (name : ShmName) (size : Nat) (os : Shms) : Shms :=
  Function.update os name ((os name).map fun content =>
    content.take size ++ List.replicate (size - content.length) 0)

/-- `memset` of the first `size` bytes of the mapped object to 0. -/
def memsetZero (name : ShmName) (size : Nat) (os : Shms) : Shms :=
  Function.update os name ((os name).map fun content =>
    List.replicate size 0 ++ content.drop size)

/-- `eal_shm_open_with_mode` with the mode `O_RDWR|O_CREAT`. An object that cannot be
truncated is unlinked. -/
def ealShmOpenWithMode (calls : ShmCalls) (name : ShmName) (size : Nat) (os : Shms) :
    Int × Shms :=
  if calls.shmOpen ≠ 0 then (calls.shmOpen, os)
  else
    let os := shmOpenCreat name os
    if calls.ftruncate ≠ 0 then (calls.ftruncate, Function.update os name none)
    else (calls.mmap, ftruncate name size os)

/-- `eal_shm_create`. -/
def ealShmCreate (calls : ShmCalls) (name : ShmName) (size : Nat) (os : Shms) : Int × Shms :=
  ealShmOpenWithMode calls name size os

/-- `lmice_spi::create_shm_resource`. -/
def createShmResource (calls : ShmCalls) (id : UInt64) (size : Nat) (os : Shms) : Int × Shms :=
  let created := ealShmCreate calls (shmName id) size os
  if created.1 ≠ 0 then created else (0, memsetZero (shmName id) size created.2)

/-- What was in the shared memory before is lost. -/
theorem createShmResource_eq (id : UInt64) (size : Nat) (os : Shms) :
    createShmResource .ok id size os =
      (0, Function.update os (shmName id) (some (List.replicate size 0))) := by
  have hdrop : ∀ content : List UInt8,
      (content.take size ++ List.replicate (size - content.length) 0).drop size = [] := by
    intro content
    apply List.drop_eq_nil_of_le
    simp only [List.length_append, List.length_take, List.length_replicate]
    omega
  simp [createShmResource, ealShmCreate, ealShmOpenWithMode, ShmCalls.ok, shmOpenCreat, ftruncate,
    memsetZero, hdrop]

/-! ## Registering a message -/

/-- The part that `register_publish` and `register_subscribe` share. `locked` says that
`eal_spin_trylock` gives up. -/
def registerMessage (calls : ShmCalls) (locked : Bool) (instId : UInt64) (size : Nat)
    (info : MesgInfo) (os : Shms) (worker : WorkerShm) : Int × Shms × WorkerShm :=
  if locked then (1, os, worker)
  else
    match WorkerShm.firstFree fun i => (worker.mesg i).instId with
    | none => (1, os, worker)
    | some i =>
      let created := createShmResource calls instId size os
      if created.1 ≠ 0 then (created.1, created.2, worker)
      else (0, created.2, { worker with mesg := Function.update worker.mesg i info })

/-- `lmice_spi::register_publish`. -/
def spiRegisterPublish (build : Build) (calls : ShmCalls) (locked : Bool) (session : UInt64)
    (type inst : CString) (size : Nat) : Shms → WorkerShm → Int × Shms × WorkerShm :=
  let instId :=
    registerPublishHash (ealHash64Fnv1a build) (ealHash64MoreFnv1a build) session type inst
  let typeId := ealHash64Fnv1a build (hashedBytes type)
  registerMessage calls locked instId size
    ⟨publishResourceType, size, 0, instId.toNat, typeId.toNat⟩

/-- `lmice_spi::register_subscribe`. The size is `DEFAULT_SHM_SIZE`, whatever the
publisher's is. -/
def spiRegisterSubscribe (build : Build) (calls : ShmCalls) (locked : Bool) (session : UInt64)
    (type : CString) (inst : Option CString) : Shms → WorkerShm → Int × Shms × WorkerShm :=
  let instId :=
    registerSubscribeHash (ealHash64Fnv1a build) (ealHash64MoreFnv1a build) session type inst
  let typeId := ealHash64Fnv1a build (hashedBytes type)
  registerMessage calls locked instId defaultShmSize
    ⟨subscribeResourceType, defaultShmSize, 0, instId.toNat, typeId.toNat⟩

/-- The name of the shared memory that the publisher of a message creates. -/
def MessageName.block (build : Build) (name : MessageName) : ShmName :=
  shmName (name.instId build .publish)

/-- The worker has a free message slot. -/
def WorkerShm.HasFreeMesg (worker : WorkerShm) : Prop :=
  ∃ i, (worker.mesg i).instId = 0

/-- Subscribing to a published message leaves the message alone, if and only if the call
returns before it creates anything, because the worker is locked or has no free
slot, or the message is of the default size and all zero. -/
theorem subscribe_keeps_block_iff (build : Build) (locked : Bool) (name : MessageName)
    (os : Shms) (worker : WorkerShm) (block : List UInt8)
    (hblock : os (name.block build) = some block) :
    (spiRegisterSubscribe build .ok locked name.session name.type (some name.inst) os
        worker).2.1 (name.block build) = some block ↔
      locked = true ∨ ¬ worker.HasFreeMesg ∨ block = List.replicate defaultShmSize 0 := by
  have hid : registerSubscribeHash (ealHash64Fnv1a build) (ealHash64MoreFnv1a build) name.session
      name.type (some name.inst) = name.instId build .publish := rfl
  unfold spiRegisterSubscribe
  rw [hid]
  unfold registerMessage
  by_cases hlocked : locked = true
  · simp [hlocked, hblock]
  · rw [if_neg hlocked]
    cases hfree : WorkerShm.firstFree fun i => (worker.mesg i).instId with
    | none =>
      have hnone := (WorkerShm.firstFree_eq_none_iff _).mp hfree
      simp [hblock, WorkerShm.HasFreeMesg, hnone]
    | some i =>
      have hsome : worker.HasFreeMesg := by
        by_contra hno
        have hnone := (WorkerShm.firstFree_eq_none_iff fun i => (worker.mesg i).instId).mpr
          fun i hi => hno ⟨i, hi⟩
        rw [hnone] at hfree
        cases hfree
      -- The memory exists, and creating it again clears it.
      simp [createShmResource_eq, MessageName.block, hlocked, hsome, eq_comm]

/-- The only object is the shared memory of the message. -/
def MessageName.only (build : Build) (name : MessageName) (block : List UInt8) : Shms :=
  Function.update (fun _ => none) (name.block build) (some block)

/-- The message `a`, `b` of the default session. -/
def sampleName : MessageName := ⟨0, ⟨[97], by decide⟩, ⟨[98], by decide⟩⟩

/-- A worker that has registered nothing subscribes to a message of one byte. -/
theorem published_block_cleared :
    ¬ ∀ (build : Build) (locked : Bool) (name : MessageName) (os : Shms) (worker : WorkerShm)
        (block : List UInt8), os (name.block build) = some block →
      (spiRegisterSubscribe build .ok locked name.session name.type (some name.inst) os
        worker).2.1 (name.block build) = some block := by
  intro h
  have hkept := h .release false sampleName (sampleName.only .release [1]) .zero [1]
    (Function.update_self _ _ _)
  exact absurd hkept (by decide +kernel)

/-- A message of the default size to which nothing has been written. -/
theorem subscribe_keeps_block_iff_zero :
    (spiRegisterSubscribe .release .ok false sampleName.session sampleName.type
        (some sampleName.inst) (sampleName.only .release (List.replicate defaultShmSize 0))
        .zero).2.1 (sampleName.block .release) = some (List.replicate defaultShmSize 0) :=
  (subscribe_keeps_block_iff .release false sampleName
    (sampleName.only .release (List.replicate defaultShmSize 0)) .zero _
    (Function.update_self _ _ _)).mpr (Or.inr (Or.inr rfl))

end LMiced
