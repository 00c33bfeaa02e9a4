import LMiced.Resource.Daemon
import LMiced.Resource.Subscribers
import LMiced.Schedule.Filter
import LMiced.Schedule.FilterTls

/-!
# Delivery to subscribers

`lmflt_subscribe_object` of `schedule/task_filter.c` copies the data of a published message
into the queue of a subscriber. It looks for the message slot of the subscriber in the tree
of the thread, then among the messages of all workers, and at last it makes one. The
functions that search for the slot and for a free blob are given a pointer to put their
result into, but they are given it by value: the pointers of `lmflt_subscribe_object` stay
null, and it dereferences them on every path on which it would deliver something.

A result `none` stands for a dereferenced null pointer. The tree of the thread is a
parameter, as `sglib` is not part of the repository.

* `findMessage_eq_zero`: the search finds a message that is recorded at a worker;
* `subscribeObject_zero_iff`: when a call for a recorded message returns 0;
* `subscribe_object_delivers_iff`: when the data is where it should be after a call.
-/

namespace LMiced

/-! ## Messages -/

/-- `LMICE_MSG_BLOB_AVAILABLE`. -/
def msgBlobAvailable : Int := 0

/-- `LMICE_MSG_BLOB_UNIQUE_USING`. -/
def msgBlobUniqueUsing : Int := 2

/-- `lmmsg_blob_t`; `data` is the whole data area. -/
structure LmmsgBlob where
  lock : Int
  referenceCount : UInt64
  data : List UInt8
deriving DecidableEq, Repr

/-- `lmmsg_t`. The blobs are `bsize` bytes apart, and there are `qsize` of them. -/
structure Lmmsg where
  blobs : List LmmsgBlob
deriving DecidableEq, Repr

/-- `lmmsg_acquire_unique_blob`. The address of the blob is put into a parameter and lost. -/
def lmmsgAcquireUniqueBlob : List LmmsgBlob → Int × List LmmsgBlob
  | [] => (1, [])
  | blob :: blobs =>
    if blob.lock = msgBlobAvailable then
      (0, { blob with lock := msgBlobUniqueUsing, referenceCount := 0 } :: blobs)
    else
      let rest := lmmsgAcquireUniqueBlob blobs
      (rest.1, blob :: rest.2)

/-! ## Message slots -/

/-- An `lm_mesg_res_t*` that is not null: the worker and its slot. -/
abbrev MesgSlot := Nat × ResSlot

/-- `res->info`, null for a worker that was never opened. -/
def Daemon.mesgInfo (d : Daemon) (res : MesgSlot) : Option MesgInfo :=
  (d.worker res.1).block.map fun n => (d.shm n).mesg res.2

/-- `res->addr`. -/
def Daemon.mesgAddr (d : Daemon) (res : MesgSlot) : Option Nat := (d.worker res.1).mesg res.2

/-- The comparison of a message with a type and an object. -/
def ResPair.isOfMesg (pair : ResPair) (info : MesgInfo) : Bool :=
  info.typeId = pair.typeId.toNat ∧ info.instId = pair.objectId.toNat

/-- `lmres_find_message_from_workers`, from some worker on. The slot is put into a
parameter and lost. -/
def lmresFindMessageFromWorkers (pair : ResPair) (d : Daemon) : List Nat → Option Int
  | [] => some 1
  | w :: ws =>
    if (d.table w).instId = 0 then lmresFindMessageFromWorkers pair d ws
    else
      match (d.worker w).block with
      | none => none
      | some n =>
        if (List.finRange 128).any fun j => pair.isOfMesg ((d.shm n).mesg j) then some 0
        else lmresFindMessageFromWorkers pair d ws

/-- An element of the tree of messages, `lm_mesg_rbtree`. -/
structure MesgNode where
  pair : ResPair
  res : Option MesgSlot
deriving DecidableEq, Repr

/-- What the filter works on: `lm_res_param_t`, the messages by their addresses, and the
tree of the thread. -/
structure SubscribeParam (τ : Type) where
  daemon : Daemon
  resRight : LmResList
  ressetRight : LmRessetList
  msg : Nat → Lmmsg
  mesgRbtree : τ

/-- What the filter meets: the functions of `sglib`, the memory that `malloc` does not
clear, and what `eal_spin_trylock` and `eal_shm_create_or_open` return. -/
structure SubscribeEnv (τ : Type) where
  build : Build
  findMember : τ → ResPair → Option MesgNode
  delete : τ → ResPair → τ
  uninit : Fin 31 → UInt64
  trylock : Int
  create : Int × Nat

variable {τ : Type}

/-- `lmsys_register_subscribe` with the first worker, as the filter calls it. -/
def lmsysRegisterSubscribe (env : SubscribeEnv τ) (pair : ResPair) (size : Nat)
    (s : SubscribeParam τ) : Option (Int × SubscribeParam τ) :=
  if pair.objectId = 0 then some (1, s)
  else
    let acquired := lmresAcquireSubscribeRight env.build env.uninit pair
      (UInt64.ofNat (s.daemon.table 0).instId) s.resRight
    let s := { s with resRight := acquired.2 }
    if acquired.1 ≠ .success then some (acquired.1.code, s)
    else
      match (s.daemon.worker 0).addr with
      | none => none
      | some n =>
        if env.trylock ≠ 0 then some (env.trylock, s)
        else
          let size := if size = 0 then defaultShmSize else size
          match WorkerShm.firstFree fun i => ((s.daemon.shm n).mesg i).instId with
          | none => some (0, s)
          | some i =>
            if env.create.1 ≠ 0 then some (env.create.1, s)
            else
              let info : MesgInfo := ⟨subscribeResourceType, size, 0, pair.objectId.toNat,
                pair.typeId.toNat⟩
              let worker := s.daemon.worker 0
              let shm := s.daemon.shm n
              some (0, { s with
                daemon := { s.daemon with
                  worker := Function.update s.daemon.worker 0
                    { worker with mesg := Function.update worker.mesg i (some env.create.2) }
                  shm := Function.update s.daemon.shm n
                    { shm with mesg := Function.update shm.mesg i info } } })

/-! ## The filter -/

/-- `lmtsk_t`; `size` is the length of `data`. -/
structure Lmtsk where
  id : LmtskId
  data : List UInt8
deriving DecidableEq, Repr

/-- The key of the task in the trees and tables. -/
def Lmtsk.pair (task : Lmtsk) : ResPair := ⟨task.id.typeId, task.id.objectId⟩

/-- The end of `lmflt_subscribe_object`. -/
def copyToBlob (addr : Option Nat) (s : SubscribeParam τ) : Option (Int × SubscribeParam τ) :=
  match addr with
  | none => none
  | some msg =>
    let acquired := lmmsgAcquireUniqueBlob (s.msg msg).blobs
    if acquired.1 ≠ 0 then some (acquired.1, s)
    else
      -- `blob` is still null: the `memcpy` that follows writes to it.
      none

/-- `lmflt_subscribe_object`. -/
def lmfltSubscribeObject (env : SubscribeEnv τ) (task : Lmtsk) (s : SubscribeParam τ) :
    Option (Int × SubscribeParam τ) :=
  if task.data.length = 0 then some (0, s)
  else
    match env.findMember s.mesgRbtree task.pair with
    | some ite =>
      match ite.res with
      | none => none
      | some res =>
        match s.daemon.mesgInfo res with
        | none => none
        | some info =>
          if info.instId = 0 then
            some (0, { s with mesgRbtree := env.delete s.mesgRbtree task.pair })
          else copyToBlob (s.daemon.mesgAddr res) s
    | none =>
      if lmressetCheckSubscribeRight task.pair.typeId s.ressetRight ≠ .success ∧
          lmresCheckSubscribeRight task.pair s.resRight ≠ .success then some (0, s)
      else
        match lmresFindMessageFromWorkers task.pair s.daemon (List.range defaultWorkerSize) with
        | none => none
        | some ret =>
          if ret ≠ 0 then
            match lmsysRegisterSubscribe env task.pair 0 s with
            | none => none
            | some (ret, s) =>
              if ret ≠ 0 then some (ret, s)
              else
                -- `res` is still null: `res->addr` is read.
                none
          else none

/-! ## Calls for recorded messages -/

/-- The message at the address `msg` is recorded at a worker for the task. -/
def SubscribeParam.Recorded (s : SubscribeParam τ) (pair : ResPair) (msg : Nat) : Prop :=
  ∃ w < defaultWorkerSize, ∃ j n, (s.daemon.table w).instId ≠ 0 ∧
    (s.daemon.worker w).block = some n ∧ pair.isOfMesg ((s.daemon.shm n).mesg j) = true ∧
    s.daemon.mesgAddr (w, j) = some msg

/-- The task is for somebody who can take it. -/
structure Deliverable (task : Lmtsk) (msg : Nat) (s : SubscribeParam τ) : Prop where
  pos : 0 < task.data.length
  fits : ∀ blob ∈ (s.msg msg).blobs, task.data.length ≤ blob.data.length
  subscribed : lmressetCheckSubscribeRight task.pair.typeId s.ressetRight = .success ∨
    lmresCheckSubscribeRight task.pair s.resRight = .success
  recorded : s.Recorded task.pair msg
  available : ∃ blob ∈ (s.msg msg).blobs, blob.lock = msgBlobAvailable

/-- One blob of the queue, and no other, holds the data of the task. -/
def HeldBy (task : Lmtsk) (blobs : List LmmsgBlob) (i : Nat) (blob : LmmsgBlob) : Prop :=
  blobs[i]? = some blob ∧ task.data <+: blob.data ∧
    ∀ (j : Nat) (other : LmmsgBlob), blobs[j]? = some other → task.data <+: other.data → j = i

/-- What a call is meant to do: it returns 0, and one blob of the message holds the data of
the task. That blob is available, and the reference count in its header is the old one or
was reset. Nothing else has changed. -/
def Delivered (task : Lmtsk) (msg : Nat) (s : SubscribeParam τ) (ret : Int)
    (s' : SubscribeParam τ) : Prop :=
  ret = 0 ∧
  (∃ i blob blob', (s.msg msg).blobs[i]? = some blob ∧ HeldBy task (s'.msg msg).blobs i blob' ∧
    blob'.lock = msgBlobAvailable ∧
    (blob'.referenceCount = 0 ∨ blob'.referenceCount = blob.referenceCount) ∧
    ∀ j, j ≠ i → (s'.msg msg).blobs[j]? = (s.msg msg).blobs[j]?) ∧
  ∀ msg', msg' ≠ msg → s'.msg msg' = s.msg msg'

/-- The search finds a message that is recorded, or it meets a null pointer before. -/
theorem findMessage_eq_zero {pair : ResPair} {d : Daemon} {ws : List Nat} {w n : Nat}
    {j : ResSlot} (hw : w ∈ ws) (hid : (d.table w).instId ≠ 0)
    (hblock : (d.worker w).block = some n) (hmesg : pair.isOfMesg ((d.shm n).mesg j) = true)
    {ret : Int} (h : lmresFindMessageFromWorkers pair d ws = some ret) : ret = 0 := by
  induction ws with
  | nil => cases hw
  | cons w' ws ih =>
    unfold lmresFindMessageFromWorkers at h
    have htail : w ≠ w' → w ∈ ws := fun hne => (List.mem_cons.mp hw).resolve_left hne
    split at h
    · next hfree =>
      exact ih (htail fun heq => hid (heq ▸ hfree)) h
    · split at h
      · cases h
      · next n' hblock' =>
        split at h
        · cases h
          rfl
        · next hno =>
          refine ih (htail fun heq => hno ?_) h
          subst heq
          obtain rfl : n = n' := Option.some.inj (hblock.symm.trans hblock')
          exact List.any_eq_true.mpr ⟨j, List.mem_finRange j, hmesg⟩

theorem copyToBlob_ne_zero {addr : Option Nat} {s s' : SubscribeParam τ} {ret : Int}
    (h : copyToBlob addr s = some (ret, s')) : ret ≠ 0 := by
  unfold copyToBlob at h
  split at h
  · cases h
  · dsimp only at h
    split at h
    · next hret =>
      cases h
      exact hret
    · cases h

/-- The tree of the thread leads to a slot whose message was deleted. -/
def SubscribeParam.Deleted (env : SubscribeEnv τ) (pair : ResPair) (s : SubscribeParam τ) :
    Prop :=
  ∃ node res info, env.findMember s.mesgRbtree pair = some node ∧ node.res = some res ∧
    s.daemon.mesgInfo res = some info ∧ info.instId = 0

/-- A call for a recorded message returns 0 only when the message was deleted; then it
does nothing but tidy up the tree. -/
theorem subscribeObject_zero_iff {env : SubscribeEnv τ} {task : Lmtsk} {msg : Nat}
    {s s' : SubscribeParam τ} (h : Deliverable task msg s) :
    lmfltSubscribeObject env task s = some (0, s') ↔
      s.Deleted env task.pair ∧
        s' = { s with mesgRbtree := env.delete s.mesgRbtree task.pair } := by
  unfold lmfltSubscribeObject SubscribeParam.Deleted
  rw [if_neg h.pos.ne']
  cases hfind : env.findMember s.mesgRbtree task.pair with
  | some ite =>
    cases hres : ite.res with
    | none => simp [hres]
    | some res =>
      cases hinfo : s.daemon.mesgInfo res with
      | none => simp [hres, hinfo, -Prod.exists]
      | some info =>
        by_cases hid : info.instId = 0
        · simp [hres, hinfo, hid, eq_comm, -Prod.exists]
        · have hcopy : copyToBlob (s.daemon.mesgAddr res) s ≠ some (0, s') :=
            fun h => copyToBlob_ne_zero h rfl
          simp [hres, hinfo, hid, hcopy, -Prod.exists]
  | none =>
    obtain ⟨w, hw, j, n, hid, hblock, hmesg, _⟩ := h.recorded
    have hsub : ¬(lmressetCheckSubscribeRight task.pair.typeId s.ressetRight ≠ .success ∧
        lmresCheckSubscribeRight task.pair s.resRight ≠ .success) := by
      rintro ⟨hset, hres⟩
      exact h.subscribed.elim hset hres
    cases hsearch : lmresFindMessageFromWorkers task.pair s.daemon
        (List.range defaultWorkerSize) with
    | none => simp [hsub]
    | some ret =>
      obtain rfl := findMessage_eq_zero (List.mem_range.mpr hw) hid hblock hmesg hsearch
      simp [hsub]

/-- A task for a recorded message is delivered if and only if the tree of the thread leads
to a slot whose message was deleted, and just one blob of the recorded message holds the
data already and is available. -/
theorem subscribe_object_delivers_iff {env : SubscribeEnv τ} {task : Lmtsk} {msg : Nat}
    {s : SubscribeParam τ} (h : Deliverable task msg s) :
    (∃ ret s', lmfltSubscribeObject env task s = some (ret, s') ∧
      Delivered task msg s ret s') ↔
      s.Deleted env task.pair ∧
        ∃ i blob, HeldBy task (s.msg msg).blobs i blob ∧ blob.lock = msgBlobAvailable := by
  constructor
  · rintro ⟨ret, s', hcall, rfl, ⟨i, _, blob', _, hheld, hlock, _⟩, _⟩
    obtain ⟨hdeleted, rfl⟩ := (subscribeObject_zero_iff h).mp hcall
    exact ⟨hdeleted, i, blob', hheld, hlock⟩
  · rintro ⟨hdeleted, i, blob, hheld, hlock⟩
    exact ⟨0, _, (subscribeObject_zero_iff h).mpr ⟨hdeleted, rfl⟩, rfl,
      ⟨i, blob, blob, hheld.1, hheld, hlock, Or.inr rfl, fun _ _ => rfl⟩, fun _ _ => rfl⟩

/-! ## A subscriber -/

/-- The tree as a list; a search looks at the elements in turn. -/
def listEnv : SubscribeEnv (List MesgNode) where
  build := .release
  findMember tree pair :=
    tree.find? fun node => lmiceObjTypeRbtreeCmparator pair node.pair = 0
  delete tree pair := tree.eraseP fun node => lmiceObjTypeRbtreeCmparator pair node.pair = 0
  uninit _ := 0
  trylock := 0
  create := (0, 4096)

theorem findMember_listEnv :
    FindMember MesgNode.pair (fun tree : List MesgNode => {node | node ∈ tree})
      listEnv.findMember := by
  intro tree pair
  refine ⟨fun node hnode => ⟨List.mem_of_find?_eq_some hnode, ?_⟩, fun hnone node hnode => ?_⟩
  · simpa using List.find?_some hnode
  · simpa using List.find?_eq_none.mp hnone node hnode

/-- Worker 0 has subscribed to object 5 of type 3, and worker 1 has deleted its messages. -/
def subscriberDaemon : Daemon :=
  { Daemon.createResourceService 100 1 (fun _ => WorkerShm.zero) with
    table := fun _ => { WorkerInfo.zero with instId := 1 }
    worker := fun w => ⟨some w, some w, fun _ => some 7, fun _ => false⟩
    shm := fun n => if n = 0 then { WorkerShm.zero with mesg := fun _ => ⟨2, 4096, 0, 5, 3⟩ }
      else WorkerShm.zero }

/-- The queue of the subscriber is one blob. -/
def subscriberParam (data : List UInt8) (tree : List MesgNode) :
    SubscribeParam (List MesgNode) where
  daemon := subscriberDaemon
  resRight := [fun _ => ⟨1, 3, 5, 0, [1]⟩]
  ressetRight := []
  msg _ := ⟨[⟨0, 0, data⟩]⟩
  mesgRbtree := tree

/-- A byte for the subscriber. -/
def byteTask : Lmtsk := ⟨⟨0, 3, 0, 5⟩, [9]⟩

theorem deliverable_byteTask {data : List UInt8} (hdata : 0 < data.length)
    (tree : List MesgNode) : Deliverable byteTask 7 (subscriberParam data tree) where
  pos := by decide
  fits := by simpa [subscriberParam, byteTask] using Nat.succ_le_of_lt hdata
  subscribed := Or.inr rfl
  recorded := ⟨0, by decide, 0, 0, Nat.one_ne_zero, rfl, rfl, rfl⟩
  available := ⟨⟨0, 0, data⟩, by simp [subscriberParam], rfl⟩

/-- The byte is in the queue already, and the tree leads to a deleted message. -/
theorem subscribe_object_delivers_iff_byteTask :
    let s := subscriberParam [9] [⟨⟨3, 5⟩, some (1, 0)⟩]
    Deliverable byteTask 7 s ∧ ∃ ret s', lmfltSubscribeObject listEnv byteTask s =
      some (ret, s') ∧ Delivered byteTask 7 s ret s' := by
  intro s
  have hs : Deliverable byteTask 7 s := deliverable_byteTask (by decide) _
  refine ⟨hs, (subscribe_object_delivers_iff hs).mpr ⟨⟨_, _, _, rfl, rfl, rfl, rfl⟩, 0, ⟨0, 0, [9]⟩,
    ⟨rfl, by decide, ?_⟩, rfl⟩⟩
  intro j other hother _
  have hlt := (List.getElem?_eq_some_iff.mp hother).1
  exact Nat.lt_one_iff.mp hlt

/-- The first task for the subscriber: the tree is empty, the message is found, and a null
pointer is dereferenced. -/
theorem first_task_dereferences_null :
    FindMember MesgNode.pair (fun tree : List MesgNode => {node | node ∈ tree})
      listEnv.findMember ∧
    Deliverable byteTask 7 (subscriberParam [0] []) ∧
    ¬∃ ret s', lmfltSubscribeObject listEnv byteTask (subscriberParam [0] []) = some (ret, s') ∧
      Delivered byteTask 7 (subscriberParam [0] []) ret s' := by
  refine ⟨findMember_listEnv, deliverable_byteTask (by decide) _, ?_⟩
  rintro ⟨ret, s', hcall, _⟩
  have hnull : lmfltSubscribeObject listEnv byteTask (subscriberParam [0] []) = none := rfl
  rw [hnull] at hcall
  cases hcall

end LMiced
