import LMiced.Resource.Subscribers
import LMiced.Schedule.Deliver

/-!
# Registration by the daemon's own workers

The register functions of `system/system_syscall.h`. A worker that runs inside the daemon
acquires a right, and then records its message in the first of its 128 slots that has
`inst_id == 0`. On the way a lock may be taken, the slots may all be in use, and the shared
memory of the message may not be created; the right is kept in each of these cases.

* `register_atomic_iff`: when a call does everything or nothing, and says which;
* `registerSubscribe_eq`: the filter of `schedule/task_filter.c` calls the same function;
* `records_kept_iff`: in a sequence of calls, when the records stay where they were written.
-/

namespace LMiced

/-- `SUBSCRIBE_RESOURCESET_TYPE`. -/
def subscribeResourcesetType : Nat := 3

namespace Syscall

/-! ## The register functions -/

/-- The messages of a worker: the records in its shared memory, and the addresses in its
`lm_worker_res_t`. -/
structure MesgSlots where
  mesg : ResSlot → MesgInfo
  addr : ResSlot → Option Nat

/-- Write a record, and the address of the memory that was created for it. -/
def MesgSlots.record (slots : MesgSlots) (i : ResSlot) (info : MesgInfo) (addr : Nat) : MesgSlots :=
  ⟨Function.update slots.mesg i info, Function.update slots.addr i (some addr)⟩

/-- What a call returns and leaves behind. `written` is the slot that it has filled, which
the caller does not get to know. -/
structure Result (τ : Type) where
  ret : Int
  written : Option ResSlot
  rights : τ
  slots : MesgSlots

/-- The loop of the register functions. `create` is what the creation of the shared memory
returns, and its address. -/
def fillSlot {τ : Type} (create : Int × Nat) (info : MesgInfo) (rights : τ) (slots : MesgSlots) :
    Result τ :=
  match WorkerShm.firstFree fun i => (slots.mesg i).instId with
  | none => ⟨0, none, rights, slots⟩
  | some i =>
    if create.1 ≠ 0 then ⟨create.1, none, rights, slots⟩
    else ⟨0, some i, rights, slots.record i info create.2⟩

/-- The record of a published message. -/
def publishInfo (pair : ResPair) (size : UInt32) : MesgInfo :=
  ⟨publishResourceType, size.toNat, 0, pair.objectId.toNat, pair.typeId.toNat⟩

/-- The size of a message that is subscribed to, when the caller gives none. -/
def subscribeSize (size : UInt32) : Nat := if size = 0 then defaultShmSize else size.toNat

/-- The record of a message that is subscribed to. -/
def subscribeInfo (pair : ResPair) (size : UInt32) : MesgInfo :=
  ⟨subscribeResourceType, subscribeSize size, 0, pair.objectId.toNat, pair.typeId.toNat⟩

/-- The record of a resource set that is subscribed to. It has no instance. -/
def subscribeTypeInfo (typeId : UInt64) (size : UInt32) : MesgInfo :=
  ⟨subscribeResourcesetType, subscribeSize size, 0, 0, typeId.toNat⟩

/-- `lmsys_register_publish`. It waits for the lock of the worker. -/
def lmsysRegisterPublish (build : Build) (create : Int × Nat) (worker : UInt64) (pair : ResPair)
    (size : UInt32) (rights : LmResList) (slots : MesgSlots) : Result LmResList :=
  let acquired := lmresAcquirePublishRight build pair worker rights
  if acquired.1 ≠ .success then ⟨acquired.1.code, none, acquired.2, slots⟩
  else fillSlot create (publishInfo pair size) acquired.2 slots

/-- `lmsys_register_subscribe`. `trylock` is what `eal_spin_trylock` returns. -/
def lmsysRegisterSubscribe (build : Build) (uninit : Fin 31 → UInt64) (trylock : Int)
    (create : Int × Nat) (worker : UInt64) (pair : ResPair) (size : UInt32) (rights : LmResList)
    (slots : MesgSlots) : Result LmResList :=
  if pair.objectId = 0 then ⟨1, none, rights, slots⟩
  else
    let acquired := lmresAcquireSubscribeRight build uninit pair worker rights
    if acquired.1 ≠ .success then ⟨acquired.1.code, none, acquired.2, slots⟩
    else if trylock ≠ 0 then ⟨trylock, none, acquired.2, slots⟩
    else fillSlot create (subscribeInfo pair size) acquired.2 slots

/-- `lmsys_register_subscribe_type`. -/
def lmsysRegisterSubscribeType (build : Build) (uninit : Fin 31 → UInt64) (trylock : Int)
    (create : Int × Nat) (worker : UInt64) (typeId : UInt64) (size : UInt32)
    (rights : LmRessetList) (slots : MesgSlots) : Result LmRessetList :=
  let acquired := lmressetAcquireSubscribeRight build uninit typeId worker rights
  if acquired.1 ≠ .success then ⟨acquired.1.code, none, acquired.2, slots⟩
  else if trylock ≠ 0 then ⟨trylock, none, acquired.2, slots⟩
  else fillSlot create (subscribeTypeInfo typeId size) acquired.2 slots

end Syscall

/-! ## What acquiring does to any table -/

/-- The subscribers in the entry of a resource. -/
def subscribers (list : LmResList) (pair : ResPair) : List UInt64 :=
  match pair.find list with
  | .hit pos => (list.entry pos).elim [] LmRes.subWorker
  | _ => []

/-- An entry of the resource names the worker as its publisher. -/
def HoldsPublish (pair : ResPair) (worker : UInt64) (list : LmResList) : Prop :=
  ∃ pos res, list.entry pos = some res ∧ res.pair = pair ∧ res.pubWorker = worker

/-- An entry of the resource names the worker as a subscriber. -/
def HoldsSubscribe (pair : ResPair) (worker : UInt64) (list : LmResList) : Prop :=
  ∃ pos res, list.entry pos = some res ∧ res.pair = pair ∧ worker ∈ res.subWorker

section Rights

variable {build : Build} {pair : ResPair} {worker : UInt64} {list : LmResList}

/-- The walk of the acquire functions: it ends at the entry of the resource, or what is then
written makes the table another one. -/
theorem ResPair.locate_any (pair : ResPair) (list : LmResList) :
    (∃ pos res, pair.find list = .hit pos ∧ pair.locate list = (list, .hit pos) ∧
      list.entry pos = some res ∧ res.pair = pair) ∨
    (pair.find list = .full ∧ ∃ list' pos res, list'.entry pos = some res ∧
      (∀ f : LmRes → LmRes, (f res).pair = pair → list'.modify pos f ≠ list) ∧
      ((pair.locate list = (list', .hit pos) ∧ res.pair = pair ∧ res.pubWorker = 0) ∨
        pair.locate list = (list', .vacant pos))) := by
  rcases pair.find_spec list with ⟨pos, res, hfind, hres, hpair⟩ | ⟨hfind, hlacks⟩
  · exact Or.inl ⟨pos, res, hfind, BlockTable.locate_of_search_hit hfind, hres, hpair⟩
  · refine Or.inr ⟨hfind, ?_⟩
    have hempty : ∀ i, LmRes.isEmpty (clearedBlock i) = true := fun _ => rfl
    obtain ⟨list', pos, res, hres, ⟨hloc, hhit, rfl⟩ | ⟨hloc, hlacks', hgrow⟩⟩ :=
      BlockTable.locate_of_lacks hempty hlacks
    · -- The resource is that of a cleared entry, and the table is full.
      refine ⟨_, pos, res, hres, fun f _ => BlockTable.modify_append_ne list _ pos f,
        Or.inl ⟨hloc, isOf_eq_true.mp hhit, ?_⟩⟩
      rcases BlockTable.entry_append_singleton hres with ⟨_, hres⟩ | ⟨_, rfl⟩
      · rw [hlacks pos res hres] at hhit
        cases hhit
      · rfl
    · refine ⟨list', pos, res, hres, fun f hf => ?_, Or.inr hloc⟩
      rcases hgrow with rfl | rfl
      · intro hsame
        have hres' := (BlockTable.modify_eq_self_iff hres).mp hsame
        exact isOf_eq_false.mp (hlacks' pos res hres) (hres' ▸ hf)
      · exact BlockTable.modify_append_ne list _ pos f

theorem lmresAcquirePublishRight_any (build : Build) (pair : ResPair) (worker : UInt64)
    (list : LmResList) :
    let acquired := lmresAcquirePublishRight build pair worker list
    (publisher list pair ≠ 0 ∧ acquired = (.already, list)) ∨
      (publisher list pair = 0 ∧ acquired.1 = .success ∧ HoldsPublish pair worker acquired.2 ∧
        (acquired.2 = list ↔ worker = 0 ∧ lmresCheckSubscribeRight pair list = .success)) := by
  unfold lmresAcquirePublishRight publisher lmresCheckSubscribeRight
  rcases pair.locate_any list with ⟨pos, res, hfind, hloc, hres, hpair⟩ |
    ⟨hfind, list', pos, res, hres, hne, ⟨hloc, hpair, hpub⟩ | hloc⟩
  · simp only [hfind, hloc, hres, Option.elim_some, Option.any_some, decide_eq_true_eq]
    by_cases hpub : res.pubWorker = 0
    · refine Or.inr ⟨hpub, ?_⟩
      simp only [hpub, if_true, true_and, and_true]
      refine ⟨⟨pos, _, BlockTable.entry_modify_self hres _, hpair, rfl⟩, ?_⟩
      rw [BlockTable.modify_eq_self_iff hres]
      constructor
      · intro hsame
        exact (congrArg LmRes.pubWorker hsame).trans hpub
      · rintro rfl
        rw [← hpub]
    · exact Or.inl ⟨hpub, by simp [hpub]⟩
  · simp only [hfind, hloc, hres, hpub, Option.any_some, decide_true, if_true, ne_eq,
      not_true_eq_false, false_and, true_and, false_or, reduceCtorEq, and_false, iff_false]
    exact ⟨⟨pos, _, BlockTable.entry_modify_self hres _, hpair, rfl⟩, hne _ hpair⟩
  · simp only [hfind, hloc, ne_eq, not_true_eq_false, false_and, true_and, false_or, reduceCtorEq,
      and_false, iff_false]
    exact ⟨⟨pos, _, BlockTable.entry_modify_self hres _, rfl, rfl⟩, hne _ rfl⟩

theorem mem_lmresAddSubscribeRightList (uninit : Fin 31 → UInt64) (worker : UInt64)
    (subWorker : List UInt64) : worker ∈ lmresAddSubscribeRightList uninit worker subWorker := by
  unfold lmresAddSubscribeRightList
  split
  · next hmem => exact hmem
  · split
    · next hfree => exact List.mem_set (List.idxOf_lt_length_of_mem hfree) worker
    · simp

/-- A list is left as it is just for a worker that is in it. -/
theorem lmresAddSubscribeRightList_eq_self_iff (uninit : Fin 31 → UInt64) (worker : UInt64)
    (subWorker : List UInt64) :
    lmresAddSubscribeRightList uninit worker subWorker = subWorker ↔ worker ∈ subWorker := by
  constructor
  · intro hsame
    rw [← hsame]
    exact mem_lmresAddSubscribeRightList uninit worker subWorker
  · intro hmem
    rw [lmresAddSubscribeRightList, if_pos hmem]

theorem lmresAcquireSubscribeRight_any (build : Build) (uninit : Fin 31 → UInt64) (pair : ResPair)
    (worker : UInt64) (list : LmResList) :
    let acquired := lmresAcquireSubscribeRight build uninit pair worker list
    acquired.1 = .success ∧ HoldsSubscribe pair worker acquired.2 ∧
      (acquired.2 = list ↔ worker ∈ subscribers list pair) := by
  unfold lmresAcquireSubscribeRight subscribers
  rcases pair.locate_any list with ⟨pos, res, hfind, hloc, hres, hpair⟩ |
    ⟨hfind, list', pos, res, hres, hne, ⟨hloc, hpair, _⟩ | hloc⟩
  · simp only [hfind, hloc, hres, Option.elim_some, true_and]
    refine ⟨⟨pos, _, BlockTable.entry_modify_self hres _, hpair,
      mem_lmresAddSubscribeRightList uninit worker res.subWorker⟩, ?_⟩
    rw [BlockTable.modify_eq_self_iff hres,
      ← lmresAddSubscribeRightList_eq_self_iff uninit worker res.subWorker]
    constructor
    · exact fun hsame => congrArg LmRes.subWorker hsame
    · intro hsame
      rw [hsame]
  · simp only [hfind, hloc, true_and, List.not_mem_nil, iff_false]
    exact ⟨⟨pos, _, BlockTable.entry_modify_self hres _, hpair,
      mem_lmresAddSubscribeRightList uninit worker res.subWorker⟩, hne _ hpair⟩
  · simp only [hfind, hloc, true_and, List.not_mem_nil, iff_false]
    exact ⟨⟨pos, _, BlockTable.entry_modify_self hres _, rfl,
      mem_lmresAddSubscribeRightList uninit worker res.subWorker⟩, hne _ rfl⟩

end Rights

namespace Syscall

/-! ## All or nothing -/

/-- The worker has a slot that is not in use. -/
def MesgSlots.HasFree (slots : MesgSlots) : Prop := ∃ i, (slots.mesg i).instId = 0

/-- The call has recorded the message, in a slot that was not in use. -/
def Result.Recorded {τ : Type} (r : Result τ) (info : MesgInfo) (addr : Nat) (slots : MesgSlots) :
    Prop :=
  ∃ i, r.written = some i ∧ (slots.mesg i).instId = 0 ∧ r.slots.mesg i = info ∧
    r.slots.addr i = some addr

/-- A call returns 0 if and only if it has recorded the message and the worker has the
right; otherwise everything is as it was. -/
structure Atomic {τ : Type} (Holds : τ → Prop) (info : MesgInfo) (addr : Nat) (rights : τ)
    (slots : MesgSlots) (r : Result τ) : Prop where
  zero_iff : r.ret = 0 ↔ r.Recorded info addr slots ∧ Holds r.rights
  restored : r.ret ≠ 0 → r.rights = rights ∧ r.slots = slots

section Atomic

variable {τ : Type} {Holds : τ → Prop} {info : MesgInfo} {rights rights' : τ} {slots : MesgSlots}

/-- What the loop does. -/
theorem fillSlot_cases (create : Int × Nat) (info : MesgInfo) (rights : τ) (slots : MesgSlots) :
    ((∀ i, (slots.mesg i).instId ≠ 0) ∧
      fillSlot create info rights slots = ⟨0, none, rights, slots⟩) ∨
    ∃ i, (slots.mesg i).instId = 0 ∧ (∀ j, j < i → (slots.mesg j).instId ≠ 0) ∧
      ((create.1 ≠ 0 ∧ fillSlot create info rights slots = ⟨create.1, none, rights, slots⟩) ∨
        (create.1 = 0 ∧ fillSlot create info rights slots =
          ⟨0, some i, rights, slots.record i info create.2⟩)) := by
  unfold fillSlot
  cases hfree : WorkerShm.firstFree fun i => (slots.mesg i).instId with
  | none => exact Or.inl ⟨(WorkerShm.firstFree_eq_none_iff _).mp hfree, rfl⟩
  | some i =>
    obtain ⟨hi, hbefore⟩ := WorkerShm.firstFree_eq_some hfree
    refine Or.inr ⟨i, hi, hbefore, ?_⟩
    by_cases hcreate : create.1 = 0
    · exact Or.inr ⟨hcreate, by simp [hcreate]⟩
    · exact Or.inl ⟨hcreate, by simp [hcreate]⟩

/-- A call that gives up has to leave the rights as they were. -/
theorem atomic_of_ne_zero_iff {ret : Int} {addr : Nat} (hret : ret ≠ 0) :
    Atomic Holds info addr rights slots ⟨ret, none, rights', slots⟩ ↔ rights' = rights := by
  constructor
  · exact fun h => (h.restored hret).1
  · rintro rfl
    refine ⟨iff_of_false hret ?_, fun _ => ⟨rfl, rfl⟩⟩
    rintro ⟨⟨i, hwritten, _⟩, _⟩
    cases hwritten

/-- The loop is right when there is a free slot and the memory can be created, and also
when it cannot be created and the rights have not changed. -/
theorem atomic_fillSlot_iff {create : Int × Nat} (hHolds : Holds rights') :
    Atomic Holds info create.2 rights slots (fillSlot create info rights' slots) ↔
      slots.HasFree ∧ (create.1 = 0 ∨ rights' = rights) := by
  rcases fillSlot_cases create info rights' slots with
    ⟨hused, hfill⟩ | ⟨i, hi, _, ⟨hcreate, hfill⟩ | ⟨hcreate, hfill⟩⟩
  · rw [hfill]
    refine iff_of_false (fun h => ?_) fun ⟨⟨i, hi⟩, _⟩ => hused i hi
    obtain ⟨⟨i, hwritten, _⟩, _⟩ := h.zero_iff.mp rfl
    cases hwritten
  · rw [hfill, atomic_of_ne_zero_iff hcreate]
    have hfree : slots.HasFree := ⟨i, hi⟩
    simp [hcreate, hfree]
  · rw [hfill]
    refine iff_of_true ⟨iff_of_true rfl ⟨⟨i, rfl, hi, ?_, ?_⟩, hHolds⟩, fun h => absurd rfl h⟩
      ⟨⟨i, hi⟩, Or.inl hcreate⟩
    · exact Function.update_self ..
    · exact Function.update_self ..

end Atomic

/-- `lmsys_register_publish` does all or nothing, and says which, if and only if the right
is refused, or there is a free slot and the memory can be created. The one call without a
worker that goes on to change nothing is right as well. `lmsys_register_subscribe` does if
and only if there is no instance, or the worker had subscribed before, or the lock is free
and the memory can be created; past the lock there has to be a free slot too. -/
theorem register_atomic_iff (build : Build) (uninit : Fin 31 → UInt64) (trylock : Int)
    (create : Int × Nat) (worker : UInt64) (pair : ResPair) (size : UInt32) (rights : LmResList)
    (slots : MesgSlots) :
    (Atomic (HoldsPublish pair worker) (publishInfo pair size) create.2 rights slots
        (lmsysRegisterPublish build create worker pair size rights slots) ↔
      publisher rights pair ≠ 0 ∨
        (slots.HasFree ∧ (create.1 = 0 ∨
          (worker = 0 ∧ lmresCheckSubscribeRight pair rights = .success)))) ∧
    (Atomic (HoldsSubscribe pair worker) (subscribeInfo pair size) create.2 rights slots
        (lmsysRegisterSubscribe build uninit trylock create worker pair size rights slots) ↔
      pair.objectId = 0 ∨ (trylock ≠ 0 ∧ worker ∈ subscribers rights pair) ∨
        (trylock = 0 ∧ slots.HasFree ∧
          (create.1 = 0 ∨ worker ∈ subscribers rights pair))) := by
  constructor
  · unfold lmsysRegisterPublish
    rcases lmresAcquirePublishRight_any build pair worker rights with
      ⟨hpub, hacquired⟩ | ⟨hpub, hsuccess, hholds, hsame⟩
    · have hcode : LmresErr.code .already ≠ 0 := by decide
      simp only [hacquired, ne_eq, reduceCtorEq, not_false_eq_true, if_true]
      rw [atomic_of_ne_zero_iff hcode]
      exact iff_of_true rfl (Or.inl hpub)
    · simp only [hsuccess, ne_eq, not_true_eq_false, if_false]
      rw [atomic_fillSlot_iff hholds, hsame]
      simp [hpub]
  · unfold lmsysRegisterSubscribe
    obtain ⟨hsuccess, hholds, hsame⟩ :=
      lmresAcquireSubscribeRight_any build uninit pair worker rights
    by_cases hobject : pair.objectId = 0
    · rw [if_pos hobject, atomic_of_ne_zero_iff Int.one_ne_zero]
      simp [hobject]
    · simp only [hobject, if_false, hsuccess, ne_eq, not_true_eq_false]
      by_cases hlock : trylock = 0
      · rw [if_neg (not_not.mpr hlock), atomic_fillSlot_iff hholds, hsame]
        simp [hlock]
      · rw [if_pos hlock, atomic_of_ne_zero_iff hlock, hsame]
        simp [hlock]

/-- All slots of the worker are in use. -/
def usedSlots : MesgSlots := ⟨fun _ => ⟨2, 4096, 0, 5, 3⟩, fun _ => some 7⟩

/-- No slot of the worker is in use. -/
def freeSlots : MesgSlots := ⟨fun _ => ⟨0, 0, 0, 0, 0⟩, fun _ => none⟩

/-- A publisher without a free slot is told that all is well, and nothing is recorded. A
subscriber that does not get the lock is told so, and it keeps the right. -/
theorem register_not_atomic :
    ¬ Atomic (HoldsPublish ⟨1, 1⟩ 9) (publishInfo ⟨1, 1⟩ 8) 4096 [clearedBlock] usedSlots
      (lmsysRegisterPublish .release (0, 4096) 9 ⟨1, 1⟩ 8 [clearedBlock] usedSlots) ∧
    ¬ Atomic (HoldsSubscribe ⟨1, 1⟩ 9) (subscribeInfo ⟨1, 1⟩ 8) 4096 [clearedBlock] freeSlots
      (lmsysRegisterSubscribe .release (fun _ => 0) 1 (0, 4096) 9 ⟨1, 1⟩ 8 [clearedBlock]
        freeSlots) := by
  constructor
  · intro h
    obtain ⟨⟨i, hwritten, _⟩, _⟩ := h.zero_iff.mp (by decide +kernel)
    have hnone : (lmsysRegisterPublish .release (0, 4096) 9 ⟨1, 1⟩ 8 [clearedBlock]
      usedSlots).written = none := by decide +kernel
    rw [hnone] at hwritten
    cases hwritten
  · intro h
    have hrestored := congrArg (lmresCheckSubscribeRight ⟨1, 1⟩) (h.restored (by decide +kernel)).1
    exact absurd hrestored (by decide +kernel)

/-! ## The filter -/

/-- The messages of the first worker, whose shared memory is `n`. -/
def slotsOf (d : Daemon) (n : Nat) : MesgSlots := ⟨(d.shm n).mesg, (d.worker 0).mesg⟩

/-- Replace the messages of the first worker. -/
def putSlots (d : Daemon) (n : Nat) (slots : MesgSlots) : Daemon :=
  { d with
    worker := Function.update d.worker 0 { d.worker 0 with mesg := slots.addr }
    shm := Function.update d.shm n { d.shm n with mesg := slots.mesg } }

@[simp] theorem putSlots_slotsOf (d : Daemon) (n : Nat) : putSlots d n (slotsOf d n) = d := by
  simp [putSlots, slotsOf]

/-- `lmflt_subscribe_object` registers the first worker by the function of this module. -/
theorem registerSubscribe_eq {τ : Type} (env : SubscribeEnv τ) (pair : ResPair) (size : UInt32)
    (s : SubscribeParam τ) {n : Nat} (hn : (s.daemon.worker 0).addr = some n) :
    let r := lmsysRegisterSubscribe env.build env.uninit env.trylock env.create
      (UInt64.ofNat (s.daemon.table 0).instId) pair size s.resRight (slotsOf s.daemon n)
    LMiced.lmsysRegisterSubscribe env pair size.toNat s =
      some (r.ret, { s with resRight := r.rights, daemon := putSlots s.daemon n r.slots }) := by
  have hsize : (if size.toNat = 0 then defaultShmSize else size.toNat) = subscribeSize size := by
    have hzero : size.toNat = 0 ↔ size = 0 := by
      rw [← UInt32.toNat_inj]
      rfl
    simp only [subscribeSize, hzero]
  unfold LMiced.lmsysRegisterSubscribe lmsysRegisterSubscribe
  by_cases hobject : pair.objectId = 0
  · simp [hobject]
  · simp only [hobject, if_false, hn, hsize]
    split
    · simp
    · split
      · simp
      · unfold fillSlot
        have hslots : (slotsOf s.daemon n).mesg = (s.daemon.shm n).mesg := rfl
        rw [hslots]
        cases WorkerShm.firstFree fun i => ((s.daemon.shm n).mesg i).instId with
        | none => simp
        | some i =>
          dsimp only
          split
          · simp
          · simp [putSlots, slotsOf, MesgSlots.record, subscribeInfo, hn]

/-! ## Sequences of calls -/

/-- A call of a register function; the lock is free, and the memory is created at `addr`. -/
inductive SysCall
  | publish (pair : ResPair) (size : UInt32) (addr : Nat)
  | subscribe (pair : ResPair) (size : UInt32) (addr : Nat) (uninit : Fin 31 → UInt64)
  | subscribeType (typeId : UInt64) (size : UInt32) (addr : Nat) (uninit : Fin 31 → UInt64)

/-- The two tables of rights, and the messages of a worker. -/
structure SysState where
  res : LmResList
  set : LmRessetList
  slots : MesgSlots

namespace SysCall

/-- The ids of the call are not 0. -/
def NonZero : SysCall → Prop
  | publish pair _ _ => pair.typeId ≠ 0 ∧ pair.objectId ≠ 0
  | subscribe pair _ _ _ => pair.typeId ≠ 0 ∧ pair.objectId ≠ 0
  | subscribeType typeId _ _ _ => typeId ≠ 0

/-- The record that the call writes. -/
def info : SysCall → MesgInfo
  | publish pair size _ => publishInfo pair size
  | subscribe pair size _ _ => subscribeInfo pair size
  | subscribeType typeId size _ _ => subscribeTypeInfo typeId size

/-- The slot that the call fills, and the state behind it. -/
def run (build : Build) (worker : UInt64) (s : SysState) : SysCall → Option ResSlot × SysState
  | publish pair size addr =>
    let r := lmsysRegisterPublish build (0, addr) worker pair size s.res s.slots
    (r.written, { s with res := r.rights, slots := r.slots })
  | subscribe pair size addr uninit =>
    let r := lmsysRegisterSubscribe build uninit 0 (0, addr) worker pair size s.res s.slots
    (r.written, { s with res := r.rights, slots := r.slots })
  | subscribeType typeId size addr uninit =>
    let r := lmsysRegisterSubscribeType build uninit 0 (0, addr) worker typeId size s.set s.slots
    (r.written, { s with set := r.rights, slots := r.slots })

/-- The right is not refused, and there is a free slot. -/
def Fills (s : SysState) : SysCall → Prop
  | publish pair _ _ => publisher s.res pair = 0 ∧ s.slots.HasFree
  | subscribe _ _ _ _ => s.slots.HasFree
  | subscribeType _ _ _ _ => s.slots.HasFree

end SysCall

namespace SysState

variable (build : Build) (worker : UInt64) (s₀ : SysState)

/-- The state after some calls, the latest of which stands first. -/
def after : List SysCall → SysState
  | [] => s₀
  | call :: earlier => (call.run build worker (after earlier)).2

/-- The slots that some calls have filled, with the records they have written. -/
def filled : List SysCall → List (ResSlot × MesgInfo)
  | [] => []
  | call :: earlier =>
    ((call.run build worker (after build worker s₀ earlier)).1.map (·, call.info)).toList ++
      filled earlier

end SysState

/-- The records are where they were written, in slots of their own. -/
structure Kept (s : SysState) (filled : List (ResSlot × MesgInfo)) : Prop where
  inPlace : ∀ e ∈ filled, s.slots.mesg e.1 = e.2
  distinct : (filled.map Prod.fst).Nodup

/-- The slots in front of one that was filled are in use. -/
def UsedBefore (s : SysState) (filled : List (ResSlot × MesgInfo)) : Prop :=
  ∀ e ∈ filled, ∀ j, j < e.1 → (s.slots.mesg j).instId ≠ 0

section Sequences

variable {build : Build} {worker : UInt64} {s s₀ : SysState} {call : SysCall}

theorem lmressetAcquireSubscribeRight_success (uninit : Fin 31 → UInt64) (typeId : UInt64)
    (list : LmRessetList) :
    (lmressetAcquireSubscribeRight build uninit typeId worker list).1 = .success := by
  have hempty : ∀ i, LmResset.isEmpty (clearedSetBlock i) = true := fun _ => rfl
  obtain ⟨list', _, ⟨pos, res, hloc, _⟩ | ⟨pos, res, hloc, _⟩⟩ := @BlockTable.locate_cases 72 _ _
    (fun res => res.typeId = typeId) _ _ hempty list
  · simp only [lmressetAcquireSubscribeRight, hloc]
  · simp only [lmressetAcquireSubscribeRight, hloc]

/-- The loop when the memory is created: it fills the first free slot, if there is one. -/
theorem fillSlot_created {τ : Type} (addr : Nat) (info : MesgInfo) (rights : τ)
    (slots : MesgSlots) :
    let r := fillSlot (0, addr) info rights slots
    (¬ slots.HasFree ∧ r.written = none ∧ r.slots = slots) ∨
      (slots.HasFree ∧ ∃ i, r.written = some i ∧ (slots.mesg i).instId = 0 ∧
        (∀ j, j < i → (slots.mesg j).instId ≠ 0) ∧
        r.slots.mesg = Function.update slots.mesg i info) := by
  rcases fillSlot_cases (0, addr) info rights slots with
    ⟨hused, hfill⟩ | ⟨i, hi, hbefore, ⟨hcreate, _⟩ | ⟨_, hfill⟩⟩
  · rw [hfill]
    exact Or.inl ⟨fun ⟨i, hi⟩ => hused i hi, rfl, rfl⟩
  · exact absurd rfl hcreate
  · rw [hfill]
    exact Or.inr ⟨⟨i, hi⟩, i, rfl, hi, hbefore, rfl⟩

/-- What a call does to the slots: nothing, or it fills the first one that is free. -/
theorem SysCall.run_cases (build : Build) (worker : UInt64) (s : SysState)
    (hcall : call.NonZero) :
    (¬ call.Fills s ∧ (call.run build worker s).1 = none ∧
      (call.run build worker s).2.slots = s.slots) ∨
    (call.Fills s ∧ ∃ i, (call.run build worker s).1 = some i ∧ (s.slots.mesg i).instId = 0 ∧
      (∀ j, j < i → (s.slots.mesg j).instId ≠ 0) ∧
      (call.run build worker s).2.slots.mesg = Function.update s.slots.mesg i call.info) := by
  cases call with
  | publish pair size addr =>
    simp only [run, lmsysRegisterPublish, Fills, info]
    rcases lmresAcquirePublishRight_any build pair worker s.res with
      ⟨hpub, hacquired⟩ | ⟨hpub, hsuccess, _⟩
    · exact Or.inl ⟨fun h => hpub h.1, by simp [hacquired], by simp [hacquired]⟩
    · simp only [hsuccess, ne_eq, not_true_eq_false, if_false, hpub, true_and]
      exact fillSlot_created addr _ _ s.slots
  | subscribe pair size addr uninit =>
    obtain ⟨hsuccess, _⟩ := lmresAcquireSubscribeRight_any build uninit pair worker s.res
    simp only [run, lmsysRegisterSubscribe, Fills, info, hcall.2, hsuccess, ne_eq,
      not_true_eq_false, if_false]
    exact fillSlot_created addr _ _ s.slots
  | subscribeType typeId size addr uninit =>
    simp only [run, lmsysRegisterSubscribeType, Fills, info,
      lmressetAcquireSubscribeRight_success, ne_eq, not_true_eq_false, if_false]
    exact fillSlot_created addr _ _ s.slots

/-- The record of a set is the one without an instance. -/
theorem SysCall.info_instId_eq_zero_iff (hcall : call.NonZero) :
    call.info.instId = 0 ↔ call.info.type = subscribeResourcesetType := by
  have hne : ∀ x : UInt64, x ≠ 0 → x.toNat ≠ 0 := fun x hx h => hx (UInt64.toNat_inj.mp h)
  cases call with
  | publish pair size addr =>
    have htype : publishResourceType ≠ subscribeResourcesetType := by decide
    exact iff_of_false (hne _ hcall.2) htype
  | subscribe pair size addr uninit =>
    have htype : subscribeResourceType ≠ subscribeResourcesetType := by decide
    exact iff_of_false (hne _ hcall.2) htype
  | subscribeType typeId size addr uninit => exact iff_of_true rfl rfl

theorem filled_of_none {earlier : List SysCall}
    (h : (call.run build worker (.after build worker s₀ earlier)).1 = none) :
    SysState.filled build worker s₀ (call :: earlier) =
      SysState.filled build worker s₀ earlier := by
  simp [SysState.filled, h]

theorem filled_of_some {earlier : List SysCall} {i : ResSlot}
    (h : (call.run build worker (.after build worker s₀ earlier)).1 = some i) :
    SysState.filled build worker s₀ (call :: earlier) =
      (i, call.info) :: SysState.filled build worker s₀ earlier := by
  simp [SysState.filled, h]

/-- A record that was written is that of a call. -/
theorem exists_call_of_mem_filled {log : List SysCall} {e : ResSlot × MesgInfo}
    (h : e ∈ SysState.filled build worker s₀ log) : ∃ call ∈ log, e.2 = call.info := by
  induction log with
  | nil => cases h
  | cons call earlier ih =>
    cases hrun : (call.run build worker (.after build worker s₀ earlier)).1 with
    | none =>
      rw [filled_of_none hrun] at h
      obtain ⟨call', hmem, hinfo⟩ := ih h
      exact ⟨call', List.mem_cons_of_mem _ hmem, hinfo⟩
    | some i =>
      rw [filled_of_some hrun] at h
      rcases List.mem_cons.mp h with rfl | h
      · exact ⟨call, List.mem_cons_self, rfl⟩
      · obtain ⟨call', hmem, hinfo⟩ := ih h
        exact ⟨call', List.mem_cons_of_mem _ hmem, hinfo⟩

theorem usedBefore_after {log : List SysCall} (hlog : ∀ call ∈ log, call.NonZero) :
    UsedBefore (.after build worker s₀ log) (SysState.filled build worker s₀ log) := by
  induction log with
  | nil =>
    intro e he
    cases he
  | cons call earlier ih =>
    obtain ⟨hcall, hearlier⟩ := List.forall_mem_cons.mp hlog
    have hbefore := ih hearlier
    rcases call.run_cases build worker (.after build worker s₀ earlier) hcall with
      ⟨_, hrun, hslots⟩ | ⟨_, i, hrun, hi, hfirst, hslots⟩
    · rw [filled_of_none hrun, UsedBefore, SysState.after, hslots]
      exact hbefore
    · rw [filled_of_some hrun, UsedBefore, SysState.after, hslots]
      intro e he j hj
      rcases List.mem_cons.mp he with rfl | hold
      · rw [Function.update_of_ne hj.ne]
        exact hfirst j hj
      · -- The slot that is filled is not in front of one that was filled before.
        have hji : j ≠ i := by
          rintro rfl
          exact hbefore e hold j hj hi
        rw [Function.update_of_ne hji]
        exact hbefore e hold j hj

/-- A record more is kept with the others if and only if its slot is a new one. -/
theorem Kept.cons_iff {s' : SysState} {filled : List (ResSlot × MesgInfo)} {i : ResSlot}
    {info : MesgInfo} (h : Kept s filled)
    (hslots : s'.slots.mesg = Function.update s.slots.mesg i info) :
    Kept s' ((i, info) :: filled) ↔ ∀ e ∈ filled, e.1 ≠ i := by
  constructor
  · intro hkept e he heq
    have hnodup := hkept.distinct
    rw [List.map_cons, List.nodup_cons] at hnodup
    exact hnodup.1 (List.mem_map.mpr ⟨e, he, heq⟩)
  · intro hne
    refine ⟨fun e he => ?_, ?_⟩
    · rw [hslots]
      rcases List.mem_cons.mp he with rfl | he
      · exact Function.update_self ..
      · rw [Function.update_of_ne (hne e he)]
        exact h.inPlace e he
    · rw [List.map_cons, List.nodup_cons]
      refine ⟨fun hmem => ?_, h.distinct⟩
      obtain ⟨e, he, heq⟩ := List.mem_map.mp hmem
      exact hne e he heq

/-- One call keeps the records if and only if it fills no slot, or no record of a set is
among them. -/
theorem kept_cons_iff {earlier : List SysCall} (hcall : call.NonZero)
    (hearlier : ∀ call ∈ earlier, call.NonZero)
    (h : Kept (.after build worker s₀ earlier) (SysState.filled build worker s₀ earlier)) :
    Kept (.after build worker s₀ (call :: earlier))
        (SysState.filled build worker s₀ (call :: earlier)) ↔
      (call.Fills (.after build worker s₀ earlier) →
        ∀ e ∈ SysState.filled build worker s₀ earlier, e.2.type ≠ subscribeResourcesetType) := by
  have hzero : ∀ e ∈ SysState.filled build worker s₀ earlier,
      (((SysState.after build worker s₀ earlier).slots.mesg e.1).instId = 0 ↔
        e.2.type = subscribeResourcesetType) := by
    intro e he
    obtain ⟨call', hmem, hinfo⟩ := exists_call_of_mem_filled he
    rw [h.inPlace e he, hinfo]
    exact call'.info_instId_eq_zero_iff (hearlier call' hmem)
  rcases call.run_cases build worker (.after build worker s₀ earlier) hcall with
    ⟨hno, hrun, hslots⟩ | ⟨hfills, i, hrun, hi, hfirst, hslots⟩
  · refine iff_of_true ?_ fun hfills => absurd hfills hno
    rw [filled_of_none hrun]
    refine ⟨fun e he => ?_, h.distinct⟩
    rw [SysState.after, hslots]
    exact h.inPlace e he
  · rw [filled_of_some hrun, SysState.after, h.cons_iff hslots]
    constructor
    · -- The slot of a set is the first free one, so it would be filled again.
      intro hne _ e he hset
      have hfree := (hzero e he).mpr hset
      have hle : ¬ e.1 < i := fun hlt => hfirst e.1 hlt hfree
      have hge : ¬ i < e.1 := fun hlt => usedBefore_after hearlier e he i hlt hi
      exact hne e he (le_antisymm (not_lt.mp hge) (not_lt.mp hle))
    · rintro hright e he rfl
      exact hright hfills e he ((hzero e he).mp hi)

end Sequences

/-- After every call of a sequence the records are where they were written, in slots of
their own, if and only if no call fills a slot after one that has subscribed to a set. -/
theorem records_kept_iff {build : Build} {worker : UInt64} {s₀ : SysState} {log : List SysCall}
    (hlog : ∀ call ∈ log, call.NonZero) :
    (∀ log', log' <:+ log →
        Kept (.after build worker s₀ log') (SysState.filled build worker s₀ log')) ↔
      ∀ call earlier, call :: earlier <:+ log → call.Fills (.after build worker s₀ earlier) →
        ∀ e ∈ SysState.filled build worker s₀ earlier, e.2.type ≠ subscribeResourcesetType := by
  refine Run.forall_suffix_iff ?_ fun call earlier hsuffix h => ?_
  · refine ⟨fun e he => ?_, List.nodup_nil⟩
    cases he
  · obtain ⟨hcall, hearlier⟩ := List.forall_mem_cons.mp fun c hc => hlog c (hsuffix.subset hc)
    exact kept_cons_iff hcall hearlier h

/-- A worker without messages, and cleared tables. -/
def freshState : SysState := ⟨[clearedBlock], [clearedSetBlock], freeSlots⟩

/-- The calls of `lmnet_beatheart_create`: a message is published, then its type is
subscribed to. -/
def beatheartCalls : List SysCall :=
  [.subscribeType 3 0 8192 fun _ => 0, .publish ⟨3, 5⟩ 64 4096]

/-- The records of these two calls stay. -/
theorem records_kept_iff_beatheartCalls :
    (∀ call ∈ beatheartCalls, call.NonZero) ∧
      Kept (.after .release 9 freshState beatheartCalls)
        (SysState.filled .release 9 freshState beatheartCalls) := by
  have hcalls : ∀ call ∈ beatheartCalls, call.NonZero := by
    simp [beatheartCalls, SysCall.NonZero]
  refine ⟨hcalls, (records_kept_iff hcalls).mpr ?_ beatheartCalls List.suffix_rfl⟩
  intro call earlier hsuffix _ e he
  have hearlier : earlier <:+ [.publish ⟨3, 5⟩ 64 4096] := by
    rcases List.suffix_cons_iff.mp hsuffix with heq | hsuffix
    · rw [(List.cons.inj heq).2]
    · exact (List.suffix_cons call earlier).trans hsuffix
  obtain ⟨call', hmem, hinfo⟩ := exists_call_of_mem_filled he
  obtain rfl := List.mem_singleton.mp (hearlier.subset hmem)
  rw [hinfo]
  exact (by decide : publishResourceType ≠ subscribeResourcesetType)

/-- A worker subscribes to a set and then to an object: the second record is written over
the first. -/
theorem set_record_overwritten :
    let log : List SysCall :=
      [.subscribe ⟨3, 5⟩ 0 4096 fun _ => 0, .subscribeType 3 0 8192 fun _ => 0]
    (∀ call ∈ log, call.NonZero) ∧
      (SysState.filled .release 9 freshState log).map (·.1.val) = [0, 0] ∧
      ¬ Kept (.after .release 9 freshState log) (SysState.filled .release 9 freshState log) := by
  intro log
  have hslots : (SysState.filled .release 9 freshState log).map (·.1.val) = [0, 0] := by
    decide +kernel
  refine ⟨by simp [log, SysCall.NonZero], hslots, fun hkept => ?_⟩
  have hdistinct := hkept.distinct.map Fin.val_injective
  rw [List.map_map] at hdistinct
  exact absurd (hslots ▸ hdistinct) (by decide)

end Syscall

end LMiced
