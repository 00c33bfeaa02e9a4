import LMiced.Lib.Places
import LMiced.Resource.Resset

/-!
# Who has subscribed

The lists of subscribers and of objects in the entries of the two tables of
`resource/resource_right.h`, and the functions that check whether anybody has subscribed.

A list grows by 32 places at a time, and only the first of the new places is written; the
others have what `malloc` left there. The check functions look for an entry, not for a
subscriber in it.

* `subscribe_lists_hold_iff`: a list is right after every call if and only if the memory it
  grew by was always clear;
* `RightsTables.registered_res`, `RightsTables.registered_set`: a resource, or a set, has an
  entry if and only if somebody has acquired a right to it;
* `check_subscribe_right_iff`: the check functions are right after every call if and only if
  nobody but a subscriber makes an entry and the last subscriber never leaves.
-/

namespace LMiced

/-! ## Lists -/

/-- A call of `lmres_add_subscribe_right_list` or `lmres_del_subscribe_right_list`. -/
inductive SubListOp
  | add (worker : UInt64) (uninit : Fin 31 → UInt64)
  | del (worker : UInt64)

namespace SubListOp

def worker : SubListOp → UInt64
  | add worker _ => worker
  | del worker => worker

def run : SubListOp → List UInt64 → List UInt64
  | add worker uninit => lmresAddSubscribeRightList uninit worker
  | del worker => lmresDelSubscribeRightList worker

/-- The list after some calls, the latest of which stands first. -/
def after : List SubListOp → List UInt64
  | [] => []
  | op :: earlier => op.run (after earlier)

/-- The workers that were added and not deleted since. -/
def held (log : List SubListOp) : Set UInt64 :=
  {worker | Run.Since (fun op => ∃ uninit, op = add worker uninit) (· = del worker) log}

/-- If the list has to grow, the new places are clear. -/
def GrowsClear : SubListOp → List UInt64 → Prop
  | add worker uninit, list => Places.Grows 0 worker list → ∀ i, uninit i = 0
  | del _, _ => True

@[simp] theorem held_nil : held [] = ∅ := by
  ext worker
  exact iff_of_false Run.not_since_nil (Set.notMem_empty _)

@[simp] theorem held_add (worker : UInt64) (uninit : Fin 31 → UInt64) (log : List SubListOp) :
    held (add worker uninit :: log) = insert worker (held log) := by
  ext w
  simp [held, Run.since_cons_iff, eq_comm]

@[simp] theorem held_del (worker : UInt64) (log : List SubListOp) :
    held (del worker :: log) = held log \ {worker} := by
  ext w
  simp [held, Run.since_cons_iff, and_comm, eq_comm]

end SubListOp

/-- A call of `lmresset_add_object`. -/
structure AddObject where
  objectId : UInt64
  uninit : Fin 31 → UInt64

namespace AddObject

/-- The list after some calls, the latest of which stands first. -/
def after : List AddObject → List UInt64
  | [] => []
  | call :: earlier => (lmressetAddObject call.uninit call.objectId (after earlier)).2

/-- The objects that were added. -/
def added (log : List AddObject) : Set UInt64 := {objectId | ∃ call ∈ log, call.objectId = objectId}

/-- If the list has to grow, the new places are clear. -/
def GrowsClear (call : AddObject) (list : List UInt64) : Prop :=
  Places.Grows 0 call.objectId list → ∀ i, call.uninit i = 0

@[simp] theorem added_cons (call : AddObject) (log : List AddObject) :
    added (call :: log) = insert call.objectId (added log) := by
  ext objectId
  simp [added, eq_comm]

end AddObject

section Lists

variable {uninit : Fin 31 → UInt64} {worker objectId : UInt64} {list : List UInt64}

theorem lmresAddSubscribeRightList_eq :
    lmresAddSubscribeRightList uninit worker list =
      Places.put 0 (List.ofFn uninit) worker list := rfl

theorem lmressetAddObject_eq :
    lmressetAddObject uninit objectId list =
      (if objectId ∈ list then .already else .success,
        Places.put 0 (List.ofFn uninit) objectId list) := by
  unfold lmressetAddObject Places.put
  split
  · rfl
  · split <;> rfl

/-- A list grows right if and only if the new places are clear. -/
theorem holds_put_iff {s : Set UInt64} (h : Places.Holds 0 s list) (hworker : worker ≠ 0) :
    Places.Holds 0 (insert worker s) (Places.put 0 (List.ofFn uninit) worker list) ↔
      (Places.Grows 0 worker list → ∀ i, uninit i = 0) := by
  rw [h.put_iff hworker]
  simp only [List.forall_mem_ofFn_iff]

end Lists

/-- One call keeps the list of subscribers right if and only if it does not grow by places
that are not clear. -/
theorem SubListOp.holds_cons_iff {op : SubListOp} {earlier : List SubListOp}
    (hworker : op.worker ≠ 0) (h : Places.Holds 0 (held earlier) (after earlier)) :
    Places.Holds 0 (held (op :: earlier)) (after (op :: earlier)) ↔
      op.GrowsClear (after earlier) := by
  cases op with
  | add worker uninit =>
    rw [held_add, after, run, lmresAddSubscribeRightList_eq]
    exact holds_put_iff h hworker
  | del worker =>
    rw [held_del]
    exact iff_of_true (h.remove hworker) trivial

theorem AddObject.holds_cons_iff {call : AddObject} {earlier : List AddObject}
    (hobject : call.objectId ≠ 0) (h : Places.Holds 0 (added earlier) (after earlier)) :
    Places.Holds 0 (added (call :: earlier)) (after (call :: earlier)) ↔
      call.GrowsClear (after earlier) := by
  rw [added_cons, after, lmressetAddObject_eq]
  exact holds_put_iff h hobject

/-- After every call of a sequence the list of subscribers holds those that were added and
not deleted since, each once, if and only if the memory that it grew by was always clear.
In the same way the list of objects holds those that were added, each once, and a call
returns `LMRES_ERR_ALREADY` just for an object that was added before. -/
theorem subscribe_lists_hold_iff {log : List SubListOp} {calls : List AddObject}
    (hlog : ∀ op ∈ log, op.worker ≠ 0) (hcalls : ∀ call ∈ calls, call.objectId ≠ 0) :
    ((∀ log', log' <:+ log →
        Places.Holds 0 (SubListOp.held log') (SubListOp.after log')) ↔
      ∀ op earlier, op :: earlier <:+ log → op.GrowsClear (SubListOp.after earlier)) ∧
    (((∀ calls', calls' <:+ calls →
        Places.Holds 0 (AddObject.added calls') (AddObject.after calls')) ∧
      ∀ call earlier, call :: earlier <:+ calls →
        ((lmressetAddObject call.uninit call.objectId (AddObject.after earlier)).1 = .already ↔
          call.objectId ∈ AddObject.added earlier)) ↔
      ∀ call earlier, call :: earlier <:+ calls →
        call.GrowsClear (AddObject.after earlier)) := by
  have hsub : (∀ log', log' <:+ log →
        Places.Holds 0 (SubListOp.held log') (SubListOp.after log')) ↔
      ∀ op earlier, op :: earlier <:+ log → op.GrowsClear (SubListOp.after earlier) := by
    refine Run.forall_suffix_iff ?_ fun op earlier hsuffix hearlier => ?_
    · rw [SubListOp.held_nil]
      exact Places.holds_nil
    · exact SubListOp.holds_cons_iff (hlog op (hsuffix.subset List.mem_cons_self)) hearlier
  have hobj : (∀ calls', calls' <:+ calls →
        Places.Holds 0 (AddObject.added calls') (AddObject.after calls')) ↔
      ∀ call earlier, call :: earlier <:+ calls →
        call.GrowsClear (AddObject.after earlier) := by
    refine Run.forall_suffix_iff ?_ fun call earlier hsuffix hearlier => ?_
    · have hnone : AddObject.added [] = ∅ := by
        ext objectId
        simp [AddObject.added]
      rw [hnone]
      exact Places.holds_nil
    · exact AddObject.holds_cons_iff (hcalls call (hsuffix.subset List.mem_cons_self)) hearlier
  refine ⟨hsub, ?_⟩
  rw [hobj]
  refine and_iff_left_of_imp fun hclear call earlier hsuffix => ?_
  have hearlier := hobj.mpr hclear earlier ((List.suffix_cons call earlier).trans hsuffix)
  have hne := hcalls call (hsuffix.subset List.mem_cons_self)
  rw [lmressetAddObject_eq, ← (hearlier call.objectId hne).1]
  simp

/-- Workers 1 and 2 are added and worker 1 is deleted, and the memory is clear. -/
def clearLog : List SubListOp := [.del 1, .add 2 fun _ => 0, .add 1 fun _ => 0]

/-- Worker 2 and object 3 are in their lists. -/
theorem subscribe_lists_hold_iff_clearLog :
    Places.Holds 0 (SubListOp.held clearLog) (SubListOp.after clearLog) ∧
      Places.Holds 0 (AddObject.added [⟨3, fun _ => 0⟩]) (AddObject.after [⟨3, fun _ => 0⟩]) := by
  have hlog : ∀ op ∈ clearLog, op.worker ≠ 0 := by decide
  have hcalls : ∀ call ∈ [(⟨3, fun _ => 0⟩ : AddObject)], call.objectId ≠ 0 := by decide
  obtain ⟨hsub, hobj⟩ := subscribe_lists_hold_iff hlog hcalls
  refine ⟨hsub.mpr (fun op earlier hsuffix => ?_) clearLog List.suffix_rfl,
    (hobj.mpr fun call earlier hsuffix => ?_).1 _ List.suffix_rfl⟩
  · have hmem : op ∈ clearLog := hsuffix.subset List.mem_cons_self
    simp only [clearLog, List.mem_cons, List.not_mem_nil, or_false] at hmem
    rcases hmem with rfl | rfl | rfl
    · trivial
    · exact fun _ _ => rfl
    · exact fun _ _ => rfl
  · obtain rfl := List.mem_singleton.mp (hsuffix.subset List.mem_cons_self)
    exact fun _ _ => rfl

/-- The first growth of the lists, by memory that holds the number 7: worker 7 is in the
list though it was never added, and object 7 is refused as if it had been. -/
theorem uninitialised_places_hold_garbage :
    7 ∈ SubListOp.after [.add 1 fun _ => 7] ∧ 7 ∉ SubListOp.held [.add 1 fun _ => 7] ∧
      (lmressetAddObject (fun _ => 0) 7 (AddObject.after [⟨1, fun _ => 7⟩])).1 = .already ∧
      7 ∉ AddObject.added [⟨1, fun _ => 7⟩] := by
  refine ⟨by decide, ?_, by decide, ?_⟩
  · simp
  · simp [AddObject.added]

/-! ## Subscribers of a key -/

/-- What a call does to the subscribers of some key: a publisher acquires a right to it, a
worker subscribes or leaves, or the call is about something else. -/
inductive Touch
  | publish
  | subscribe (worker : UInt64)
  | leave (worker : UInt64)
  | other
deriving DecidableEq, Repr

/-- A right to the key is acquired, to publish or to subscribe. -/
def Touch.Acquires : Touch → Prop
  | publish => True
  | subscribe _ => True
  | leave _ => False
  | other => False

theorem Touch.acquires_ite {touch : Touch} {p : Prop} [Decidable p] :
    (if p then touch else other).Acquires ↔ p ∧ touch.Acquires := by
  by_cases hp : p <;> simp [hp, Acquires]

section Touch

variable {α : Type*} {touch : α → Touch} {call : α} {log : List α}

/-- The worker has subscribed and not left since. -/
def Subscribes (touch : α → Touch) (log : List α) (worker : UInt64) : Prop :=
  Run.Since (fun call => touch call = .subscribe worker)
    (fun call => touch call = .leave worker) log

/-- A right to the key was acquired. -/
def Touched (touch : α → Touch) (log : List α) : Prop := ∃ call ∈ log, (touch call).Acquires

/-- A publisher comes to subscribers only, and a worker leaves when it is not the last. -/
structure KeepsSubscriber (touch : α → Touch) (call : α) (earlier : List α) : Prop where
  publish : touch call = .publish → ∃ worker, Subscribes touch earlier worker
  leave : ∀ worker, touch call = .leave worker → Subscribes touch earlier worker →
    ∃ worker', worker' ≠ worker ∧ Subscribes touch earlier worker'

theorem subscribes_cons_iff {worker : UInt64} :
    Subscribes touch (call :: log) worker ↔ touch call = .subscribe worker ∨
      (touch call ≠ .leave worker ∧ Subscribes touch log worker) :=
  Run.since_cons_iff

/-- Before the first call nobody has subscribed. -/
theorem not_subscribes_nil {worker : UInt64} : ¬ Subscribes touch [] worker := Run.not_since_nil

theorem not_touched_nil : ¬ Touched touch [] := by
  simp [Touched]

theorem touched_cons_iff :
    Touched touch (call :: log) ↔ (touch call).Acquires ∨ Touched touch log := by
  simp [Touched]

/-- When the key was touched just if somebody subscribes, this stays so if and only if the
call keeps a subscriber. -/
theorem touched_iff_subscribes_cons
    (h : Touched touch log ↔ ∃ worker, Subscribes touch log worker) :
    (Touched touch (call :: log) ↔ ∃ worker, Subscribes touch (call :: log) worker) ↔
      KeepsSubscriber touch call log := by
  rw [touched_cons_iff, h]
  simp only [subscribes_cons_iff]
  cases htouch : touch call with
  | publish =>
    simp only [Touch.Acquires, reduceCtorEq, true_or, true_iff, false_or, ne_eq,
      not_false_eq_true, true_and]
    exact ⟨fun hsub => ⟨fun _ => hsub, fun w hw => by simp [htouch] at hw⟩,
      fun hkeeps => hkeeps.publish htouch⟩
  | subscribe worker =>
    refine iff_of_true (iff_of_true ?_ ?_) ⟨fun hp => ?_, fun w hw => ?_⟩
    · exact Or.inl trivial
    · exact ⟨worker, Or.inl rfl⟩
    · simp [htouch] at hp
    · simp [htouch] at hw
  | leave worker =>
    simp only [Touch.Acquires, reduceCtorEq, false_or, ne_eq, Touch.leave.injEq]
    constructor
    · refine fun hiff => ⟨fun hp => by simp [htouch] at hp, fun w hw hsub => ?_⟩
      obtain rfl : worker = w := Touch.leave.inj (htouch.symm.trans hw)
      obtain ⟨w', hne, hsub'⟩ := hiff.mp ⟨worker, hsub⟩
      exact ⟨w', Ne.symm hne, hsub'⟩
    · refine fun hkeeps => ⟨?_, fun ⟨w, _, hsub⟩ => ⟨w, hsub⟩⟩
      rintro ⟨w, hsub⟩
      by_cases hw : worker = w
      · obtain ⟨w', hne, hsub'⟩ := hkeeps.leave worker htouch (hw ▸ hsub)
        exact ⟨w', Ne.symm hne, hsub'⟩
      · exact ⟨w, hw, hsub⟩
  | other =>
    simp only [Touch.Acquires, reduceCtorEq, false_or, ne_eq, not_false_eq_true, true_and,
      true_iff]
    exact ⟨fun hp => by simp [htouch] at hp, fun w hw => by simp [htouch] at hw⟩

end Touch

/-! ## The checks -/

/-- `lmres_check_subscribe_right`. -/
def lmresCheckSubscribeRight (pair : ResPair) (list : LmResList) : LmresErr :=
  match pair.find list with
  | .hit _ => .success
  | _ => .notFound

/-- A call on one of the two tables. -/
inductive RightsCall
  | res (op : RightOp)
  | set (op : RessetOp)

/-- The table of resources and that of resource sets. -/
structure RightsTables where
  res : LmResList
  set : LmRessetList

/-- What a call has to do with a resource. -/
def RightsCall.onRes (pair : ResPair) : RightsCall → Touch
  | res (.acquirePublish pair' _) => if pair' = pair then .publish else .other
  | res (.releasePublish _) => .other
  | res (.acquireSubscribe pair' worker _) => if pair' = pair then .subscribe worker else .other
  | res (.releaseSubscribe pair' worker) => if pair' = pair then .leave worker else .other
  | set _ => .other

/-- What a call has to do with a resource set. -/
def RightsCall.onSet (typeId : UInt64) : RightsCall → Touch
  | res _ => .other
  | set (.acquireSubscribe typeId' worker _) =>
    if typeId' = typeId then .subscribe worker else .other
  | set (.releaseSubscribe typeId' worker) => if typeId' = typeId then .leave worker else .other
  | set (.addSubscribeObject _ _ _) => .other

namespace RightsTables

/-- Two cleared blocks. -/
def init : RightsTables := ⟨[clearedBlock], [clearedSetBlock]⟩

def run (build : Build) (call : RightsCall) (tables : RightsTables) : RightsTables :=
  match call with
  | .res op => { tables with res := (op.run build tables.res).2 }
  | .set op => { tables with set := (op.run build tables.set).2 }

/-- The tables after some calls, the latest of which stands first. -/
def after (build : Build) : List RightsCall → RightsTables
  | [] => init
  | call :: earlier => run build call (after build earlier)

end RightsTables

section Checks

variable {build : Build} {registered : Prop}

theorem lmresCheckSubscribeRight_iff {pair : ResPair} {list : LmResList} :
    lmresCheckSubscribeRight pair list = .success ↔
      ∃ pos res, list.entry pos = some res ∧ res.pair = pair := by
  unfold lmresCheckSubscribeRight
  rcases pair.find_spec list with ⟨pos, res, hfind, hres, hpair⟩ | ⟨hfind, hlacks⟩
  · simp only [hfind, true_iff]
    exact ⟨pos, res, hres, hpair⟩
  · simp only [hfind, reduceCtorEq, false_iff]
    rintro ⟨pos, res, hres, hpair⟩
    exact ResPair.isOf_eq_false.mp (hlacks pos res hres) hpair

theorem lmressetCheckSubscribeRight_iff {typeId : UInt64} {list : LmRessetList} :
    lmressetCheckSubscribeRight typeId list = .success ↔
      ∃ pos res, list.entry pos = some res ∧ res.typeId = typeId := by
  unfold lmressetCheckSubscribeRight
  rcases ressetFind_cases typeId list with ⟨pos, res, hfind, hres, htype⟩ | ⟨hfind, hno⟩
  · simp only [hfind, true_iff]
    exact ⟨pos, res, hres, htype⟩
  · simp only [hfind, reduceCtorEq, false_iff]
    exact hno

/-- The walk of the acquire functions ends at an entry of the pair or at an empty one, for
every pair. -/
theorem ResPair.locate_registered (pair' : ResPair) {pair : ResPair} {list : LmResList}
    (hne : pair ≠ ⟨0, 0⟩)
    (h : BlockTable.Registered LmRes.isEmpty LmRes.pair pair registered list) :
    ∃ list', BlockTable.Registered LmRes.isEmpty LmRes.pair pair registered list' ∧
      ((∃ pos res, pair'.locate list = (list', .hit pos) ∧ list'.entry pos = some res ∧
        res.pair = pair') ∨
      (∃ pos res, pair'.locate list = (list', .vacant pos) ∧ list'.entry pos = some res ∧
        res.isEmpty = true)) := by
  have hkey : pair ≠ LmRes.pair .zero := hne
  obtain ⟨list', h', hcases⟩ :=
    h.locate hkey (show clearedBlock = fun _ => LmRes.zero from rfl) rfl pair'.isOf
  refine ⟨list', h', hcases.imp_left ?_⟩
  rintro ⟨pos, res, hloc, hres, hhit⟩
  exact ⟨pos, res, hloc, hres, ResPair.isOf_eq_true.mp hhit⟩

/-- A resource is registered by the calls that acquire a right to it. -/
theorem RightOp.run_registered {pair : ResPair} {list : LmResList} (hpair : pair.Proper build)
    (h : BlockTable.Registered LmRes.isEmpty LmRes.pair pair registered list) (op : RightOp) :
    BlockTable.Registered LmRes.isEmpty LmRes.pair pair
      ((RightsCall.onRes pair (.res op)).Acquires ∨ registered) (op.run build list).2 := by
  have hid : ∀ pair', pair' = pair → decide (lmresCreateId build pair' = 0) = false := by
    rintro _ rfl
    exact decide_eq_false hpair.id_ne_zero
  cases op with
  | acquirePublish pair' worker =>
    have hiff : registered ∨ pair' = pair ↔
        (RightsCall.onRes pair (.res (.acquirePublish pair' worker))).Acquires ∨ registered := by
      rw [RightsCall.onRes, Touch.acquires_ite]
      simp [Touch.Acquires, or_comm]
    refine BlockTable.Registered.congr ?_ hiff
    obtain ⟨list', h', ⟨pos, res, hloc, hres, hresp⟩ | ⟨pos, res, hloc, hres, hvacant⟩⟩ :=
      pair'.locate_registered hpair.ne_zero h
    · simp only [run, lmresAcquirePublishRight, hloc]
      split
      · dsimp only
        exact h'.rewrite hres hresp rfl rfl
      · refine h'.congr (or_iff_left_of_imp ?_).symm
        rintro rfl
        exact h'.iff.mp ⟨pos, res, hres, hresp⟩
    · simp only [run, lmresAcquirePublishRight, hloc]
      exact h'.create hres hvacant rfl (hid pair')
  | releasePublish pair' =>
    simp only [run, lmresReleasePublishRight, RightsCall.onRes, Touch.Acquires, false_or]
    rcases pair'.find_spec list with ⟨pos, res, hfind, hres, _⟩ | ⟨hfind, _⟩
    · simp only [hfind]
      exact h.modify hres Iff.rfl fun _ => rfl
    · simpa only [hfind] using h
  | acquireSubscribe pair' worker uninit =>
    have hiff : registered ∨ pair' = pair ↔
        (RightsCall.onRes pair (.res (.acquireSubscribe pair' worker uninit))).Acquires ∨
          registered := by
      rw [RightsCall.onRes, Touch.acquires_ite]
      simp [Touch.Acquires, or_comm]
    refine BlockTable.Registered.congr ?_ hiff
    obtain ⟨list', h', ⟨pos, res, hloc, hres, hresp⟩ | ⟨pos, res, hloc, hres, hvacant⟩⟩ :=
      pair'.locate_registered hpair.ne_zero h
    · simp only [run, lmresAcquireSubscribeRight, hloc]
      exact h'.rewrite hres hresp rfl rfl
    · simp only [run, lmresAcquireSubscribeRight, hloc]
      exact h'.create hres hvacant rfl (hid pair')
  | releaseSubscribe pair' worker =>
    have hno : ¬ (RightsCall.onRes pair (.res (.releaseSubscribe pair' worker))).Acquires := by
      rw [RightsCall.onRes, Touch.acquires_ite]
      simp [Touch.Acquires]
    refine BlockTable.Registered.congr ?_ (or_iff_right hno).symm
    simp only [run, lmresReleaseSubscribeRight]
    rcases pair'.find_spec list with ⟨pos, res, hfind, hres, _⟩ | ⟨hfind, _⟩
    · simp only [hfind]
      exact h.modify hres Iff.rfl fun _ => rfl
    · simpa only [hfind] using h

/-- A resource set is registered by the calls that acquire a right to it. -/
theorem RessetOp.run_registered {typeId : UInt64} {list : LmRessetList} (hne : typeId ≠ 0)
    (hid : lmressetCreateId build typeId ≠ 0)
    (h : BlockTable.Registered LmResset.isEmpty LmResset.typeId typeId registered list)
    (op : RessetOp) :
    BlockTable.Registered LmResset.isEmpty LmResset.typeId typeId
      ((RightsCall.onSet typeId (.set op)).Acquires ∨ registered) (op.run build list).2 := by
  cases op with
  | acquireSubscribe typeId' worker uninit =>
    have hiff : registered ∨ typeId' = typeId ↔
        (RightsCall.onSet typeId (.set (.acquireSubscribe typeId' worker uninit))).Acquires ∨
          registered := by
      rw [RightsCall.onSet, Touch.acquires_ite]
      simp [Touch.Acquires, or_comm]
    refine BlockTable.Registered.congr ?_ hiff
    have hkey : typeId ≠ LmResset.typeId .zero := hne
    obtain ⟨list', h', hcases⟩ :=
      h.locate hkey (show clearedSetBlock = fun _ => LmResset.zero from rfl) rfl
        fun res => res.typeId = typeId'
    simp only [run, lmressetAcquireSubscribeRight]
    rcases hcases with ⟨pos, res, hloc, hres, hhit⟩ | ⟨pos, res, hloc, hres, hvacant⟩
    · simp only [hloc]
      exact h'.rewrite hres (of_decide_eq_true hhit) rfl rfl
    · simp only [hloc]
      refine h'.create hres hvacant rfl ?_
      rintro rfl
      exact decide_eq_false hid
  | releaseSubscribe typeId' worker =>
    have hno : ¬ (RightsCall.onSet typeId (.set (.releaseSubscribe typeId' worker))).Acquires := by
      rw [RightsCall.onSet, Touch.acquires_ite]
      simp [Touch.Acquires]
    refine BlockTable.Registered.congr ?_ (or_iff_right hno).symm
    simp only [run, lmressetReleaseSubscribeRight]
    rcases ressetFind_cases typeId' list with ⟨pos, res, hfind, hres, _⟩ | ⟨hfind, _⟩
    · simp only [hfind]
      exact h.modify hres Iff.rfl fun _ => rfl
    · simpa only [hfind] using h
  | addSubscribeObject typeId' objectId uninit =>
    simp only [run, lmressetAddSubscribeObject, RightsCall.onSet, Touch.Acquires, false_or]
    rcases ressetFind_cases typeId' list with ⟨pos, res, hfind, hres, _⟩ | ⟨hfind, _⟩
    · simp only [hfind]
      exact h.modify hres Iff.rfl fun _ => rfl
    · simpa only [hfind] using h

/-- After every sequence of calls, a resource has an entry if and only if a right to it
was acquired. -/
theorem RightsTables.registered_res {pair : ResPair} (hpair : pair.Proper build)
    (log : List RightsCall) :
    BlockTable.Registered LmRes.isEmpty LmRes.pair pair (Touched (RightsCall.onRes pair) log)
      (after build log).res := by
  induction log with
  | nil =>
    have hinit : BlockTable.Registered LmRes.isEmpty LmRes.pair pair False [clearedBlock] :=
      BlockTable.Registered.nil.append hpair.ne_zero
    exact hinit.congr (iff_of_false id not_touched_nil)
  | cons call earlier ih =>
    refine BlockTable.Registered.congr ?_ touched_cons_iff.symm
    cases call with
    | res op => exact op.run_registered hpair ih
    | set op => exact ih.congr (or_iff_right id).symm

theorem RightsTables.registered_set {typeId : UInt64} (hne : typeId ≠ 0)
    (hid : lmressetCreateId build typeId ≠ 0) (log : List RightsCall) :
    BlockTable.Registered LmResset.isEmpty LmResset.typeId typeId
      (Touched (RightsCall.onSet typeId) log) (after build log).set := by
  induction log with
  | nil =>
    have hinit : BlockTable.Registered LmResset.isEmpty LmResset.typeId typeId False
        [clearedSetBlock] := BlockTable.Registered.nil.append hne
    exact hinit.congr (iff_of_false id not_touched_nil)
  | cons call earlier ih =>
    refine BlockTable.Registered.congr ?_ touched_cons_iff.symm
    cases call with
    | res op => exact ih.congr (or_iff_right id).symm
    | set op => exact op.run_registered hne hid ih

end Checks

/-- A check function finds an entry, and an entry is there if and only if a right was
acquired. -/
theorem forall_suffix_checks_iff {touch : RightsCall → Touch} {found : List RightsCall → Prop}
    {log : List RightsCall} (hfound : ∀ log', found log' ↔ Touched touch log') :
    (∀ log', log' <:+ log → (found log' ↔ ∃ worker, Subscribes touch log' worker)) ↔
      ∀ call earlier, call :: earlier <:+ log → KeepsSubscriber touch call earlier := by
  simp only [hfound]
  refine Run.forall_suffix_iff ?_ fun call earlier _ h => touched_iff_subscribes_cons h
  exact iff_of_false not_touched_nil fun ⟨_, h⟩ => not_subscribes_nil h

/-- After every call of a sequence the check functions tell whether anybody has subscribed,
to a resource and to a resource set whose ids are not 0, if and only if the resource and the
set are not those of cleared entries, a right to publish is acquired only while there is a
subscriber, and no worker leaves as the last one. -/
theorem check_subscribe_right_iff {build : Build} {log : List RightsCall} {pair : ResPair}
    {typeId : UInt64} (hpair : lmresCreateId build pair ≠ 0)
    (htype : lmressetCreateId build typeId ≠ 0) :
    ((∀ log', log' <:+ log →
        (lmresCheckSubscribeRight pair (RightsTables.after build log').res = .success ↔
          ∃ worker, Subscribes (RightsCall.onRes pair) log' worker)) ↔
      pair ≠ ⟨0, 0⟩ ∧ ∀ call earlier, call :: earlier <:+ log →
        KeepsSubscriber (RightsCall.onRes pair) call earlier) ∧
    ((∀ log', log' <:+ log →
        (lmressetCheckSubscribeRight typeId (RightsTables.after build log').set = .success ↔
          ∃ worker, Subscribes (RightsCall.onSet typeId) log' worker)) ↔
      typeId ≠ 0 ∧ ∀ call earlier, call :: earlier <:+ log →
        KeepsSubscriber (RightsCall.onSet typeId) call earlier) := by
  constructor
  · by_cases hzero : pair = ⟨0, 0⟩
    · -- The cleared entries are found before the first call.
      refine iff_of_false (fun h => ?_) fun h => h.1 hzero
      have hfound := (h [] (List.nil_suffix)).mp
      rw [lmresCheckSubscribeRight_iff, hzero] at hfound
      obtain ⟨_, hsub⟩ := hfound ⟨(0, 0), .zero, rfl, rfl⟩
      exact not_subscribes_nil hsub
    · rw [and_iff_right hzero]
      refine forall_suffix_checks_iff fun log' => ?_
      rw [lmresCheckSubscribeRight_iff]
      exact (RightsTables.registered_res ⟨hzero, hpair⟩ log').iff
  · by_cases hzero : typeId = 0
    · refine iff_of_false (fun h => ?_) fun h => h.1 hzero
      have hfound := (h [] (List.nil_suffix)).mp
      rw [lmressetCheckSubscribeRight_iff, hzero] at hfound
      obtain ⟨_, hsub⟩ := hfound ⟨(0, 0), .zero, rfl, rfl⟩
      exact not_subscribes_nil hsub
    · rw [and_iff_right hzero]
      refine forall_suffix_checks_iff fun log' => ?_
      rw [lmressetCheckSubscribeRight_iff]
      exact (RightsTables.registered_set hzero htype log').iff

/-- Worker 7 subscribes to a resource. -/
def subscribedLog : List RightsCall := [.res (.acquireSubscribe ⟨1, 1⟩ 7 fun _ => 0)]

/-- The check is right about the resource when worker 7 has subscribed. -/
theorem check_subscribe_right_iff_subscribedLog :
    lmresCreateId .release ⟨1, 1⟩ ≠ 0 ∧ lmressetCreateId .release 1 ≠ 0 ∧
    (lmresCheckSubscribeRight ⟨1, 1⟩ (RightsTables.after .release subscribedLog).res = .success ↔
      ∃ worker, Subscribes (RightsCall.onRes ⟨1, 1⟩) subscribedLog worker) := by
  have hpair : lmresCreateId .release ⟨1, 1⟩ ≠ 0 := by decide +kernel
  have htype : lmressetCreateId .release 1 ≠ 0 := by decide +kernel
  refine ⟨hpair, htype, ?_⟩
  refine (check_subscribe_right_iff hpair htype).1.mpr ⟨by decide, ?_⟩ subscribedLog List.suffix_rfl
  intro call earlier hsuffix
  obtain rfl := List.mem_singleton.mp (hsuffix.subset List.mem_cons_self)
  refine ⟨fun hpublish => ?_, fun worker hleave => ?_⟩
  · simp [RightsCall.onRes] at hpublish
  · simp [RightsCall.onRes] at hleave

/-- A resource that is only published, and a set whose only subscriber has left: nobody has
subscribed, and both checks succeed. -/
theorem checks_succeed_without_subscriber :
    let log : List RightsCall := [.res (.acquirePublish ⟨1, 1⟩ 7), .set (.releaseSubscribe 1 7),
      .set (.acquireSubscribe 1 7 fun _ => 0)]
    let tables := RightsTables.after .release log
    (lmresCheckSubscribeRight ⟨1, 1⟩ tables.res = .success ∧
      ¬∃ worker, Subscribes (RightsCall.onRes ⟨1, 1⟩) log worker) ∧
    (lmressetCheckSubscribeRight 1 tables.set = .success ∧
      ¬∃ worker, Subscribes (RightsCall.onSet 1) log worker) := by
  refine ⟨⟨by decide +kernel, ?_⟩, by decide +kernel, ?_⟩
  · rintro ⟨worker, h⟩
    simp [subscribes_cons_iff, RightsCall.onRes, not_subscribes_nil] at h
  · rintro ⟨worker, h⟩
    simp [subscribes_cons_iff, RightsCall.onSet, not_subscribes_nil] at h

end LMiced
