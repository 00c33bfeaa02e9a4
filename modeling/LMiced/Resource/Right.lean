import LMiced.Lib.Blocks
import LMiced.Lib.Run
import LMiced.Eal.Hash

/-!
# Publish and subscribe rights

The rights table of `resource/resource_right.h`. A resource, a pair of a type and an
object, has at most one publisher and any number of subscribers. Its entry is looked
for in a chain of blocks, and made in the first empty entry when there is none.

* `RightInv` says that the entries of the chain are about different pairs, and that
  an empty entry is about none; every operation preserves it;
* `RightOp.publisher_run`: what an operation does to the publishers;
* `publish_right_of_run`: the right to publish is granted to one worker at a time, in
  every sequence of operations.
-/

namespace LMiced

/-! ## Operations -/

/-- `LMRES_ERR_SUCCESS`, `LMRES_ERR_ALREADY` and `LMRES_ERR_NOTFOUND`. -/
inductive LmresErr
  | success
  | already
  | notFound
deriving DecidableEq, Repr

/-- The value that is returned. -/
def LmresErr.code : LmresErr → Int
  | .success => 0
  | .already => 1
  | .notFound => 2

/-- `lm_res_t`; `sub_size` is the length of `sub_worker`. -/
structure LmRes where
  id : UInt64
  typeId : UInt64
  objectId : UInt64
  pubWorker : UInt64
  subWorker : List UInt64
deriving DecidableEq, Repr

/-- An entry of a cleared block. -/
def LmRes.zero : LmRes := ⟨0, 0, 0, 0, []⟩

/-- A resource: a type and an object. -/
structure ResPair where
  typeId : UInt64
  objectId : UInt64
deriving DecidableEq, Repr

def LmRes.pair (res : LmRes) : ResPair := ⟨res.typeId, res.objectId⟩

/-- The comparison of the entries with the arguments of the operations. -/
def ResPair.isOf (pair : ResPair) (res : LmRes) : Bool :=
  res.objectId = pair.objectId ∧ res.typeId = pair.typeId

/-- The entry is empty. -/
def LmRes.isEmpty (res : LmRes) : Bool := res.id = 0

/-- `lm_res_list_t`, blocks of `LMICE_RESOURCE_RIGHT_LIST_SIZE` entries. -/
abbrev LmResList := BlockTable 84 LmRes

/-- `malloc` and `memset` of a block. -/
def clearedBlock : Fin 84 → LmRes := fun _ => .zero

/-- `lmres_create_id`. -/
def lmresCreateId (build : Build) (pair : ResPair) : UInt64 :=
  ealHash64MoreFnv1a build (bytes64 pair.objectId) (ealHash64Fnv1a build (bytes64 pair.typeId))

/-- The walk of the acquire functions. -/
def ResPair.locate (pair : ResPair) (list : LmResList) : LmResList × Found 84 :=
  BlockTable.locate pair.isOf LmRes.isEmpty clearedBlock list

/-- The walk of the release functions, which do not look for an empty entry. -/
def ResPair.find (pair : ResPair) (list : LmResList) : Found 84 :=
  BlockTable.search pair.isOf (fun _ => false) 0 none list

/-- `lmres_acquire_publish_right`. -/
def lmresAcquirePublishRight (build : Build) (pair : ResPair) (worker : UInt64)
    (list : LmResList) : LmresErr × LmResList :=
  match pair.locate list with
  | (list, .hit pos) =>
    if (list.entry pos).any fun res => res.pubWorker = 0 then
      (.success, list.modify pos fun res => { res with pubWorker := worker })
    else (.already, list)
  | (list, .vacant pos) =>
    (.success, list.modify pos fun empty =>
      { empty with
        id := lmresCreateId build pair
        objectId := pair.objectId
        typeId := pair.typeId
        pubWorker := worker })
  | (list, .full) => (.notFound, list)

/-- `lmres_release_publish_right`. -/
def lmresReleasePublishRight (pair : ResPair) (list : LmResList) : LmresErr × LmResList :=
  match pair.find list with
  | .hit pos => (.success, list.modify pos fun res => { res with pubWorker := 0 })
  | _ => (.notFound, list)

/-- `lmres_add_subscribe_right_list`. `uninit` is what `malloc` leaves in the new places
behind the first of them. -/
def lmresAddSubscribeRightList (uninit : Fin 31 → UInt64) (worker : UInt64)
    (subWorker : List UInt64) : List UInt64 :=
  if worker ∈ subWorker then subWorker
  else if 0 ∈ subWorker then subWorker.set (subWorker.idxOf 0) worker
  else subWorker ++ worker :: List.ofFn uninit

/-- `lmres_del_subscribe_right_list`. -/
def lmresDelSubscribeRightList (worker : UInt64) (subWorker : List UInt64) : List UInt64 :=
  subWorker.set (subWorker.idxOf worker) 0

/-- `lmres_acquire_subscribe_right`. -/
def lmresAcquireSubscribeRight (build : Build) (uninit : Fin 31 → UInt64) (pair : ResPair)
    (worker : UInt64) (list : LmResList) : LmresErr × LmResList :=
  match pair.locate list with
  | (list, .hit pos) =>
    (.success, list.modify pos fun res =>
      { res with subWorker := lmresAddSubscribeRightList uninit worker res.subWorker })
  | (list, .vacant pos) =>
    (.success, list.modify pos fun empty =>
      { empty with
        id := lmresCreateId build pair
        objectId := pair.objectId
        typeId := pair.typeId
        subWorker := lmresAddSubscribeRightList uninit worker empty.subWorker })
  | (list, .full) => (.notFound, list)

/-- `lmres_release_subscribe_right`. -/
def lmresReleaseSubscribeRight (pair : ResPair) (worker : UInt64) (list : LmResList) :
    LmresErr × LmResList :=
  match pair.find list with
  | .hit pos =>
    (.success, list.modify pos fun res =>
      { res with subWorker := lmresDelSubscribeRightList worker res.subWorker })
  | _ => (.notFound, list)

/-- The publisher of a resource, 0 when it has none. -/
def publisher (list : LmResList) (pair : ResPair) : UInt64 :=
  match pair.find list with
  | .hit pos => (list.entry pos).elim 0 LmRes.pubWorker
  | _ => 0

/-- A call of one of the operations. -/
inductive RightOp
  | acquirePublish (pair : ResPair) (worker : UInt64)
  | releasePublish (pair : ResPair)
  | acquireSubscribe (pair : ResPair) (worker : UInt64) (uninit : Fin 31 → UInt64)
  | releaseSubscribe (pair : ResPair) (worker : UInt64)

namespace RightOp

def pair : RightOp → ResPair
  | acquirePublish pair _ => pair
  | releasePublish pair => pair
  | acquireSubscribe pair _ _ => pair
  | releaseSubscribe pair _ => pair

/-- The worker of the call. -/
def worker : RightOp → Option UInt64
  | acquirePublish _ worker => some worker
  | releasePublish _ => none
  | acquireSubscribe _ worker _ => some worker
  | releaseSubscribe _ worker => some worker

def run (build : Build) : RightOp → LmResList → LmresErr × LmResList
  | acquirePublish pair worker => lmresAcquirePublishRight build pair worker
  | releasePublish pair => lmresReleasePublishRight pair
  | acquireSubscribe pair worker uninit => lmresAcquireSubscribeRight build uninit pair worker
  | releaseSubscribe pair worker => lmresReleaseSubscribeRight pair worker

end RightOp

/-- A pair that the operations can be called with: 0 as type and object is what a
cleared entry has, and 0 as id marks an empty entry. -/
structure ResPair.Proper (build : Build) (pair : ResPair) : Prop where
  ne_zero : pair ≠ ⟨0, 0⟩
  id_ne_zero : lmresCreateId build pair ≠ 0

/-- A call with a proper pair and a worker that is not 0. -/
structure RightOp.Proper (build : Build) (op : RightOp) : Prop where
  pair : op.pair.Proper build
  worker : op.worker ≠ some 0

/-! ## The invariant -/

theorem ResPair.isOf_eq_true {pair : ResPair} {res : LmRes} :
    pair.isOf res = true ↔ res.pair = pair := by
  obtain ⟨type, object⟩ := pair
  simp [isOf, LmRes.pair, and_comm]

theorem ResPair.isOf_eq_false {pair : ResPair} {res : LmRes} :
    pair.isOf res = false ↔ res.pair ≠ pair := by
  rw [← Bool.not_eq_true, isOf_eq_true]

/-- The entries are about different pairs, and an empty entry is about none. -/
structure RightInv (list : LmResList) : Prop where
  unique : ∀ pos pos' res res', list.entry pos = some res → list.entry pos' = some res' →
    res.pair = res'.pair → res.pair ≠ ⟨0, 0⟩ → pos = pos'
  empty : ∀ pos res, list.entry pos = some res → res.id = 0 →
    res.pair = ⟨0, 0⟩ ∧ res.pubWorker = 0

theorem RightInv.uniqueKeys {list : LmResList} (hinv : RightInv list) :
    BlockTable.UniqueKeys LmRes.pair .zero list := hinv.unique

/-- Every block is cleared when it is linked. -/
theorem RightInv.append_cleared {list : LmResList} (hinv : RightInv list) :
    RightInv (list ++ [clearedBlock]) := by
  refine ⟨hinv.uniqueKeys.append, fun pos res h hid => ?_⟩
  rcases BlockTable.entry_append_singleton h with ⟨_, h⟩ | ⟨_, rfl⟩
  · exact hinv.empty pos res h hid
  · exact ⟨rfl, rfl⟩

theorem RightInv.init : RightInv [clearedBlock] := by
  have hnil : RightInv [] := by
    constructor <;> simp [BlockTable.entry]
  exact hnil.append_cleared

/-- The walk of the release functions finds the entry of the pair, if there is one. -/
theorem ResPair.find_spec (pair : ResPair) (list : LmResList) :
    (∃ pos res, pair.find list = .hit pos ∧ list.entry pos = some res ∧ res.pair = pair) ∨
      (pair.find list = .full ∧ list.Lacks pair.isOf) := by
  rcases BlockTable.search_cases pair.isOf list with ⟨pos, res, hfind, hres, hhit⟩ | hfull
  · exact Or.inl ⟨pos, res, hfind, hres, isOf_eq_true.mp hhit⟩
  · exact Or.inr hfull

section Publisher

variable {list : LmResList} {pair : ResPair} {pos : BlockPos 84} {res : LmRes}

/-- The publisher is in the entry of the pair. -/
theorem publisher_eq (hinv : RightInv list) (hne : pair ≠ ⟨0, 0⟩)
    (h : list.entry pos = some res) (hpair : res.pair = pair) :
    publisher list pair = res.pubWorker := by
  rcases pair.find_spec list with ⟨pos', res', hfind, h', hpair'⟩ | ⟨_, hlacks⟩
  · obtain rfl := hinv.unique pos pos' res res' h h' (hpair.trans hpair'.symm) (hpair ▸ hne)
    obtain rfl := Option.some.inj (h.symm.trans h')
    simp [publisher, hfind, h]
  · exact absurd hpair (ResPair.isOf_eq_false.mp (hlacks pos res h))

/-- A pair without an entry has no publisher. -/
theorem publisher_eq_zero (hlacks : list.Lacks pair.isOf) : publisher list pair = 0 := by
  rcases pair.find_spec list with ⟨pos, res, _, hres, hpair⟩ | ⟨hfind, _⟩
  · exact absurd hpair (ResPair.isOf_eq_false.mp (hlacks pos res hres))
  · simp [publisher, hfind]

/-- A block more does not change the publishers. -/
theorem publisher_append_cleared (hinv : RightInv list) (hne : pair ≠ ⟨0, 0⟩) :
    publisher (list ++ [clearedBlock]) pair = publisher list pair := by
  rcases pair.find_spec list with ⟨pos, res, _, hres, hpair⟩ | ⟨_, hlacks⟩
  · rw [publisher_eq hinv hne hres hpair]
    exact publisher_eq hinv.append_cleared hne (BlockTable.entry_append_left hres _) hpair
  · rw [publisher_eq_zero hlacks]
    refine publisher_eq_zero fun pos res h => ?_
    rcases BlockTable.entry_append_singleton h with ⟨_, h⟩ | ⟨_, rfl⟩
    · exact hlacks pos res h
    · exact ResPair.isOf_eq_false.mpr hne.symm

end Publisher

/-! ## One write -/

/-- The entry at `pos` can be made the entry of `pair`: it is about the pair already, or
it is about none and there is no other entry of the pair. -/
def RightInv.Writable (list : LmResList) (pair : ResPair) (res : LmRes) : Prop :=
  res.pair = pair ∨ (res.pair = ⟨0, 0⟩ ∧ list.Lacks pair.isOf)

section Write

variable {list : LmResList} {pair : ResPair} {pos : BlockPos 84} {old : LmRes} {f : LmRes → LmRes}

theorem RightInv.Writable.keyed (hold : Writable list pair old) :
    BlockTable.Writable LmRes.pair .zero list pair old := by
  rcases hold with hold | ⟨hzero, hlacks⟩
  · exact Or.inl hold
  · refine Or.inr ⟨hzero, fun pos res h => ?_⟩
    exact decide_eq_false (ResPair.isOf_eq_false.mp (hlacks pos res h))

theorem RightInv.write (hinv : RightInv list) (hne : pair ≠ ⟨0, 0⟩)
    (hpos : list.entry pos = some old) (hold : Writable list pair old)
    (hpair : (f old).pair = pair) (hid : (f old).id ≠ 0) : RightInv (list.modify pos f) := by
  refine ⟨hinv.uniqueKeys.modify hne hpos hold.keyed hpair, fun pos' res h hres => ?_⟩
  rcases BlockTable.entry_modify hpos h with ⟨rfl, rfl⟩ | ⟨_, h⟩
  · exact absurd hres hid
  · exact hinv.empty pos' res h hres

theorem publisher_write (hinv : RightInv list) (hne : pair ≠ ⟨0, 0⟩)
    (hpos : list.entry pos = some old) (hold : RightInv.Writable list pair old)
    (hpair : (f old).pair = pair) (hid : (f old).id ≠ 0) {q : ResPair} (hq : q ≠ ⟨0, 0⟩) :
    publisher (list.modify pos f) q =
      Function.update (publisher list) pair (f old).pubWorker q := by
  have hinv' := hinv.write hne hpos hold hpair hid
  rcases eq_or_ne q pair with rfl | hqp
  · rw [Function.update_self]
    exact publisher_eq hinv' hq (BlockTable.entry_modify_self hpos f) hpair
  · rw [Function.update_of_ne hqp]
    rcases q.find_spec list with ⟨pos', res, _, hres, hresq⟩ | ⟨_, hlacks⟩
    · have hpos' : pos' ≠ pos := by
        rintro rfl
        obtain rfl := Option.some.inj (hres.symm.trans hpos)
        rcases hold with hold | ⟨hzero, _⟩
        · exact hqp (hresq.symm.trans hold)
        · exact hq (hresq.symm.trans hzero)
      rw [publisher_eq hinv hq hres hresq]
      exact publisher_eq hinv' hq ((BlockTable.entry_modify_ne hpos' f).trans hres) hresq
    · rw [publisher_eq_zero hlacks]
      refine publisher_eq_zero fun pos' res h => ?_
      rcases BlockTable.entry_modify hpos h with ⟨rfl, rfl⟩ | ⟨_, h⟩
      · exact ResPair.isOf_eq_false.mpr (hpair.trans_ne hqp.symm)
      · exact hlacks pos' res h

end Write

/-! ## The operations -/

/-- What an operation does to the publishers: an acquired right goes to the worker if
nobody has it, a released one to nobody. -/
def RightOp.grant (op : RightOp) (pub : ResPair → UInt64) : ResPair → UInt64 :=
  match op with
  | acquirePublish pair worker => if pub pair = 0 then Function.update pub pair worker else pub
  | releasePublish pair => Function.update pub pair 0
  | acquireSubscribe _ _ _ => pub
  | releaseSubscribe _ _ => pub

/-- An operation keeps the invariant and does to the publishers what `grant` says. -/
def RightOp.Refines (op : RightOp) (list list' : LmResList) : Prop :=
  RightInv list' ∧ ∀ q, q ≠ ⟨0, 0⟩ → publisher list' q = op.grant (publisher list) q

section Operations

variable {build : Build} {list : LmResList} {pair : ResPair}

/-- What the walk of the acquire functions finds. -/
theorem RightInv.locate_cases (hinv : RightInv list) (hne : pair ≠ ⟨0, 0⟩) :
    (∃ pos res, pair.locate list = (list, .hit pos) ∧ list.entry pos = some res ∧
      res.pair = pair) ∨
    (∃ list' pos res, pair.locate list = (list', .vacant pos) ∧ RightInv list' ∧
      (∀ q, q ≠ ⟨0, 0⟩ → publisher list' q = publisher list q) ∧ list'.Lacks pair.isOf ∧
      list'.entry pos = some res ∧ res.id = 0) := by
  have hcleared : ∀ i, pair.isOf (clearedBlock i) = false :=
    fun _ => ResPair.isOf_eq_false.mpr hne.symm
  have hempty : ∀ i, LmRes.isEmpty (clearedBlock i) = true := fun _ => rfl
  rcases BlockTable.locate_spec hcleared hempty list with
    ⟨pos, res, hloc, hres, hhit⟩ | ⟨list', pos, res, hloc, hgrow, hlacks, hres, hvacant⟩
  · exact Or.inl ⟨pos, res, hloc, hres, ResPair.isOf_eq_true.mp hhit⟩
  · have hid : res.id = 0 := of_decide_eq_true hvacant
    rcases hgrow with rfl | rfl
    · exact Or.inr ⟨list', pos, res, hloc, hinv, fun _ _ => rfl, hlacks, hres, hid⟩
    · exact Or.inr ⟨_, pos, res, hloc, hinv.append_cleared,
        fun _ hq => publisher_append_cleared hinv hq, hlacks, hres, hid⟩

/-- An entry of a pair is not empty. -/
theorem RightInv.id_ne_zero (hinv : RightInv list) (hne : pair ≠ ⟨0, 0⟩) {pos : BlockPos 84}
    {res : LmRes} (hres : list.entry pos = some res) (hpair : res.pair = pair) : res.id ≠ 0 := by
  intro hid
  exact hne (hpair.symm.trans (hinv.empty pos res hres hid).1)

/-- A write to the entry of a pair. -/
theorem RightInv.rewrite {pos : BlockPos 84} {res : LmRes} {f : LmRes → LmRes}
    (hinv : RightInv list) (hne : pair ≠ ⟨0, 0⟩) (hres : list.entry pos = some res)
    (hpair : res.pair = pair) (hpair' : (f res).pair = res.pair) (hid : (f res).id = res.id) :
    RightInv (list.modify pos f) ∧ ∀ q, q ≠ ⟨0, 0⟩ →
      publisher (list.modify pos f) q =
        Function.update (publisher list) pair (f res).pubWorker q := by
  have hid' : (f res).id ≠ 0 := hid.trans_ne (hinv.id_ne_zero hne hres hpair)
  have hwritable : Writable list pair res := Or.inl hpair
  exact ⟨hinv.write hne hres hwritable (hpair'.trans hpair) hid',
    fun q hq => publisher_write hinv hne hres hwritable (hpair'.trans hpair) hid' hq⟩

/-- A new entry for a pair, in a list that has been extended at most. -/
theorem RightInv.create {list' : LmResList} {pos : BlockPos 84} {old : LmRes} {f : LmRes → LmRes}
    (hinv' : RightInv list') (hne : pair ≠ ⟨0, 0⟩)
    (hpub : ∀ q, q ≠ ⟨0, 0⟩ → publisher list' q = publisher list q)
    (hlacks : list'.Lacks pair.isOf) (hold : list'.entry pos = some old) (hid : old.id = 0)
    (hpair : (f old).pair = pair) (hid' : (f old).id ≠ 0) :
    RightInv (list'.modify pos f) ∧ ∀ q, q ≠ ⟨0, 0⟩ →
      publisher (list'.modify pos f) q =
        Function.update (publisher list) pair (f old).pubWorker q := by
  have hwritable : Writable list' pair old := Or.inr ⟨(hinv'.empty pos old hold hid).1, hlacks⟩
  refine ⟨hinv'.write hne hold hwritable hpair hid', fun q hq => ?_⟩
  rw [publisher_write hinv' hne hold hwritable hpair hid' hq]
  rcases eq_or_ne q pair with rfl | hqp
  · simp
  · rw [Function.update_of_ne hqp, Function.update_of_ne hqp, hpub q hq]

theorem acquirePublish_spec (hinv : RightInv list) (hpair : pair.Proper build) (worker : UInt64) :
    (lmresAcquirePublishRight build pair worker list).1 =
        (if publisher list pair = 0 then .success else .already) ∧
      (RightOp.acquirePublish pair worker).Refines list
        (lmresAcquirePublishRight build pair worker list).2 := by
  have hne := hpair.ne_zero
  unfold lmresAcquirePublishRight RightOp.Refines
  rcases hinv.locate_cases hne with
    ⟨pos, res, hloc, hres, hresp⟩ | ⟨list', pos, res, hloc, hinv', hpub, hlacks, hres, hid⟩
  · have hheld := publisher_eq hinv hne hres hresp
    by_cases hfree : res.pubWorker = 0
    · simp only [hloc, hres, hheld, hfree, RightOp.grant, Option.any_some, decide_true, if_true,
        true_and]
      exact hinv.rewrite hne hres hresp rfl rfl
    · simp only [hloc, hres, hheld, hfree, RightOp.grant, Option.any_some, decide_false,
        Bool.false_eq_true, if_false, true_and]
      exact ⟨hinv, fun _ _ => trivial⟩
  · have hfree : publisher list pair = 0 := by rw [← hpub pair hne, publisher_eq_zero hlacks]
    simp only [hloc, hfree, RightOp.grant, if_true, true_and]
    exact hinv'.create hne hpub hlacks hres hid rfl hpair.id_ne_zero

theorem releasePublish_spec (hinv : RightInv list) (hne : pair ≠ ⟨0, 0⟩) :
    (RightOp.releasePublish pair).Refines list (lmresReleasePublishRight pair list).2 := by
  unfold lmresReleasePublishRight RightOp.Refines
  rcases pair.find_spec list with ⟨pos, res, hfind, hres, hresp⟩ | ⟨hfind, hlacks⟩
  · simp only [hfind, RightOp.grant]
    exact hinv.rewrite hne hres hresp rfl rfl
  · simp only [hfind, RightOp.grant]
    refine ⟨hinv, fun q _ => ?_⟩
    rw [← publisher_eq_zero hlacks, Function.update_eq_self]

theorem acquireSubscribe_spec (hinv : RightInv list) (hpair : pair.Proper build) (worker : UInt64)
    (uninit : Fin 31 → UInt64) :
    (RightOp.acquireSubscribe pair worker uninit).Refines list
      (lmresAcquireSubscribeRight build uninit pair worker list).2 := by
  have hne := hpair.ne_zero
  unfold lmresAcquireSubscribeRight RightOp.Refines
  rcases hinv.locate_cases hne with
    ⟨pos, res, hloc, hres, hresp⟩ | ⟨list', pos, res, hloc, hinv', hpub, hlacks, hres, hid⟩
  · simp only [hloc, RightOp.grant]
    rw [← Function.update_eq_self pair (publisher list), publisher_eq hinv hne hres hresp]
    exact hinv.rewrite hne hres hresp rfl rfl
  · have hfree : publisher list pair = res.pubWorker := by
      rw [← hpub pair hne, publisher_eq_zero hlacks, (hinv'.empty pos res hres hid).2]
    simp only [hloc, RightOp.grant]
    rw [← Function.update_eq_self pair (publisher list), hfree]
    exact hinv'.create hne hpub hlacks hres hid rfl hpair.id_ne_zero

theorem releaseSubscribe_spec (hinv : RightInv list) (hne : pair ≠ ⟨0, 0⟩) (worker : UInt64) :
    (RightOp.releaseSubscribe pair worker).Refines list
      (lmresReleaseSubscribeRight pair worker list).2 := by
  unfold lmresReleaseSubscribeRight RightOp.Refines
  rcases pair.find_spec list with ⟨pos, res, hfind, hres, hresp⟩ | ⟨hfind, _⟩
  · simp only [hfind, RightOp.grant]
    rw [← Function.update_eq_self pair (publisher list), publisher_eq hinv hne hres hresp]
    exact hinv.rewrite hne hres hresp rfl rfl
  · simp only [hfind, RightOp.grant]
    exact ⟨hinv, fun _ _ => trivial⟩

/-- Every operation refines what it does to the publishers. -/
theorem RightOp.run_refines (hinv : RightInv list) {op : RightOp} (hop : op.Proper build) :
    op.Refines list (op.run build list).2 := by
  cases op with
  | acquirePublish pair worker => exact (acquirePublish_spec hinv hop.pair worker).2
  | releasePublish pair => exact releasePublish_spec hinv hop.pair.ne_zero
  | acquireSubscribe pair worker uninit =>
    exact acquireSubscribe_spec hinv hop.pair worker uninit
  | releaseSubscribe pair worker => exact releaseSubscribe_spec hinv hop.pair.ne_zero worker

end Operations

/-! ## Sequences of operations -/

/-- The list, and the operations so far with what they returned, the latest first. -/
structure RightState where
  list : LmResList
  log : List (RightOp × LmresErr)

/-- One cleared block. -/
def RightState.init : RightState := ⟨[clearedBlock], []⟩

def RightOp.step (build : Build) (op : RightOp) (s : RightState) : Option RightState :=
  let result := op.run build s.list
  some ⟨result.2, (op, result.1) :: s.log⟩

/-- Some acquire of the pair has succeeded since the last release of the pair. -/
def Granted (pair : ResPair) : List (RightOp × LmresErr) → Prop :=
  Run.Since (fun entry => ∃ worker, entry = (.acquirePublish pair worker, .success))
    (fun entry => entry.1 = .releasePublish pair)

/-- The list is in order, and a pair has a publisher when the right is granted. -/
structure RightState.Inv (s : RightState) : Prop where
  list : RightInv s.list
  granted : ∀ q, q ≠ ⟨0, 0⟩ → (publisher s.list q ≠ 0 ↔ Granted q s.log)

namespace RightState

variable {build : Build} {s s' : RightState}

theorem inv_init : init.Inv := by
  refine ⟨.init, fun q hq => ?_⟩
  have hzero : publisher [clearedBlock] q = 0 := by
    refine publisher_eq_zero fun pos res h => ?_
    have hcleared : res = .zero := by
      obtain ⟨block, hblock, rfl⟩ := Option.map_eq_some_iff.mp h
      have hmem := List.mem_singleton.mp (List.mem_of_getElem? hblock)
      rw [hmem]
      rfl
    rw [hcleared]
    exact ResPair.isOf_eq_false.mpr hq.symm
  simp [hzero, Granted, init, Run.not_since_nil]

theorem Inv.step (hs : s.Inv) {op : RightOp} (hop : op.Proper build)
    (h : op.step build s = some s') : s'.Inv := by
  obtain rfl := Option.some.inj h
  obtain ⟨hinv, hpub⟩ := op.run_refines hs.list hop
  refine ⟨hinv, fun q hq => ?_⟩
  dsimp only
  rw [hpub q hq, Granted, Run.since_cons_iff, ← Granted, ← hs.granted q hq]
  cases op with
  | acquirePublish pair worker =>
    have hproper : pair.Proper build := hop.pair
    have hret := (acquirePublish_spec hs.list hproper worker).1
    have hworker : worker ≠ 0 := fun h => hop.worker (congrArg some h)
    rw [RightOp.run, hret]
    by_cases hfree : publisher s.list pair = 0
    · rcases eq_or_ne q pair with rfl | hne
      · simp [RightOp.grant, hfree, hworker]
      · simp [RightOp.grant, hfree, hne, hne.symm]
    · simp [RightOp.grant, hfree]
  | releasePublish pair =>
    rcases eq_or_ne q pair with rfl | hne
    · simp [RightOp.grant]
    · simp [RightOp.grant, hne, hne.symm]
  | acquireSubscribe pair worker uninit => simp [RightOp.grant]
  | releaseSubscribe pair worker => simp [RightOp.grant]

end RightState

/-- In every sequence of operations on a list, a pair has at most one entry; the right to
publish is granted if and only if it has not been granted since its last release, and
otherwise its holder keeps it; and the publisher of a pair is changed by operations
on that pair only. -/
theorem publish_right_of_run {build : Build} {s : RightState}
    (h : Run.Reachable (RightOp.step build) (fun op _ => op.Proper build) .init s) :
    (∀ pos pos' res res', s.list.entry pos = some res → s.list.entry pos' = some res' →
      res.pair = res'.pair → res.pair ≠ ⟨0, 0⟩ → pos = pos') ∧
    (∀ pair worker, pair.Proper build → worker ≠ 0 →
      let result := lmresAcquirePublishRight build pair worker s.list
      (result.1 = .success ↔ ¬ Granted pair s.log) ∧
      (¬ Granted pair s.log → publisher result.2 pair = worker) ∧
      (Granted pair s.log →
        result.1 = .already ∧ publisher result.2 pair = publisher s.list pair)) ∧
    (∀ (op : RightOp) (pair : ResPair), op.Proper build → pair.Proper build → op.pair ≠ pair →
      publisher (op.run build s.list).2 pair = publisher s.list pair) := by
  have hs : s.Inv := h.invariant (fun _ _ _ hop hstep hs => hs.step hop hstep) RightState.inv_init
  refine ⟨hs.list.unique, fun pair worker hpair hworker => ?_, fun op pair hop hpair hne => ?_⟩
  · obtain ⟨hret, _, hpub⟩ := acquirePublish_spec hs.list hpair worker
    have hgranted := hs.granted pair hpair.ne_zero
    have hafter := hpub pair hpair.ne_zero
    rw [← hgranted]
    dsimp only
    rw [hret, hafter]
    by_cases hfree : publisher s.list pair = 0
    · simp [RightOp.grant, hfree]
    · simp [RightOp.grant, hfree]
  · rw [(op.run_refines hs.list hop).2 pair hpair.ne_zero]
    cases op with
    | acquirePublish pair' worker =>
      have hne' : pair ≠ pair' := Ne.symm hne
      simp only [RightOp.grant]
      split
      · rw [Function.update_of_ne hne']
      · rfl
    | releasePublish pair' => exact Function.update_of_ne (Ne.symm hne) _ _
    | acquireSubscribe pair' worker uninit => rfl
    | releaseSubscribe pair' worker => rfl

/-- The state when worker 1 has acquired a right. -/
def RightState.acquired : RightState :=
  let result := lmresAcquirePublishRight .release ⟨1, 1⟩ 1 RightState.init.list
  ⟨result.2, [(.acquirePublish ⟨1, 1⟩ 1, result.1)]⟩

/-- Worker 2 does not get the right that worker 1 has. -/
theorem publish_right_of_run_acquired :
    Granted ⟨1, 1⟩ RightState.acquired.log ∧
      (lmresAcquirePublishRight .release ⟨1, 1⟩ 2 RightState.acquired.list).1 = .already := by
  have hproper : ResPair.Proper .release ⟨1, 1⟩ := ⟨by decide, by decide +kernel⟩
  have hreach : Run.Reachable (RightOp.step .release) (fun op _ => op.Proper .release) .init
      RightState.acquired :=
    Relation.ReflTransGen.single ⟨.acquirePublish ⟨1, 1⟩ 1, ⟨hproper, by decide⟩, rfl⟩
  have hgranted : Granted ⟨1, 1⟩ RightState.acquired.log :=
    Run.since_cons_iff.mpr (Or.inl ⟨1, congrArg (Prod.mk _) (by decide +kernel)⟩)
  exact ⟨hgranted, (((publish_right_of_run hreach).2.1 ⟨1, 1⟩ 2 hproper (by decide)).2.2
    hgranted).1⟩

end LMiced
