import LMiced.Resource.Right

/-!
# Resource sets

The second table of `resource/resource_right.h`. A resource set is a type with the workers
that subscribe to all its objects, and with these objects. The table is searched and grows
as that of the rights does: an entry is found by its type, and is empty when its id is 0.
The id is a hash of the type, and a cleared entry has type 0, so the two tests do not
always tell the entries of a type from empty ones.

* `RessetInv`: there is one entry for a type, and the entries of type 0 are cleared ones;
* `RessetOp.run_refines`: a safe operation is about the entry of its type only;
* `resset_entries_of_run`: this holds in every sequence of safe operations.
-/

namespace LMiced

/-! ## Operations -/

/-- `lm_resset_t`; `sub_size` and `obj_size` are the lengths of the lists. -/
structure LmResset where
  id : UInt64
  typeId : UInt64
  subWorker : List UInt64
  objectId : List UInt64
deriving DecidableEq, Repr

/-- An entry of a cleared block. -/
def LmResset.zero : LmResset := ⟨0, 0, [], []⟩

/-- The entry is empty. -/
def LmResset.isEmpty (res : LmResset) : Bool := res.id = 0

/-- `lm_resset_list_t`, blocks of `LMICE_RESOURCESET_RIGHT_LIST_SIZE` entries. -/
abbrev LmRessetList := BlockTable 72 LmResset

/-- `malloc` and `memset` of a block. -/
def clearedSetBlock : Fin 72 → LmResset := fun _ => .zero

/-- `lmresset_create_id`. -/
def lmressetCreateId (build : Build) (typeId : UInt64) : UInt64 :=
  ealHash64Fnv1a build (bytes64 typeId)

/-- `lmresset_acquire_subscribe_right`. -/
def lmressetAcquireSubscribeRight (build : Build) (uninit : Fin 31 → UInt64) (typeId : UInt64)
    (worker : UInt64) (list : LmRessetList) : LmresErr × LmRessetList :=
  match BlockTable.locate (fun res => res.typeId = typeId) LmResset.isEmpty clearedSetBlock
    list with
  | (list, .hit pos) =>
    (.success, list.modify pos fun res =>
      { res with subWorker := lmresAddSubscribeRightList uninit worker res.subWorker })
  | (list, .vacant pos) =>
    (.success, list.modify pos fun empty =>
      { empty with
        id := lmressetCreateId build typeId
        typeId := typeId
        subWorker := lmresAddSubscribeRightList uninit worker empty.subWorker })
  | (list, .full) => (.notFound, list)

/-- The walk of the functions that do not look for an empty entry. -/
def ressetFind (typeId : UInt64) (list : LmRessetList) : Found 72 :=
  BlockTable.search (fun res => res.typeId = typeId) (fun _ => false) 0 none list

/-- `lmresset_release_subscribe_right`. -/
def lmressetReleaseSubscribeRight (typeId worker : UInt64) (list : LmRessetList) :
    LmresErr × LmRessetList :=
  match ressetFind typeId list with
  | .hit pos =>
    (.success, list.modify pos fun res =>
      { res with subWorker := lmresDelSubscribeRightList worker res.subWorker })
  | _ => (.notFound, list)

/-- `lmresset_check_subscribe_right`. -/
def lmressetCheckSubscribeRight (typeId : UInt64) (list : LmRessetList) : LmresErr :=
  match ressetFind typeId list with
  | .hit _ => .success
  | _ => .notFound

/-- `lmresset_add_object`. `uninit` is what `malloc` leaves in the new places behind the
first of them. -/
def lmressetAddObject (uninit : Fin 31 → UInt64) (objectId : UInt64) (objects : List UInt64) :
    LmresErr × List UInt64 :=
  if objectId ∈ objects then (.already, objects)
  else if 0 ∈ objects then (.success, objects.set (objects.idxOf 0) objectId)
  else (.success, objects ++ objectId :: List.ofFn uninit)

/-- `lmresset_add_subscribe_object`. -/
def lmressetAddSubscribeObject (uninit : Fin 31 → UInt64) (typeId objectId : UInt64)
    (list : LmRessetList) : LmresErr × LmRessetList :=
  match ressetFind typeId list with
  | .hit pos =>
    let ret := ((list.entry pos).map fun res =>
      (lmressetAddObject uninit objectId res.objectId).1).getD .notFound
    (ret, list.modify pos fun res =>
      { res with objectId := (lmressetAddObject uninit objectId res.objectId).2 })
  | _ => (.notFound, list)

/-- A call of one of the operations. -/
inductive RessetOp
  | acquireSubscribe (typeId worker : UInt64) (uninit : Fin 31 → UInt64)
  | releaseSubscribe (typeId worker : UInt64)
  | addSubscribeObject (typeId objectId : UInt64) (uninit : Fin 31 → UInt64)

namespace RessetOp

def typeId : RessetOp → UInt64
  | acquireSubscribe typeId _ _ => typeId
  | releaseSubscribe typeId _ => typeId
  | addSubscribeObject typeId _ _ => typeId

def run (build : Build) : RessetOp → LmRessetList → LmresErr × LmRessetList
  | acquireSubscribe typeId worker uninit =>
    lmressetAcquireSubscribeRight build uninit typeId worker
  | releaseSubscribe typeId worker => lmressetReleaseSubscribeRight typeId worker
  | addSubscribeObject typeId objectId uninit =>
    lmressetAddSubscribeObject uninit typeId objectId

/-- A call that cannot take an empty entry for that of its type, nor leave an entry in use
that looks empty. -/
def Safe (build : Build) : RessetOp → Prop
  | acquireSubscribe typeId _ _ => typeId ≠ 0 ∧ lmressetCreateId build typeId ≠ 0
  | releaseSubscribe _ _ => True
  | addSubscribeObject typeId _ _ => typeId ≠ 0

end RessetOp

/-- The entry of a type, a cleared one when it has none. -/
def ressetOf (list : LmRessetList) (typeId : UInt64) : LmResset :=
  BlockTable.lookup LmResset.typeId .zero list typeId

/-- The type has an entry. -/
def HasEntry (list : LmRessetList) (typeId : UInt64) : Prop :=
  ∃ pos res, list.entry pos = some res ∧ res.typeId = typeId

/-! ## The invariant -/

/-- A type has one entry at most, which is not empty, and the entries of type 0 are cleared
ones. -/
structure RessetInv (list : LmRessetList) : Prop where
  keyed : BlockTable.Keyed LmResset.typeId .zero list
  filled : ∀ pos res, list.entry pos = some res → res.typeId ≠ 0 → res.id ≠ 0

section Invariant

variable {build : Build} {list : LmRessetList} {typeId : UInt64} {pos : BlockPos 72}
  {old : LmResset} {f : LmResset → LmResset}

theorem RessetInv.append (h : RessetInv list) : RessetInv (list ++ [clearedSetBlock]) := by
  refine ⟨h.keyed.append, fun pos res hres hne => ?_⟩
  rcases BlockTable.entry_append_singleton hres with ⟨_, hres⟩ | ⟨_, rfl⟩
  · exact h.filled pos res hres hne
  · exact absurd rfl hne

theorem RessetInv.init : RessetInv [clearedSetBlock] := by
  have hnil : RessetInv [] := ⟨BlockTable.Keyed.nil, by simp [BlockTable.entry]⟩
  exact hnil.append

/-- An empty entry is a cleared one. -/
theorem RessetInv.eq_zero (h : RessetInv list) (hpos : list.entry pos = some old)
    (hid : old.id = 0) : old = .zero := by
  have htype : old.typeId = 0 := by
    by_contra hne
    exact h.filled pos old hpos hne hid
  exact h.keyed.eq_dflt pos old hpos htype

theorem hasEntry_iff (h : RessetInv list) (hne : typeId ≠ 0) :
    HasEntry list typeId ↔ (ressetOf list typeId).typeId = typeId := by
  constructor
  · rintro ⟨pos, res, hres, rfl⟩
    exact congrArg LmResset.typeId (h.keyed.lookup_eq hres rfl)
  · intro hof
    rcases BlockTable.search_cases (fun res => decide (res.typeId = typeId)) list with
      ⟨pos, res, _, hres, hhit⟩ | ⟨_, hlacks⟩
    · exact ⟨pos, res, hres, of_decide_eq_true hhit⟩
    · rw [ressetOf, BlockTable.lookup_of_lacks hlacks] at hof
      exact absurd hof.symm hne

/-- What a safe operation on a type does: the invariant stays, the entries of the other
types stay as they are, and an entry of the type stays. -/
structure RessetRefines (typeId : UInt64) (list list' : LmRessetList) : Prop where
  inv : RessetInv list'
  frame : ∀ t, t ≠ typeId → ressetOf list' t = ressetOf list t
  keep : HasEntry list typeId → HasEntry list' typeId

theorem RessetRefines.refl (h : RessetInv list) : RessetRefines typeId list list :=
  ⟨h, fun _ _ => rfl, id⟩

/-- A write to the entry of a type, or to a cleared entry that becomes the one of the type. -/
theorem RessetRefines.write (h : RessetInv list) (hne : typeId ≠ 0)
    (hpos : list.entry pos = some old)
    (hold : BlockTable.Writable LmResset.typeId .zero list typeId old)
    (htype : (f old).typeId = typeId) (hid : (f old).id ≠ 0) :
    RessetRefines typeId list (list.modify pos f) := by
  refine ⟨⟨h.keyed.modify hne hpos hold htype, fun pos' res hres hne' => ?_⟩, fun t ht => ?_,
    fun _ => ⟨pos, f old, BlockTable.entry_modify_self hpos f, htype⟩⟩
  · rcases BlockTable.entry_modify hpos hres with ⟨_, rfl⟩ | ⟨_, hres⟩
    · exact hid
    · exact h.filled pos' res hres hne'
  · rw [ressetOf, h.keyed.lookup_modify hne hpos hold htype, Function.update_of_ne ht]
    rfl

/-- A write to the entry of a type that leaves its type and its id. -/
theorem RessetRefines.rewrite (h : RessetInv list) (hne : typeId ≠ 0)
    (hpos : list.entry pos = some old) (hold : old.typeId = typeId)
    (htype : (f old).typeId = old.typeId) (hid : (f old).id = old.id) :
    RessetRefines typeId list (list.modify pos f) := by
  have hid' : (f old).id ≠ 0 := hid.trans_ne (h.filled pos old hpos (hold ▸ hne))
  exact .write h hne hpos (Or.inl hold) (htype.trans hold) hid'

end Invariant

/-! ## One operation -/

section Operations

variable {build : Build} {list : LmRessetList} {typeId : UInt64}

theorem ressetFind_cases (typeId : UInt64) (list : LmRessetList) :
    (∃ pos res, ressetFind typeId list = .hit pos ∧ list.entry pos = some res ∧
      res.typeId = typeId) ∨
    (ressetFind typeId list = .full ∧ ¬ HasEntry list typeId) := by
  rcases BlockTable.search_cases (fun res : LmResset => decide (res.typeId = typeId)) list with
    ⟨pos, res, hfind, hres, hhit⟩ | ⟨hfind, hlacks⟩
  · exact Or.inl ⟨pos, res, hfind, hres, of_decide_eq_true hhit⟩
  · refine Or.inr ⟨hfind, ?_⟩
    rintro ⟨pos, res, hres, htype⟩
    exact of_decide_eq_false (hlacks pos res hres) htype

/-- An acquired type has its entry. -/
theorem acquireSubscribe_refines (h : RessetInv list) (hne : typeId ≠ 0)
    (hid : lmressetCreateId build typeId ≠ 0) (worker : UInt64) (uninit : Fin 31 → UInt64) :
    let list' := (lmressetAcquireSubscribeRight build uninit typeId worker list).2
    RessetRefines typeId list list' ∧ HasEntry list' typeId := by
  have hcleared : ∀ i, decide ((clearedSetBlock i).typeId = typeId) = false :=
    fun _ => decide_eq_false hne.symm
  have hempty : ∀ i, LmResset.isEmpty (clearedSetBlock i) = true := fun _ => rfl
  unfold lmressetAcquireSubscribeRight
  rcases @BlockTable.locate_spec 72 LmResset _ (fun res => res.typeId = typeId) _ _ hcleared
    hempty list with
    ⟨pos, res, hloc, hres, hhit⟩ | ⟨list', pos, res, hloc, hgrow, hlacks, hres, hvacant⟩
  · have htype : res.typeId = typeId := of_decide_eq_true hhit
    simp only [hloc]
    refine ⟨.rewrite h hne hres htype rfl rfl, pos, _, BlockTable.entry_modify_self hres _, htype⟩
  · -- The table may have grown; this changes nothing.
    have hgrown : RessetRefines typeId list list' := by
      rcases hgrow with rfl | rfl
      · exact .refl h
      · refine ⟨h.append, fun t _ => h.keyed.lookup_append t, ?_⟩
        rintro ⟨pos', res', hres', htype⟩
        exact ⟨pos', res', BlockTable.entry_append_left hres' _, htype⟩
    have hzero := hgrown.inv.eq_zero hres (of_decide_eq_true hvacant)
    have hwrite : RessetRefines typeId list' (list'.modify pos fun empty =>
        { empty with
          id := lmressetCreateId build typeId
          typeId := typeId
          subWorker := lmresAddSubscribeRightList uninit worker empty.subWorker }) :=
      .write hgrown.inv hne hres (Or.inr ⟨congrArg LmResset.typeId hzero, hlacks⟩) rfl hid
    simp only [hloc]
    exact ⟨⟨hwrite.inv, fun t ht => (hwrite.frame t ht).trans (hgrown.frame t ht),
        fun hhas => hwrite.keep (hgrown.keep hhas)⟩,
      pos, _, BlockTable.entry_modify_self hres _, rfl⟩

theorem releaseSubscribe_refines (h : RessetInv list) (typeId worker : UInt64) :
    RessetRefines typeId list (lmressetReleaseSubscribeRight typeId worker list).2 := by
  unfold lmressetReleaseSubscribeRight
  rcases ressetFind_cases typeId list with ⟨pos, res, hfind, hres, htype⟩ | ⟨hfind, _⟩
  · simp only [hfind]
    rcases eq_or_ne typeId 0 with rfl | hne
    · -- A cleared entry has no subscriber to remove.
      obtain rfl := h.keyed.eq_dflt pos res hres htype
      rw [(BlockTable.modify_eq_self_iff hres).mpr rfl]
      exact .refl h
    · exact .rewrite h hne hres htype rfl rfl
  · simp only [hfind]
    exact .refl h

theorem addSubscribeObject_refines (h : RessetInv list) (hne : typeId ≠ 0) (objectId : UInt64)
    (uninit : Fin 31 → UInt64) :
    RessetRefines typeId list (lmressetAddSubscribeObject uninit typeId objectId list).2 := by
  unfold lmressetAddSubscribeObject
  rcases ressetFind_cases typeId list with ⟨pos, res, hfind, hres, htype⟩ | ⟨hfind, _⟩
  · simp only [hfind]
    exact .rewrite h hne hres htype rfl rfl
  · simp only [hfind]
    exact .refl h

/-- A safe operation is about the entry of its type only. -/
theorem RessetOp.run_refines (h : RessetInv list) {op : RessetOp} (hop : op.Safe build) :
    RessetRefines op.typeId list (op.run build list).2 := by
  cases op with
  | acquireSubscribe typeId worker uninit =>
    exact (acquireSubscribe_refines h hop.1 hop.2 worker uninit).1
  | releaseSubscribe typeId worker => exact releaseSubscribe_refines h typeId worker
  | addSubscribeObject typeId objectId uninit =>
    exact addSubscribeObject_refines h hop objectId uninit

end Operations

/-! ## Sequences of operations -/

/-- The list, and the operations so far, the latest first. -/
structure RessetState where
  list : LmRessetList
  log : List RessetOp

/-- One cleared block. -/
def RessetState.init : RessetState := ⟨[clearedSetBlock], []⟩

def RessetOp.step (build : Build) (op : RessetOp) (s : RessetState) : Option RessetState :=
  some ⟨(op.run build s.list).2, op :: s.log⟩

/-- Some worker has acquired the right to subscribe to the type. -/
def RessetState.Acquired (s : RessetState) (typeId : UInt64) : Prop :=
  ∃ worker uninit, .acquireSubscribe typeId worker uninit ∈ s.log

/-- The list is in order, and the acquired types have entries. -/
structure RessetState.Inv (s : RessetState) : Prop where
  list : RessetInv s.list
  ne_zero : ∀ t, s.Acquired t → t ≠ 0
  hasEntry : ∀ t, s.Acquired t → HasEntry s.list t

namespace RessetState

variable {build : Build} {s s' : RessetState}

theorem inv_init : init.Inv := by
  refine ⟨.init, ?_, ?_⟩
  · rintro t ⟨_, _, hmem⟩
    cases hmem
  · rintro t ⟨_, _, hmem⟩
    cases hmem

theorem Inv.step (hs : s.Inv) {op : RessetOp} (hop : op.Safe build)
    (h : op.step build s = some s') : s'.Inv := by
  obtain rfl := Option.some.inj h
  have href := op.run_refines hs.list hop
  have hnew : ∀ t, Acquired ⟨(op.run build s.list).2, op :: s.log⟩ t →
      (t ≠ 0 ∧ HasEntry (op.run build s.list).2 t) ∨ s.Acquired t := by
    rintro t ⟨worker, uninit, hmem⟩
    rcases List.mem_cons.mp hmem with rfl | hmem
    · exact Or.inl ⟨hop.1, (acquireSubscribe_refines hs.list hop.1 hop.2 worker uninit).2⟩
    · exact Or.inr ⟨worker, uninit, hmem⟩
  refine ⟨href.inv, fun t ht => ?_, fun t ht => ?_⟩
  · rcases hnew t ht with ⟨hne, _⟩ | hold
    · exact hne
    · exact hs.ne_zero t hold
  · rcases hnew t ht with ⟨_, hhas⟩ | hold
    · exact hhas
    · have hhas := hs.hasEntry t hold
      rcases eq_or_ne t op.typeId with rfl | hne
      · exact href.keep hhas
      · have ht0 := hs.ne_zero t hold
        rw [hasEntry_iff href.inv ht0, href.frame t hne]
        exact (hasEntry_iff hs.list ht0).mp hhas

end RessetState

/-- In every sequence of safe operations, each acquired type has just one entry, and a safe
operation on a type changes neither the subscribers nor the objects of another one. -/
theorem resset_entries_of_run {build : Build} {s : RessetState}
    (h : Run.Reachable (RessetOp.step build) (fun op _ => op.Safe build) .init s) :
    (∀ t, s.Acquired t → ∃! pos, ∃ res, s.list.entry pos = some res ∧ res.typeId = t) ∧
    ∀ op : RessetOp, op.Safe build → ∀ t, t ≠ op.typeId →
      (ressetOf (op.run build s.list).2 t).subWorker = (ressetOf s.list t).subWorker ∧
      (ressetOf (op.run build s.list).2 t).objectId = (ressetOf s.list t).objectId := by
  have hs : s.Inv := h.invariant (fun _ _ _ hop hstep hs => hs.step hop hstep) RessetState.inv_init
  refine ⟨fun t ht => ?_, fun op hop t hne => ?_⟩
  · obtain ⟨pos, res, hres, htype⟩ := hs.hasEntry t ht
    refine ⟨pos, ⟨res, hres, htype⟩, ?_⟩
    rintro pos' ⟨res', hres', htype'⟩
    have ht0 : res'.typeId ≠ 0 := htype' ▸ hs.ne_zero t ht
    exact hs.list.keyed.unique pos' pos res' res hres' hres (htype'.trans htype.symm) ht0
  · rw [(op.run_refines hs.list hop).frame t hne]
    exact ⟨rfl, rfl⟩

/-- The state when worker 1 has acquired the right to subscribe to type 5. -/
def RessetState.acquired : RessetState :=
  let result := lmressetAcquireSubscribeRight .release (fun _ => 0) 5 1 RessetState.init.list
  ⟨result.2, [.acquireSubscribe 5 1 fun _ => 0]⟩

/-- Type 5 has its entry, and an acquire of type 6 leaves its subscribers. -/
theorem resset_entries_of_run_acquired :
    (∃! pos, ∃ res, RessetState.acquired.list.entry pos = some res ∧ res.typeId = 5) ∧
    (ressetOf (lmressetAcquireSubscribeRight .release (fun _ => 0) 6 2
      RessetState.acquired.list).2 5).subWorker =
        (ressetOf RessetState.acquired.list 5).subWorker := by
  have hsafe5 : RessetOp.Safe .release (.acquireSubscribe 5 1 fun _ => 0) :=
    ⟨by decide, by decide +kernel⟩
  have hsafe6 : RessetOp.Safe .release (.acquireSubscribe 6 2 fun _ => 0) :=
    ⟨by decide, by decide +kernel⟩
  have hreach : Run.Reachable (RessetOp.step .release) (fun op _ => op.Safe .release) .init
      RessetState.acquired :=
    Relation.ReflTransGen.single ⟨.acquireSubscribe 5 1 fun _ => 0, hsafe5, rfl⟩
  obtain ⟨hentry, hframe⟩ := resset_entries_of_run hreach
  exact ⟨hentry 5 ⟨1, _, List.mem_singleton_self _⟩, (hframe _ hsafe6 5 (by decide)).1⟩

/-- Worker 1 subscribes to type 0, then worker 2 to type 5: worker 1 is now recorded as a
subscriber of type 5. -/
theorem type_zero_subscriber_moves :
    let first := lmressetAcquireSubscribeRight .release (fun _ => 0) 0 1 [clearedSetBlock]
    let second := lmressetAcquireSubscribeRight .release (fun _ => 0) 5 2 first.2
    1 ∈ (ressetOf first.2 0).subWorker ∧ 1 ∉ (ressetOf first.2 5).subWorker ∧
      1 ∈ (ressetOf second.2 5).subWorker ∧ 1 ∉ (ressetOf second.2 0).subWorker := by
  decide +kernel

end LMiced
