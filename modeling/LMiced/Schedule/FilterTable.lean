import LMiced.Eal.Hash
import LMiced.Schedule.Filter

/-!
# Adding and removing task filters

`lmflt_append_task_filter` and `lmflt_remove_task_filter` of `schedule/task_filter.h`. The
filters of a direction, mode and level stand in a chain of chunks of 63. A new filter is
put into the first chunk with room, so a removal opens a hole that a later filter fills;
a filter is removed by its id, a hash of its condition, data and callback.

Both functions take a lock first, at the address of the `lock` member of the list. They
compute that address before they select the list, from a null pointer. `appendTaskFilter` and
`removeTaskFilter` are the functions with this address as a parameter.

* `appendTaskFilter_right` and `removeTaskFilter_right`: what one call does to the lists, when
  the address of its lock is the one of a list;
* `filterRule_iff_lock`: a sequence of calls does what it should if and only if each of its
  calls locks a list;
* `filterRule_iff`: with the address that the source computes, no call does.
-/

namespace LMiced

/-! ## The code -/

/-- `lmflt_t`. The data and the callback are referred to by their addresses. -/
structure Lmflt where
  id : UInt64
  cond : LmfltCond
  pdata : UInt64
  cb : UInt64
deriving DecidableEq, Repr

/-- The list that a call selects. -/
structure FilterKey where
  pdir : ProcDirection
  pmode : ProcMode
  plevel : Fin 4
deriving DecidableEq, Repr

/-- The index of `LMICE_GET_FILTER_LIST`. -/
def FilterKey.index (key : FilterKey) : Fin 16 :=
  ⟨key.pdir.code.val + key.pmode.code.val <<< 1 + key.plevel.val <<< 2, by
    have hdir := key.pdir.code.isLt
    have hmode := key.pmode.code.isLt
    have hlevel := key.plevel.isLt
    simp only [Nat.shiftLeft_eq]
    omega⟩

/-- The filters of the selected list, in the order in which `schedule_task_proc` meets
them. -/
def FilterTable.filters (table : FilterTable Lmflt) (key : FilterKey) : List Lmflt :=
  (getFilterList table key.pdir key.pmode key.plevel).contents

/-- A condition in memory. -/
def LmfltCond.bytes (cond : LmfltCond) : List UInt8 :=
  bytes64 cond.flt ++ (bytes64 cond.tid.dataId ++ (bytes64 cond.tid.typeId ++
    (bytes64 cond.tid.tickTime ++ bytes64 cond.tid.objectId)))

/-- The id of a filter. -/
def filterId (build : Build) (cond : LmfltCond) (pdata cb : UInt64) : UInt64 :=
  let id := ealHash64Fnv1a build cond.bytes
  let id := ealHash64MoreFnv1a build (bytes64 pdata) id
  ealHash64MoreFnv1a build (bytes64 cb) id

/-- The address of the `lock` member of a list of the table. It is the first member, so the
null pointer to a list has it at the null address. -/
def lockAddress (fltList : Option (Fin 16)) : Option (Fin 16) := fltList

/-- `eal_spin_lock` of a lock that is free. Its compare-and-swap dereferences the address, and
faults when it is null. -/
def ealSpinLock (lock : Option (Fin 16)) : Option Unit := lock.map fun _ => ()

section Locked

variable (lock : Option (Fin 16))

/-- `lmflt_append_task_filter` with the address in the variable `lock`: the id that it hands
out, and the table. A call that returns returns 0. -/
def appendTaskFilter (build : Build) (key : FilterKey) (cond : LmfltCond) (pdata cb : UInt64)
    (table : FilterTable Lmflt) : Option (UInt64 × FilterTable Lmflt) := do
  let id := filterId build cond pdata cb
  ealSpinLock lock
  some (id, Function.update table key.index ((table key.index).append ⟨id, cond, pdata, cb⟩))

/-- `lmflt_remove_task_filter` with the address in the variable `lock`: the return value and
the table. -/
def removeTaskFilter (key : FilterKey) (id : UInt64) (table : FilterTable Lmflt) :
    Option (Int × FilterTable Lmflt) := do
  ealSpinLock lock
  match (table key.index).eraseFirst fun filter => filter.id = id with
  | some list => some (0, Function.update table key.index list)
  | none => some (1, table)

end Locked

/-- The address in the variable `lock` of both functions: it is taken while `flt_list` is still
`NULL`. -/
def fltListLock (_ : FilterKey) : Option (Fin 16) := lockAddress none

/-- `lmflt_append_task_filter`. -/
def lmfltAppendTaskFilter (build : Build) (key : FilterKey) (cond : LmfltCond)
    (pdata cb : UInt64) (table : FilterTable Lmflt) : Option (UInt64 × FilterTable Lmflt) :=
  appendTaskFilter (fltListLock key) build key cond pdata cb table

/-- `lmflt_remove_task_filter`. -/
def lmfltRemoveTaskFilter (key : FilterKey) (id : UInt64) (table : FilterTable Lmflt) :
    Option (Int × FilterTable Lmflt) :=
  removeTaskFilter (fltListLock key) key id table

/-! ## What is expected of the calls -/

/-- Two functions that add and remove filters. A call without a result does not return. -/
structure FilterCalls where
  append : FilterKey → LmfltCond → UInt64 → UInt64 → FilterTable Lmflt →
    Option (UInt64 × FilterTable Lmflt)
  remove : FilterKey → UInt64 → FilterTable Lmflt → Option (Int × FilterTable Lmflt)

/-- The functions of the source. -/
def lmfltCalls (build : Build) : FilterCalls :=
  ⟨lmfltAppendTaskFilter build, lmfltRemoveTaskFilter⟩

/-- A call of one of the two functions. -/
inductive FilterOp
  | append (key : FilterKey) (cond : LmfltCond) (pdata cb : UInt64)
  | remove (key : FilterKey) (id : UInt64)
deriving DecidableEq, Repr

/-- The list that the call selects. -/
def FilterOp.key : FilterOp → FilterKey
  | append key _ _ _ => key
  | remove key _ => key

/-- What is logged: the filters that were added to a list and removed from it. -/
inductive FilterMark
  | appended (key : FilterKey) (filter : Lmflt)
  | removed (key : FilterKey) (filter : Lmflt)
deriving DecidableEq, Repr

/-- The table and the log, the latest entry first. -/
structure FilterState where
  table : FilterTable Lmflt
  log : List FilterMark

/-- The two tables have the same lists, the one of the key apart. -/
def FilterTable.SameBut (key : FilterKey) (table table' : FilterTable Lmflt) : Prop :=
  ∀ key', key' ≠ key → getFilterList table' key'.pdir key'.pmode key'.plevel =
    getFilterList table key'.pdir key'.pmode key'.plevel

/-- The filters that were added to the list. -/
def appendedTo (key : FilterKey) (log : List FilterMark) : Multiset Lmflt :=
  log.filterMap fun mark =>
    match mark with
    | .appended key' filter => if key' = key then some filter else none
    | .removed _ _ => none

/-- The filters that were removed from the list. -/
def removedFrom (key : FilterKey) (log : List FilterMark) : Multiset Lmflt :=
  log.filterMap fun mark =>
    match mark with
    | .appended _ _ => none
    | .removed key' filter => if key' = key then some filter else none

/-- What the list holds and what was removed from it is what it held at first and what was
added to it. -/
def FilterState.Balanced (table : FilterTable Lmflt) (s : FilterState) : Prop :=
  ∀ key, (s.table.filters key : Multiset Lmflt) + removedFrom key s.log =
    table.filters key + appendedTo key s.log

namespace FilterCalls

variable (calls : FilterCalls)

/-- A call, and what it is to log: an addition the new filter, and a removal the first filter
with the id. -/
def run : FilterOp → FilterState → Option FilterState
  | .append key cond pdata cb, s =>
    (calls.append key cond pdata cb s.table).map fun result =>
      ⟨result.2, [.appended key ⟨result.1, cond, pdata, cb⟩] ++ s.log⟩
  | .remove key id, s =>
    let first := (s.table.filters key).find? fun filter => filter.id = id
    (calls.remove key id s.table).map fun result =>
      ⟨result.2, (first.map (.removed key)).toList ++ s.log⟩

/-- The call returns. An addition puts one filter between the others; a removal takes out the
first filter with the id, and returns 0 if and only if there is one. Neither touches another
list. -/
def Right : FilterOp → FilterTable Lmflt → Prop
  | .append key cond pdata cb, table =>
    ∃ id table', calls.append key cond pdata cb table = some (id, table') ∧
      (∃ before after, table.filters key = before ++ after ∧
        table'.filters key = before ++ ⟨id, cond, pdata, cb⟩ :: after) ∧
      FilterTable.SameBut key table table'
  | .remove key id, table =>
    ∃ ret table', calls.remove key id table = some (ret, table') ∧
      (ret = 0 ↔ ∃ filter ∈ table.filters key, filter.id = id) ∧
      table'.filters key = (table.filters key).eraseP (fun filter => filter.id = id) ∧
      FilterTable.SameBut key table table'

/-- What is expected of a sequence of calls that began with the table: each of them is right,
and at the end a list holds what was appended to it and not removed, and no chunk holds more
than 63 filters. -/
def FilterRule (table : FilterTable Lmflt) : List FilterOp → FilterState → Prop
  | [], s => s.Balanced table ∧ ∀ key : FilterKey,
      ∀ chunk ∈ getFilterList s.table key.pdir key.pmode key.plevel,
        chunk.entries.length ≤ filterListSize
  | op :: ops, s => calls.Right op s.table ∧ ∃ s', calls.run op s = some s' ∧
      FilterRule table ops s'

end FilterCalls

/-! ## One call -/

theorem FilterKey.index_injective : Function.Injective FilterKey.index := by
  rintro ⟨pdir, pmode, plevel⟩ ⟨pdir', pmode', plevel'⟩ h
  have hval := congrArg Fin.val h
  simp only [index, Nat.shiftLeft_eq] at hval
  have hlevel := plevel.isLt
  have hlevel' := plevel'.isLt
  have hsame : plevel = plevel' := by
    apply Fin.ext
    cases pdir <;> cases pmode <;> cases pdir' <;> cases pmode' <;>
      simp [ProcDirection.code, ProcMode.code] at hval <;> omega
  subst hsame
  cases pdir <;> cases pmode <;> cases pdir' <;> cases pmode' <;>
    first | rfl | (simp [ProcDirection.code, ProcMode.code] at hval)

variable {key key' : FilterKey} {table : FilterTable Lmflt} {lock : Option (Fin 16)}

theorem filters_update_self (list : LmfltList Lmflt) :
    FilterTable.filters (Function.update table key.index list) key = list.contents :=
  congrArg Chain.contents (Function.update_self _ _ _)

/-- The other 15 lists are not touched. -/
theorem sameBut_update (list : LmfltList Lmflt) :
    FilterTable.SameBut key table (Function.update table key.index list) := fun _ hne =>
  Function.update_of_ne (fun h => hne (FilterKey.index_injective h)) _ _

theorem FilterTable.SameBut.filters_eq {table' : FilterTable Lmflt}
    (h : FilterTable.SameBut key table table') (hne : key' ≠ key) :
    table'.filters key' = table.filters key' :=
  congrArg Chain.contents (h key' hne)

/-- The lock is taken unless its address is null. -/
theorem ealSpinLock_eq_some_iff : ealSpinLock lock = some () ↔ lock ≠ none := by
  cases lock <;> simp [ealSpinLock]

/-- With a lock, an addition puts one filter between the others. -/
theorem appendTaskFilter_right (build : Build) (key : FilterKey) (cond : LmfltCond)
    (pdata cb : UInt64) (table : FilterTable Lmflt) (hlock : lock ≠ none) :
    ∃ id table', appendTaskFilter lock build key cond pdata cb table = some (id, table') ∧
      (∃ before after, table.filters key = before ++ after ∧
        table'.filters key = before ++ ⟨id, cond, pdata, cb⟩ :: after) ∧
      FilterTable.SameBut key table table' := by
  have hlocked := ealSpinLock_eq_some_iff.mpr hlock
  obtain ⟨before, after, hlist, happend⟩ :=
    Chain.contents_append_eq ⟨filterId build cond pdata cb, cond, pdata, cb⟩ (table key.index)
  refine ⟨filterId build cond pdata cb, _, ?_,
    ⟨before, after, hlist, (filters_update_self _).trans happend⟩, sameBut_update _⟩
  rw [appendTaskFilter, hlocked]
  rfl

/-- With a lock, a removal takes out the first filter with the id, if there is one. -/
theorem removeTaskFilter_right (key : FilterKey) (id : UInt64) (table : FilterTable Lmflt)
    (hlock : lock ≠ none) :
    ∃ ret table', removeTaskFilter lock key id table = some (ret, table') ∧
      (ret = 0 ↔ ∃ filter ∈ table.filters key, filter.id = id) ∧
      table'.filters key = (table.filters key).eraseP (fun filter => filter.id = id) ∧
      FilterTable.SameBut key table table' := by
  have hany : (table.filters key).any (fun filter => filter.id = id) = true ↔
      ∃ filter ∈ table.filters key, filter.id = id := by simp
  have herase := Chain.contents_eraseFirst (fun filter : Lmflt => filter.id = id) (table key.index)
  unfold removeTaskFilter
  rw [ealSpinLock_eq_some_iff.mpr hlock]
  cases hfound : (table key.index).eraseFirst fun filter => filter.id = id with
  | none =>
    rw [hfound] at herase
    have hno : ¬ ∃ filter ∈ table.filters key, filter.id = id := by
      rw [← hany]
      intro h
      exact absurd (herase.trans (if_pos h)) (by simp)
    refine ⟨1, table, rfl, by simpa using hno, ?_, fun _ _ => rfl⟩
    refine (List.eraseP_of_forall_not fun filter hfilter h => hno ⟨filter, hfilter, ?_⟩).symm
    simpa using h
  | some list =>
    rw [hfound, Option.map_some] at herase
    split_ifs at herase with h
    refine ⟨0, _, rfl, by simpa using hany.mp h, ?_, sameBut_update _⟩
    exact (filters_update_self _).trans (Option.some.inj herase)

/-! ## Sequences of calls -/

theorem appendedTo_append (key : FilterKey) (later log : List FilterMark) :
    appendedTo key (later ++ log) = appendedTo key later + appendedTo key log := by
  simp [appendedTo, List.filterMap_append]

theorem removedFrom_append (key : FilterKey) (later log : List FilterMark) :
    removedFrom key (later ++ log) = removedFrom key later + removedFrom key log := by
  simp [removedFrom, List.filterMap_append]

namespace FilterCalls

variable {calls : FilterCalls} {op : FilterOp} {ops : List FilterOp} {s s' : FilterState}

/-- A right call keeps the lists and the log in balance. -/
theorem Right.balanced (hright : calls.Right op s.table) (h : calls.run op s = some s')
    (hs : s.Balanced table) : s'.Balanced table := by
  intro key'
  have hkey := hs key'
  cases op with
  | append key cond pdata cb =>
    obtain ⟨id, table', hcall, ⟨before, after, hlist, happend⟩, hothers⟩ := hright
    simp only [run, hcall, Option.map_some, Option.some.injEq] at h
    subst h
    -- The call logs one filter for its own list, and none for another.
    have hadded : (table'.filters key' : Multiset Lmflt) =
        appendedTo key' [.appended key ⟨id, cond, pdata, cb⟩] + s.table.filters key' := by
      by_cases hk : key = key'
      · subst hk
        rw [happend, hlist]
        simp only [appendedTo, List.filterMap_cons, if_pos, List.filterMap_nil]
        exact Multiset.coe_eq_coe.mpr List.perm_middle
      · simp [appendedTo, hk, hothers.filters_eq (Ne.symm hk)]
    show (table'.filters key' : Multiset Lmflt) + _ = _
    rw [hadded, appendedTo_append, removedFrom_append, add_assoc,
      add_left_comm (table.filters key' : Multiset Lmflt), ← hkey]
    simp [removedFrom]
  | remove key id =>
    obtain ⟨ret, table', hcall, _, herase, hothers⟩ := hright
    simp only [run, hcall, Option.map_some, Option.some.injEq] at h
    subst h
    let first := (s.table.filters key).find? fun filter => filter.id = id
    have hremoved : (s.table.filters key' : Multiset Lmflt) =
        removedFrom key' (first.map (.removed key)).toList + table'.filters key' := by
      by_cases hk : key = key'
      · subst hk
        rw [herase]
        cases hfind : first with
        | none =>
          rw [List.eraseP_of_forall_not (List.find?_eq_none.mp hfind)]
          simp [removedFrom]
        | some filter =>
          -- The filter that is found is the one that is erased.
          obtain ⟨hid, before, after, hfilters, hbefore⟩ :=
            List.find?_eq_some_iff_append.mp hfind
          have hrest : (s.table.filters key).eraseP (fun filter => filter.id = id) =
              before ++ after := by
            rw [hfilters, List.eraseP_append_right _ (by simpa using hbefore)]
            exact congrArg (before ++ ·) (List.eraseP_cons_of_pos hid)
          rw [hrest, hfilters]
          simp [removedFrom]
      · rw [hothers.filters_eq (Ne.symm hk)]
        cases first <;> simp [removedFrom, hk]
    show (table'.filters key' : Multiset Lmflt) + removedFrom key' _ = _
    rw [hremoved] at hkey
    rw [appendedTo_append, removedFrom_append, add_left_comm, ← add_assoc, hkey]
    cases (s.table.filters key).find? fun filter => filter.id = id <;> simp [appendedTo]

/-- The two functions, when their calls lock the addresses `lock`. -/
def ofLock (lock : FilterKey → Option (Fin 16)) (build : Build) : FilterCalls :=
  ⟨fun key => appendTaskFilter (lock key) build key, fun key => removeTaskFilter (lock key) key⟩

variable {lock : FilterKey → Option (Fin 16)} {build : Build}

theorem right_ofLock_iff :
    (ofLock lock build).Right op s.table ↔ lock op.key ≠ none := by
  constructor
  · intro hright hnull
    cases op with
    | append key cond pdata cb =>
      obtain ⟨id, table', hcall, _⟩ := hright
      simp [ofLock, appendTaskFilter, ealSpinLock, show lock key = none from hnull] at hcall
    | remove key id =>
      obtain ⟨ret, table', hcall, _⟩ := hright
      simp [ofLock, removeTaskFilter, ealSpinLock, show lock key = none from hnull] at hcall
  · intro hlock
    cases op with
    | append key cond pdata cb =>
      exact appendTaskFilter_right build key cond pdata cb s.table hlock
    | remove key id => exact removeTaskFilter_right key id s.table hlock

/-- A call that is right returns. -/
theorem Right.exists_run (h : calls.Right op s.table) : ∃ s', calls.run op s = some s' := by
  cases op with
  | append key cond pdata cb =>
    obtain ⟨id, table', hcall, _⟩ := h
    exact ⟨_, congrArg (Option.map _) hcall⟩
  | remove key id =>
    obtain ⟨ret, table', hcall, _⟩ := h
    exact ⟨_, congrArg (Option.map _) hcall⟩

/-- Calls that lock a list do what is expected of them, and only these do. -/
theorem filterRule_iff_lock (hs : s.Balanced table) :
    (ofLock lock build).FilterRule table ops s ↔ ∀ op ∈ ops, lock op.key ≠ none := by
  induction ops generalizing s with
  | nil => exact ⟨fun _ => nofun, fun _ => ⟨hs, fun _ chunk _ => chunk.le⟩⟩
  | cons op ops ih =>
    rw [List.forall_mem_cons]
    constructor
    · rintro ⟨hright, s', hrun, hrule⟩
      exact ⟨right_ofLock_iff.mp hright, (ih (hright.balanced hrun hs)).mp hrule⟩
    · rintro ⟨hlock, hlocks⟩
      have hright : (ofLock lock build).Right op s.table := right_ofLock_iff.mpr hlock
      obtain ⟨s', hrun⟩ := hright.exists_run
      exact ⟨hright, s', hrun, (ih (hright.balanced hrun hs)).mpr hlocks⟩

end FilterCalls

/-- The calls of the source lock the null address, so no sequence with a call in it does what
is expected. -/
theorem filterRule_iff (build : Build) (table : FilterTable Lmflt) (ops : List FilterOp) :
    (lmfltCalls build).FilterRule table ops ⟨table, []⟩ ↔ ops = [] := by
  have hlocks : (FilterCalls.ofLock fltListLock build).FilterRule table ops ⟨table, []⟩ ↔
      ∀ op ∈ ops, fltListLock op.key ≠ none := FilterCalls.filterRule_iff_lock fun _ => rfl
  refine hlocks.trans ⟨fun hops => ?_, ?_⟩
  · exact List.eq_nil_iff_forall_not_mem.mpr fun op hop => hops op hop rfl
  · rintro rfl
    exact nofun

/-- The table after a `memset`. -/
def zeroTable : FilterTable Lmflt := fun _ => [BArray.empty]

/-- An addition to an empty table does not return. -/
theorem append_to_zeroTable_faults :
    ¬ ∀ (build : Build) (table : FilterTable Lmflt) (ops : List FilterOp),
      (lmfltCalls build).FilterRule table ops ⟨table, []⟩ := by
  intro h
  obtain ⟨⟨id, table', hcall, _⟩, _⟩ := h .release zeroTable
    [.append ⟨.procOut, .pass, 1⟩ ⟨0, ⟨0, 0, 0, 0⟩⟩ 0 4096]
  cases hcall

end LMiced
