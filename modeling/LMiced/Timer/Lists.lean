import LMiced.Lib.Chain

/-!
# The ten timer lists

The data model of the timer part of `resource/resource_manage.h` and its list
operations. The daemon keeps every open timer in one of ten lists: for wall
clock timers and for simulation time tickers one list of timers that wait for
their due time, and four work lists, by the time that remains until the next
trigger. Each list is a chain of 32-slot pointer arrays. Slot 0 of an array is
its control element (the number of used slots and the link to the next array),
so an array holds 31 timers.

Timers are referred to by pointer. The pointer type `τ` stays abstract here:
nothing in this part depends on where a `lm_timer_res_t` lives. The info block
of a timer sits in the shared memory of its worker; a timer owns its block, so
the block is modelled as part of the timer, `none` being the null pointer.
-/

namespace LMiced

/-! ## Data model -/

/-- `enum lmice_timer_state_e`, the values of `lm_timer_res_t.active`. -/
inductive TimerState
  | notUse
  | delete
  | running
deriving DecidableEq, Repr

/-- `TIMER_TYPE`; every other value of the type field is treated as a ticker. -/
def timerType : Nat := 2

/-- `TICKER_TYPE`. -/
def tickerType : Nat := 1

/-- `LM_TRIGGERED_STATE`. -/
def lmTriggeredState : UInt8 := 0xFF

/-- `lm_state_t`: eight state bytes. -/
structure LmState where
  value : Fin 8 → UInt8

/-- The state byte of a timer, the first one. -/
def timerStatePos : Fin 8 := 0

/-- Set one state byte to `LM_TRIGGERED_STATE`. -/
def LmState.activate (st : LmState) (pos : Fin 8) : LmState :=
  ⟨Function.update st.value pos lmTriggeredState⟩

/-- `CHECK_ACTION_STATE`: all eight bytes are set. -/
def LmState.complete (st : LmState) : Bool := decide (∀ i, st.value i = lmTriggeredState)

/-- `lm_timer_t`, the run-time part of a timer's info block. -/
structure LmTimer where
  count : UInt64
  begin : Int
  state : LmState

/-- `lm_timer_info_t`. `size` is the number of triggers, documented with `1` for
a one-shot timer and `0` for an infinite one. -/
structure TimerInfo where
  type : Nat
  size : UInt32
  period : Int
  due : Int
  instId : Nat
  timer : LmTimer

/-- `lm_ref_act_t`: a position in the state of an action that refers to the timer.
Action info blocks are referred to by number, `none` being the null pointer. -/
structure RefAct where
  pos : Fin 8
  info : Option Nat
deriving DecidableEq, Repr

/-- `lm_timer_res_t`. `worker` is the table slot of the owning worker. -/
structure TimerRes where
  active : TimerState
  info : Option TimerInfo
  alist : List RefAct
  worker : Nat

/-- Wall clock timers and simulation time tickers have separate lists. -/
inductive Family
  | timer
  | ticker
deriving DecidableEq, Repr

/-- The due list and the four work lists of one family. -/
inductive Band
  | due
  | work1
  | work2
  | work3
  | work4
deriving DecidableEq, Repr

/-- One of the ten timer lists of `lm_res_param_t`. -/
structure ListId where
  family : Family
  band : Band
deriving DecidableEq, Repr

/-- The ten lists. -/
def ListId.all : List ListId :=
  [⟨.timer, .due⟩, ⟨.timer, .work1⟩, ⟨.timer, .work2⟩, ⟨.timer, .work3⟩, ⟨.timer, .work4⟩,
    ⟨.ticker, .due⟩, ⟨.ticker, .work1⟩, ⟨.ticker, .work2⟩, ⟨.ticker, .work3⟩, ⟨.ticker, .work4⟩]

theorem ListId.mem_all (l : ListId) : l ∈ ListId.all := by
  obtain ⟨f, b⟩ := l
  cases f <;> cases b <;> decide

/-- `TIMER_LIST_SIZE - 1`: the slots of an array beside the control element. -/
abbrev timerListCap : Nat := 31

/-- A timer list: a chain of pointer arrays, the head array first. -/
abbrev TList (τ : Type) := Chain timerListCap τ

/-- `init_tmlist_resource`: a head array with nothing in it. -/
def initTmlistResource {τ : Type} : TList τ := [BArray.empty]

/-- The part of `lm_res_param_t` that the timer code reads and writes. `action`
holds the states of the actions. `touched` records the timers whose info pointer
was dereferenced and `awakened` the workers whose event was posted, both with
the latest first. -/
structure Sched (τ : Type) where
  timer : τ → TimerRes
  list : ListId → TList τ
  action : Nat → LmState
  touched : List τ
  awakened : List Nat

/-! ## List selection -/

/-- `PERIOD_1`, 8 milliseconds in units of 100 nanoseconds. -/
def period1 : Int := 80000

/-- `PERIOD_2`, 32 milliseconds. -/
def period2 : Int := 320000

/-- `PERIOD_3`, 128 milliseconds. -/
def period3 : Int := 1280000

/-- The work list for a remaining time. -/
def workBand (remain : Int) : Band :=
  if remain < period1 then .work1
  else if remain < period2 then .work2
  else if remain < period3 then .work3
  else .work4

/-- The family of a timer by its type field. -/
def TimerInfo.family (info : TimerInfo) : Family :=
  if info.type = timerType then .timer else .ticker

/-- `get_timer_res_list`: where a timer is filed when it is opened. -/
def getTimerResList (info : TimerInfo) : ListId :=
  if 0 < info.due then ⟨info.family, .due⟩ else ⟨info.family, workBand info.period⟩

/-- `get_tlist_by_remain`: where a timer is filed by its remaining time. -/
def getTlistByRemain (remain : Int) (info : TimerInfo) : ListId :=
  ⟨info.family, workBand remain⟩

theorem workBand_ne_due (remain : Int) : workBand remain ≠ .due := by
  unfold workBand
  split_ifs <;> decide

@[simp] theorem getTlistByRemain_family (remain : Int) (info : TimerInfo) :
    (getTlistByRemain remain info).family = info.family := rfl

@[simp] theorem getTimerResList_family (info : TimerInfo) :
    (getTimerResList info).family = info.family := by
  unfold getTimerResList
  split_ifs <;> rfl

/-- A wall clock timer of 10 milliseconds that has not been triggered yet. -/
def freshTimer (size : UInt32) : TimerInfo where
  type := timerType
  size := size
  period := 100000
  due := 0
  instId := 1
  timer := ⟨0, 0, ⟨fun _ => 0⟩⟩

/-! ## Operations -/

namespace Sched

variable {τ : Type}

/-- Store a timer list. -/
def setList (s : Sched τ) (l : ListId) (c : TList τ) : Sched τ :=
  { s with list := Function.update s.list l c }

/-- Record that the info pointer of `t` is dereferenced. -/
def touch (s : Sched τ) (t : τ) : Sched τ := { s with touched := t :: s.touched }

/-- `append_timer_to_tlist`. -/
def appendTimerToTlist (s : Sched τ) (l : ListId) (t : τ) : Sched τ :=
  s.setList l ((s.list l).append t)

/-- The `memmove` that takes the timer at place `pos` of array `arr` out of a
list. Places count from 0, so `pos` is the code's `pos - 1`. -/
def removeAt (s : Sched τ) (l : ListId) (arr pos : Nat) : Sched τ :=
  s.setList l ((s.list l).removeAt arr pos)

/-- `append_timer_to_res`. It reads the type, due time and period of the timer
through its info pointer. Where the pointer is null the code crashes; here the access is
recorded and nothing is filed. -/
def appendTimerToRes (s : Sched τ) (t : τ) : Sched τ :=
  match (s.timer t).info with
  | none => s.touch t
  | some info => (s.touch t).appendTimerToTlist (getTimerResList info) t

/-- The loop of `remove_timer_from_list_by_worker` over one array. After a
removal the next timer has moved into the place just handled and the loop goes
on behind it, so that timer is kept unexamined. -/
def dropByWorker (owned : τ → Bool) : List τ → List τ
  | [] => []
  | [t] => if owned t then [] else [t]
  | t :: u :: ts =>
    if owned t then u :: dropByWorker owned ts else t :: dropByWorker owned (u :: ts)

theorem length_dropByWorker_le (owned : τ → Bool) (ts : List τ) :
    (dropByWorker owned ts).length ≤ ts.length := by
  fun_induction dropByWorker owned ts with
  | case1 => simp
  | case2 t h => simp
  | case3 t h => simp
  | case4 t u ts h ih => simp only [List.length_cons]; omega
  | case5 t u ts h ih => simpa using ih

/-- `remove_timer_from_list_by_worker`, for the worker in table slot `w`. -/
def removeTimerFromListByWorker (s : Sched τ) (l : ListId) (w : Nat) : Sched τ :=
  s.setList l <| (s.list l).map fun a =>
    ⟨dropByWorker (fun t => decide ((s.timer t).worker = w)) a.entries,
      Nat.le_trans (length_dropByWorker_le _ _) a.le⟩

/-- `remove_timer_by_worker`. -/
def removeTimerByWorker (s : Sched τ) (w : Nat) : Sched τ :=
  ListId.all.foldl (fun s l => s.removeTimerFromListByWorker l w) s

variable [DecidableEq τ]

/-- Store a timer resource. -/
def setRes (s : Sched τ) (t : τ) (r : TimerRes) : Sched τ :=
  { s with timer := Function.update s.timer t r }

/-- `remove_timer_from_list`; `none` is the return value 1. -/
def removeTimerFromList (s : Sched τ) (l : ListId) (t : τ) : Option (Sched τ) :=
  ((s.list l).removeFirst t).map fun c =>
    (s.setRes t { s.timer t with active := .notUse }).setList l c

/-- The lists of one family, tried in the order of `remove_timer_from_res`. -/
def removeTimerFromBands (s : Sched τ) (f : Family) (t : τ) : List Band → Sched τ
  | [] => s
  | b :: bs =>
    match s.removeTimerFromList ⟨f, b⟩ t with
    | some s' => s'
    | none => removeTimerFromBands s f t bs

/-- `remove_timer_from_res`. It reads the type of the timer through its info
pointer and searches the five lists of that family. -/
def removeTimerFromRes (s : Sched τ) (t : τ) : Sched τ :=
  match (s.timer t).info with
  | none => s.touch t
  | some info =>
    (s.touch t).removeTimerFromBands info.family t [.due, .work1, .work2, .work3, .work4]

/-- How often `t` stands in the list `l`. -/
def occ (s : Sched τ) (l : ListId) (t : τ) : Nat := (s.list l).contents.count t

/-- How often `t` stands in the ten lists. -/
def positions (s : Sched τ) (t : τ) : Nat := (ListId.all.map (s.occ · t)).sum

/-- `t` stands in some list. -/
def Listed (s : Sched τ) (t : τ) : Prop := ∃ l, t ∈ (s.list l).contents

/-- The state of a daemon with one timer, filed in the list `l`. -/
def ofOne (l : ListId) (r : TimerRes) : Sched Unit where
  timer _ := r
  list := Function.update (fun _ => initTmlistResource) l [BArray.single ()]
  action _ := ⟨fun _ => 0⟩
  touched := []
  awakened := []

end Sched

/-! ## What the operations leave alone -/

namespace Sched

variable {τ : Type}

section Frame

variable (s : Sched τ) (l : ListId) (t : τ) (c : TList τ) (arr pos : Nat)

section

variable [DecidableEq τ] (r : TimerRes)

@[simp] theorem setRes_timer : (s.setRes t r).timer = Function.update s.timer t r := rfl
@[simp] theorem setRes_list : (s.setRes t r).list = s.list := rfl
@[simp] theorem setRes_touched : (s.setRes t r).touched = s.touched := rfl

end

@[simp] theorem setList_timer : (s.setList l c).timer = s.timer := rfl
@[simp] theorem setList_list : (s.setList l c).list = Function.update s.list l c := rfl
@[simp] theorem setList_touched : (s.setList l c).touched = s.touched := rfl
@[simp] theorem touch_timer : (s.touch t).timer = s.timer := rfl
@[simp] theorem touch_list : (s.touch t).list = s.list := rfl
@[simp] theorem touch_touched : (s.touch t).touched = t :: s.touched := rfl
@[simp] theorem appendTimerToTlist_timer : (s.appendTimerToTlist l t).timer = s.timer := rfl
@[simp] theorem appendTimerToTlist_list :
    (s.appendTimerToTlist l t).list = Function.update s.list l ((s.list l).append t) := rfl
@[simp] theorem appendTimerToTlist_touched : (s.appendTimerToTlist l t).touched = s.touched := rfl
@[simp] theorem removeAt_timer : (s.removeAt l arr pos).timer = s.timer := rfl
@[simp] theorem removeAt_list :
    (s.removeAt l arr pos).list = Function.update s.list l ((s.list l).removeAt arr pos) := rfl
@[simp] theorem removeAt_touched : (s.removeAt l arr pos).touched = s.touched := rfl

end Frame

/-! ## Occurrences -/

variable [DecidableEq τ]

theorem occ_congr {s s' : Sched τ} (h : s'.list = s.list) (l : ListId) (t : τ) :
    s'.occ l t = s.occ l t := by
  rw [occ, occ, h]

theorem occ_appendTimerToTlist (s : Sched τ) (l l' : ListId) (t u : τ) :
    (s.appendTimerToTlist l t).occ l' u = s.occ l' u + if l' = l ∧ u = t then 1 else 0 := by
  by_cases h : l' = l
  · subst h
    simp [occ, Chain.count_append]
  · simp [occ, h]

theorem occ_removeAt {s : Sched τ} {l : ListId} {arr pos : Nat} {t : τ}
    (h : (s.list l).entryAt arr pos = some t) (l' : ListId) (u : τ) :
    (s.removeAt l arr pos).occ l' u + (if l' = l ∧ u = t then 1 else 0) = s.occ l' u := by
  by_cases hl : l' = l
  · subst hl
    simpa [occ] using Chain.count_removeAt h u
  · simp [occ, hl]

/-- A sum over the ten lists changes where one summand does. -/
theorem sum_all_eq {f g : ListId → Nat} {l : ListId} {n : Nat}
    (h : ∀ l', f l' = g l' + if l' = l then n else 0) :
    (ListId.all.map f).sum = (ListId.all.map g).sum + n := by
  obtain ⟨fam, band⟩ := l
  cases fam <;> cases band <;> simp [ListId.all, h] <;> omega

theorem positions_congr {s s' : Sched τ} (h : s'.list = s.list) (t : τ) :
    s'.positions t = s.positions t := by
  simp only [positions, occ_congr h]

theorem positions_appendTimerToTlist (s : Sched τ) (l : ListId) (t u : τ) :
    (s.appendTimerToTlist l t).positions u = s.positions u + if u = t then 1 else 0 := by
  refine sum_all_eq (l := l) fun l' => ?_
  rw [occ_appendTimerToTlist]
  by_cases h : l' = l <;> simp [h]

theorem positions_removeAt {s : Sched τ} {l : ListId} {arr pos : Nat} {t : τ}
    (h : (s.list l).entryAt arr pos = some t) (u : τ) :
    (s.removeAt l arr pos).positions u + (if u = t then 1 else 0) = s.positions u := by
  refine (sum_all_eq (l := l) fun l' => ?_).symm
  rw [← occ_removeAt h l' u]
  by_cases hl : l' = l <;> simp [hl]

omit [DecidableEq τ] in
/-- Appending a timer does not move the timer at another position. -/
theorem entryAt_appendTimerToTlist {s : Sched τ} {l : ListId} {arr pos : Nat} {t : τ}
    (h : (s.list l).entryAt arr pos = some t) (newlist : ListId) (u : τ) :
    ((s.appendTimerToTlist newlist u).list l).entryAt arr pos = some t := by
  by_cases hl : l = newlist
  · subst hl
    simpa using Chain.entryAt_append_of_some h
  · simpa [hl] using h

/-- Moving a timer changes its number of occurrences in the two lists only. -/
theorem occ_move {s : Sched τ} {l : ListId} {arr pos : Nat} {t : τ}
    (h : (s.list l).entryAt arr pos = some t) (newlist l' : ListId) (u : τ) :
    ((s.appendTimerToTlist newlist t).removeAt l arr pos).occ l' u +
        (if l' = l ∧ u = t then 1 else 0) =
      s.occ l' u + if l' = newlist ∧ u = t then 1 else 0 := by
  rw [occ_removeAt (entryAt_appendTimerToTlist h newlist t), occ_appendTimerToTlist]

theorem positions_move {s : Sched τ} {l : ListId} {arr pos : Nat} {t : τ}
    (h : (s.list l).entryAt arr pos = some t) (newlist : ListId) (u : τ) :
    ((s.appendTimerToTlist newlist t).removeAt l arr pos).positions u = s.positions u := by
  have hrem := positions_removeAt (entryAt_appendTimerToTlist h newlist t) u
  rw [positions_appendTimerToTlist] at hrem
  omega

omit [DecidableEq τ] in
theorem mem_of_mem_removeAt {s : Sched τ} {l l' : ListId} {arr pos : Nat} {u : τ}
    (h : u ∈ ((s.removeAt l arr pos).list l').contents) : u ∈ (s.list l').contents := by
  by_cases hl : l' = l
  · subst hl
    simp only [removeAt_list, Function.update_self] at h
    exact Chain.mem_of_mem_removeAt h
  · simpa [hl] using h

omit [DecidableEq τ] in
theorem mem_appendTimerToTlist {s : Sched τ} {l l' : ListId} {t u : τ} :
    u ∈ ((s.appendTimerToTlist l t).list l').contents ↔
      u ∈ (s.list l').contents ∨ (u = t ∧ l' = l) := by
  by_cases hl : l' = l
  · subst hl
    simp only [appendTimerToTlist_list, Function.update_self, Chain.mem_append_iff, and_true]
    exact or_comm
  · simp [hl]

/-- A timer that is listed once is in one list. -/
theorem eq_of_positions_le_one {s : Sched τ} {t : τ} (h : s.positions t ≤ 1) {l l' : ListId}
    (hl : t ∈ (s.list l).contents) (hl' : t ∈ (s.list l').contents) : l = l' := by
  by_contra hne
  have h1 : 0 < s.occ l t := List.count_pos_iff.mpr hl
  have h2 : 0 < s.occ l' t := List.count_pos_iff.mpr hl'
  obtain ⟨f, b⟩ := l
  obtain ⟨f', b'⟩ := l'
  simp only [positions, ListId.all, List.map_cons, List.map_nil, List.sum_cons, List.sum_nil] at h
  cases f <;> cases b <;> cases f' <;> cases b' <;> first | exact hne rfl | omega

theorem positions_pos_iff {s : Sched τ} {t : τ} : 0 < s.positions t ↔ s.Listed t := by
  simp only [positions, List.sum_pos_iff_exists_pos_nat, List.mem_map, exists_exists_and_eq_and,
    occ, List.count_pos_iff]
  constructor
  · rintro ⟨l, _, h⟩
    exact ⟨l, h⟩
  · rintro ⟨l, h⟩
    exact ⟨l, ListId.mem_all l, h⟩

/-! ## Adding and removing a timer -/

omit [DecidableEq τ] in
@[simp] theorem appendTimerToRes_timer (s : Sched τ) (t : τ) :
    (s.appendTimerToRes t).timer = s.timer := by
  unfold appendTimerToRes
  split <;> rfl

omit [DecidableEq τ] in
@[simp] theorem appendTimerToRes_touched (s : Sched τ) (t : τ) :
    (s.appendTimerToRes t).touched = t :: s.touched := by
  unfold appendTimerToRes
  split <;> rfl

omit [DecidableEq τ] in
theorem appendTimerToRes_list {s : Sched τ} {t : τ} {info : TimerInfo}
    (h : (s.timer t).info = some info) :
    (s.appendTimerToRes t).list = (s.appendTimerToTlist (getTimerResList info) t).list := by
  unfold appendTimerToRes
  rw [h]
  rfl

omit [DecidableEq τ] in
theorem appendTimerToRes_list_of_none {s : Sched τ} {t : τ} (h : (s.timer t).info = none) :
    (s.appendTimerToRes t).list = s.list := by
  unfold appendTimerToRes
  rw [h]
  rfl

omit [DecidableEq τ] in
theorem mem_appendTimerToRes {s : Sched τ} {l : ListId} {t u : τ}
    (h : u ∈ ((s.appendTimerToRes t).list l).contents) :
    u ∈ (s.list l).contents ∨
      (u = t ∧ ∃ info, (s.timer t).info = some info ∧ l = getTimerResList info) := by
  cases hinfo : (s.timer t).info with
  | none =>
    rw [appendTimerToRes_list_of_none hinfo] at h
    exact Or.inl h
  | some info =>
    rw [appendTimerToRes_list hinfo] at h
    exact (mem_appendTimerToTlist.mp h).imp_right fun h => ⟨h.1, info, rfl, h.2⟩

/-- A timer is listed once more, or not at all if its info pointer is null. -/
theorem positions_appendTimerToRes_le (s : Sched τ) (t u : τ) :
    (s.appendTimerToRes t).positions u ≤ s.positions u + if u = t then 1 else 0 := by
  cases hinfo : (s.timer t).info with
  | none =>
    rw [positions_congr (appendTimerToRes_list_of_none hinfo)]
    exact Nat.le_add_right _ _
  | some info => rw [positions_congr (appendTimerToRes_list hinfo), positions_appendTimerToTlist]

theorem positions_appendTimerToRes_of_ne {s : Sched τ} {t u : τ} (h : u ≠ t) :
    (s.appendTimerToRes t).positions u = s.positions u := by
  cases hinfo : (s.timer t).info with
  | none => rw [positions_congr (appendTimerToRes_list_of_none hinfo)]
  | some info =>
    rw [positions_congr (appendTimerToRes_list hinfo), positions_appendTimerToTlist, if_neg h,
      Nat.add_zero]

theorem removeTimerFromBands_cases (s : Sched τ) (f : Family) (t : τ) (bs : List Band) :
    s.removeTimerFromBands f t bs = s ∨
      ∃ b c, (s.list ⟨f, b⟩).removeFirst t = some c ∧
        s.removeTimerFromBands f t bs =
          (s.setRes t { s.timer t with active := .notUse }).setList ⟨f, b⟩ c := by
  induction bs with
  | nil => exact Or.inl rfl
  | cons b bs ih =>
    unfold removeTimerFromBands removeTimerFromList
    cases hrem : (s.list ⟨f, b⟩).removeFirst t with
    | none => exact ih
    | some c => exact Or.inr ⟨b, c, hrem, rfl⟩

/-- Removing a timer finds it in a list and takes it out, or changes nothing. -/
theorem removeTimerFromRes_cases (s : Sched τ) (t : τ) :
    ((s.removeTimerFromRes t).timer = s.timer ∧ (s.removeTimerFromRes t).list = s.list) ∨
      ∃ l c, (s.list l).removeFirst t = some c ∧
        (s.removeTimerFromRes t).timer =
          Function.update s.timer t { s.timer t with active := .notUse } ∧
        (s.removeTimerFromRes t).list = Function.update s.list l c := by
  unfold removeTimerFromRes
  cases hinfo : (s.timer t).info with
  | none => exact Or.inl ⟨rfl, rfl⟩
  | some info =>
    dsimp only
    rcases removeTimerFromBands_cases (s.touch t) info.family t
      [.due, .work1, .work2, .work3, .work4] with h | ⟨b, c, hrem, h⟩
    · exact Or.inl ⟨by rw [h]; rfl, by rw [h]; rfl⟩
    · exact Or.inr ⟨_, c, hrem, by rw [h]; rfl, by rw [h]; rfl⟩

@[simp] theorem removeTimerFromRes_touched (s : Sched τ) (t : τ) :
    (s.removeTimerFromRes t).touched = t :: s.touched := by
  unfold removeTimerFromRes
  cases hinfo : (s.timer t).info with
  | none => rfl
  | some info =>
    dsimp only
    rcases removeTimerFromBands_cases (s.touch t) info.family t
      [.due, .work1, .work2, .work3, .work4] with h | ⟨b, c, _, h⟩
    · rw [h]
      rfl
    · rw [h]
      rfl

theorem removeTimerFromRes_timer_of_ne {s : Sched τ} {t u : τ} (h : u ≠ t) :
    (s.removeTimerFromRes t).timer u = s.timer u := by
  rcases removeTimerFromRes_cases s t with ⟨ht, _⟩ | ⟨_, _, _, ht, _⟩
  · rw [ht]
  · rw [ht, Function.update_of_ne h]

theorem positions_of_removeFirst {s s' : Sched τ} {l : ListId} {t : τ} {c : TList τ}
    (h : (s.list l).removeFirst t = some c) (hs' : s'.list = Function.update s.list l c) (u : τ) :
    s'.positions u + (if u = t then 1 else 0) = s.positions u := by
  refine (sum_all_eq (l := l) fun l' => ?_).symm
  by_cases hl : l' = l
  · subst hl
    simpa [occ, hs'] using (Chain.count_removeFirst h u).symm
  · simp [occ, hs', hl]

omit [DecidableEq τ] in
theorem mem_of_mem_update {s : Sched τ} {l l' : ListId} {c : TList τ} {u : τ}
    (hc : ∀ v, v ∈ c.contents → v ∈ (s.list l).contents)
    (h : u ∈ (Function.update s.list l c l').contents) : u ∈ (s.list l').contents := by
  by_cases hl : l' = l
  · subst hl
    rw [Function.update_self] at h
    exact hc u h
  · rwa [Function.update_of_ne hl] at h

theorem mem_of_mem_removeFirst {s : Sched τ} {l l' : ListId} {t u : τ} {c : TList τ}
    (hrem : (s.list l).removeFirst t = some c)
    (h : u ∈ (Function.update s.list l c l').contents) : u ∈ (s.list l').contents :=
  mem_of_mem_update
    (fun _ hv => (Chain.removeFirst_perm hrem).subset (List.mem_cons_of_mem t hv)) h

theorem mem_of_mem_removeTimerFromRes {s : Sched τ} {l : ListId} {t u : τ}
    (h : u ∈ ((s.removeTimerFromRes t).list l).contents) : u ∈ (s.list l).contents := by
  rcases removeTimerFromRes_cases s t with ⟨_, hlist⟩ | ⟨_, _, hrem, _, hlist⟩ <;> rw [hlist] at h
  · exact h
  · exact mem_of_mem_removeFirst hrem h

theorem positions_removeTimerFromRes_le (s : Sched τ) (t u : τ) :
    (s.removeTimerFromRes t).positions u ≤ s.positions u := by
  rcases removeTimerFromRes_cases s t with ⟨_, hlist⟩ | ⟨_, _, hrem, _, hlist⟩
  · rw [positions_congr hlist]
  · have hpos := positions_of_removeFirst hrem hlist u
    omega

theorem positions_removeTimerFromRes_of_ne {s : Sched τ} {t u : τ} (h : u ≠ t) :
    (s.removeTimerFromRes t).positions u = s.positions u := by
  rcases removeTimerFromRes_cases s t with ⟨_, hlist⟩ | ⟨_, _, hrem, _, hlist⟩
  · exact positions_congr hlist u
  · simpa [h] using positions_of_removeFirst hrem hlist u

/-! ## Removing the timers of a worker -/

omit [DecidableEq τ] in
theorem dropByWorker_sublist (owned : τ → Bool) (ts : List τ) :
    (dropByWorker owned ts).Sublist ts := by
  fun_induction dropByWorker owned ts with
  | case1 => exact List.Sublist.refl _
  | case2 t h => exact List.nil_sublist _
  | case3 t h => exact List.Sublist.refl _
  | case4 t u ts h ih => exact (ih.cons_cons u).cons t
  | case5 t u ts h ih => exact ih.cons_cons t

omit [DecidableEq τ] in
@[simp] theorem removeTimerFromListByWorker_timer (s : Sched τ) (l : ListId) (w : Nat) :
    (s.removeTimerFromListByWorker l w).timer = s.timer := rfl

omit [DecidableEq τ] in
theorem removeTimerFromListByWorker_sublist (s : Sched τ) (l l' : ListId) (w : Nat) :
    ((s.removeTimerFromListByWorker l w).list l').contents.Sublist (s.list l').contents := by
  unfold removeTimerFromListByWorker
  by_cases hl : l' = l
  · subst hl
    simp only [setList_list, Function.update_self]
    generalize s.list l' = c
    induction c with
    | nil => exact List.Sublist.refl _
    | cons a c ih => exact (dropByWorker_sublist _ a.entries).append ih
  · simp [hl]

omit [DecidableEq τ] in
/-- What the removal from one list preserves, the removal from several preserves. -/
theorem foldl_remove_invariant {I : Sched τ → Prop} {w : Nat}
    (hI : ∀ s l, I s → I (s.removeTimerFromListByWorker l w)) (ls : List ListId) {s : Sched τ}
    (hs : I s) : I (ls.foldl (fun s l => s.removeTimerFromListByWorker l w) s) := by
  induction ls generalizing s with
  | nil => exact hs
  | cons l ls ih => exact ih (hI s l hs)

omit [DecidableEq τ] in
theorem removeTimerByWorker_invariant {I : Sched τ → Prop} {w : Nat}
    (hI : ∀ s l, I s → I (s.removeTimerFromListByWorker l w)) {s : Sched τ} (hs : I s) :
    I (s.removeTimerByWorker w) :=
  foldl_remove_invariant hI ListId.all hs

omit [DecidableEq τ] in
@[simp] theorem removeTimerByWorker_timer (s : Sched τ) (w : Nat) :
    (s.removeTimerByWorker w).timer = s.timer :=
  removeTimerByWorker_invariant (I := fun s' => s'.timer = s.timer) (fun _ _ h => h) rfl

omit [DecidableEq τ] in
@[simp] theorem removeTimerByWorker_touched (s : Sched τ) (w : Nat) :
    (s.removeTimerByWorker w).touched = s.touched :=
  removeTimerByWorker_invariant (I := fun s' => s'.touched = s.touched) (fun _ _ h => h) rfl

omit [DecidableEq τ] in
theorem removeTimerByWorker_sublist (s : Sched τ) (w : Nat) (l : ListId) :
    ((s.removeTimerByWorker w).list l).contents.Sublist (s.list l).contents :=
  removeTimerByWorker_invariant
    (I := fun s' => (s'.list l).contents.Sublist (s.list l).contents)
    (fun s' l' h => (removeTimerFromListByWorker_sublist s' l' l w).trans h) (List.Sublist.refl _)

omit [DecidableEq τ] in
/-- The timers of the other workers stay, in their order. -/
theorem filter_dropByWorker (owned : τ → Bool) (ts : List τ) :
    (dropByWorker owned ts).filter (fun t => !owned t) = ts.filter fun t => !owned t := by
  fun_induction dropByWorker owned ts with
  | case1 => rfl
  | case2 t h => simp [h]
  | case3 t h => simp [h]
  | case4 t u ts h ih => simp [List.filter_cons, h, ih]
  | case5 t u ts h ih =>
    have hkept : ∀ us, (t :: us).filter (fun t => !owned t) = t :: us.filter fun t => !owned t := by
      intro us
      simp [h]
    rw [hkept, hkept, ih]

omit [DecidableEq τ] in
/-- The loop over an array removes every timer of the worker if and only if no two of them
are neighbours. -/
theorem dropByWorker_clears_iff (owned : τ → Bool) (ts : List τ) :
    (∀ t ∈ dropByWorker owned ts, owned t = false) ↔
      ts.IsChain fun t u => ¬ (owned t = true ∧ owned u = true) := by
  fun_induction dropByWorker owned ts with
  | case1 => simp
  | case2 t h => simp
  | case3 t h => simpa using h
  | case4 t u ts h ih =>
    have hpair : (¬ (owned t = true ∧ owned u = true)) ↔ owned u = false := by simp [h]
    rw [List.forall_mem_cons, ih, List.isChain_cons_cons, hpair]
    refine and_congr_right fun hu => ?_
    -- The skipped timer is not one of the worker, so it has no forbidden neighbour.
    cases ts with
    | nil => simp
    | cons v ts => simp [List.isChain_cons_cons, hu]
  | case5 t u ts h ih =>
    have ht : owned t = false := by simpa using h
    rw [List.forall_mem_cons, ih, List.isChain_cons_cons]
    simp [ht]

/-- In no array are two neighbours timers of the worker. -/
def Apart (s : Sched τ) (w : Nat) : Prop :=
  ∀ l ∈ ListId.all, ∀ a ∈ s.list l,
    a.entries.IsChain fun t u => ¬ ((s.timer t).worker = w ∧ (s.timer u).worker = w)

instance (s : Sched τ) (w : Nat) : Decidable (s.Apart w) := by
  unfold Apart
  infer_instance

omit [DecidableEq τ] in
theorem foldl_remove_list (s : Sched τ) (w : Nat) (l : ListId) {ls : List ListId}
    (hls : ls.Nodup) :
    (ls.foldl (fun s l => s.removeTimerFromListByWorker l w) s).list l =
      if l ∈ ls then (s.removeTimerFromListByWorker l w).list l else s.list l := by
  induction ls generalizing s with
  | nil => rfl
  | cons l' ls ih =>
    rw [List.nodup_cons] at hls
    rw [List.foldl_cons, ih _ hls.2]
    by_cases hll : l = l'
    · subst hll
      rw [if_neg hls.1, if_pos List.mem_cons_self]
    · have hlist : (s.removeTimerFromListByWorker l' w).list l = s.list l :=
        Function.update_of_ne hll _ _
      by_cases hmem : l ∈ ls
      · rw [if_pos hmem, if_pos (List.mem_cons_of_mem _ hmem)]
        show Function.update _ l _ l = Function.update _ l _ l
        rw [Function.update_self, Function.update_self, hlist]
        rfl
      · rw [if_neg hmem, if_neg (by simp [hll, hmem]), hlist]

omit [DecidableEq τ] in
/-- Every list is gone through once. -/
theorem removeTimerByWorker_list (s : Sched τ) (w : Nat) (l : ListId) :
    (s.removeTimerByWorker w).list l = (s.removeTimerFromListByWorker l w).list l := by
  rw [removeTimerByWorker, foldl_remove_list s w l (by decide), if_pos (ListId.mem_all l)]

omit [DecidableEq τ] in
theorem contents_removeTimerByWorker (s : Sched τ) (w : Nat) (l : ListId) :
    ((s.removeTimerByWorker w).list l).contents = (s.list l).flatMap fun a =>
      dropByWorker (fun t => decide ((s.timer t).worker = w)) a.entries := by
  rw [removeTimerByWorker_list]
  simp [removeTimerFromListByWorker, Chain.contents, List.flatMap_map]

omit [DecidableEq τ] in
/-- The removal of a worker leaves none of its timers in the lists if and only if no two of
them are neighbours. -/
theorem forall_worker_ne_iff_apart (s : Sched τ) (w : Nat) :
    (∀ l, ∀ t ∈ ((s.removeTimerByWorker w).list l).contents, (s.timer t).worker ≠ w) ↔
      s.Apart w := by
  have harray : ∀ a : BArray timerListCap τ,
      (∀ t ∈ dropByWorker (fun t => decide ((s.timer t).worker = w)) a.entries,
        (s.timer t).worker ≠ w) ↔
      a.entries.IsChain fun t u => ¬ ((s.timer t).worker = w ∧ (s.timer u).worker = w) := by
    intro a
    simpa using dropByWorker_clears_iff (fun t => decide ((s.timer t).worker = w)) a.entries
  simp only [Apart, contents_removeTimerByWorker, List.mem_flatMap, ← harray]
  constructor
  · intro h l _ a ha t ht
    exact h l t ⟨a, ha, ht⟩
  · rintro h l t ⟨a, ha, ht⟩
    exact h l (ListId.mem_all l) a ha t ht

omit [DecidableEq τ] in
/-- Then the removal of the worker leaves none of its timers in the lists. -/
theorem Apart.removeTimerByWorker {s : Sched τ} {w : Nat} (h : s.Apart w) {l : ListId} {t : τ}
    (ht : t ∈ ((s.removeTimerByWorker w).list l).contents) : (s.timer t).worker ≠ w :=
  (forall_worker_ne_iff_apart s w).mpr h l t ht

omit [DecidableEq τ] in
theorem filter_removeTimerByWorker (s : Sched τ) (w : Nat) (l : ListId) :
    ((s.removeTimerByWorker w).list l).contents.filter (fun t => (s.timer t).worker ≠ w) =
      (s.list l).contents.filter fun t => (s.timer t).worker ≠ w := by
  rw [contents_removeTimerByWorker, Chain.contents, List.filter_flatMap, List.filter_flatMap]
  refine congrArg (fun f => (s.list l).flatMap f) (funext fun a => ?_)
  simpa using filter_dropByWorker (fun t => decide ((s.timer t).worker = w)) a.entries

theorem occ_removeTimerByWorker {s : Sched τ} {w : Nat} {t : τ} (h : (s.timer t).worker ≠ w)
    (l : ListId) : (s.removeTimerByWorker w).occ l t = s.occ l t := by
  have hkept : ∀ ts : List τ,
      (ts.filter fun t => (s.timer t).worker ≠ w).count t = ts.count t :=
    fun ts => List.count_filter (by simpa using h)
  have hcount := congrArg (List.count t) (filter_removeTimerByWorker s w l)
  rwa [hkept, hkept] at hcount

theorem positions_removeTimerByWorker {s : Sched τ} {w : Nat} {t : τ}
    (h : (s.timer t).worker ≠ w) : (s.removeTimerByWorker w).positions t = s.positions t := by
  simp only [positions, occ_removeTimerByWorker h]

omit [DecidableEq τ] in
/-- `remove_timer_by_worker` takes the timers of the worker out of all lists and leaves the
others in their order, if and only if in no array two neighbours are timers of the
worker. -/
theorem remove_timer_by_worker_iff (s : Sched τ) (w : Nat) :
    ((∀ l, ∀ t ∈ ((s.removeTimerByWorker w).list l).contents, (s.timer t).worker ≠ w) ∧
      ∀ l, ((s.removeTimerByWorker w).list l).contents.filter
          (fun t => (s.timer t).worker ≠ w) =
        (s.list l).contents.filter fun t => (s.timer t).worker ≠ w) ↔ s.Apart w := by
  rw [forall_worker_ne_iff_apart]
  exact and_iff_left fun l => filter_removeTimerByWorker s w l

/-- Two neighbours in the first work list, both timers of worker 1. -/
def twoNeighbours : Sched Bool where
  timer _ := ⟨.running, some (freshTimer 1), [], 1⟩
  list := Function.update (fun _ => initTmlistResource) ⟨.timer, .work1⟩
    [⟨[false, true], by decide⟩]
  action _ := ⟨fun _ => 0⟩
  touched := []
  awakened := []

/-- The second of them moves into the place of the first and is passed over. -/
theorem neighbour_of_removed_stays :
    ¬ ∀ (s : Sched Bool) (w : Nat),
      (∀ l, ∀ t ∈ ((s.removeTimerByWorker w).list l).contents, (s.timer t).worker ≠ w) ∧
      ∀ l, ((s.removeTimerByWorker w).list l).contents.filter
          (fun t => (s.timer t).worker ≠ w) =
        (s.list l).contents.filter fun t => (s.timer t).worker ≠ w := by
  intro h
  exact (h twoNeighbours 1).1 ⟨.timer, .work1⟩ true (by decide) rfl

/-! ## A single timer -/

theorem positions_ofOne (l : ListId) (r : TimerRes) : (ofOne l r).positions () = 1 := by
  have hsum : (ListId.all.map ((ofOne l r).occ · ())).sum =
      (ListId.all.map fun _ => 0).sum + 1 := by
    refine sum_all_eq (l := l) fun l' => ?_
    by_cases h : l' = l
    · subst h
      simp [occ, ofOne, Chain.contents, BArray.single]
    · simp [occ, ofOne, h, initTmlistResource, Chain.contents, BArray.empty]
  exact hsum

theorem mem_ofOne {l l' : ListId} {r : TimerRes} (h : () ∈ ((ofOne l r).list l').contents) :
    l' = l := by
  by_contra hne
  simp [ofOne, hne, initTmlistResource, Chain.contents, BArray.empty] at h

end Sched

end LMiced
