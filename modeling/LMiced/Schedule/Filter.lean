import LMiced.Lib.Chain

/-!
# Task filters

The processing of one task by `schedule_task_proc` of `schedule/action_schedule.c`. The
filters of a task stand in a table by direction, mode and level, in chains of chunks
(`schedule/task_filter.h`). At each level the filters of the terminate mode come first,
and one of them can end the processing of the task.

A callback may do anything to the task and to the rest of the world, so the world is passed
through the walk, and whether a filter matches is decided when the filter is reached. The
walk writes a log of the callbacks, with what they return, and of the end of the
processing.

* `taskSpec` is what the processing of a task is meant to do;
* `scheduleTaskProc_eq_of_orderly`, `orderly_of_clean`: the walk of the source is that,
  if the table is in a certain order for the task, and only then;
* `schedule_task_proc_iff` puts the two together.
-/

namespace LMiced

/-! ## Tasks and filters -/

/-- `lmtsk_id_t`. -/
structure LmtskId where
  dataId : UInt64
  typeId : UInt64
  tickTime : UInt64
  objectId : UInt64
deriving DecidableEq, Repr

/-- `LMICE_TASK_PROC_IN` and `LMICE_TASK_PROC_OUT`. -/
inductive ProcDirection
  | procIn
  | procOut
deriving DecidableEq, Repr

/-- `LMICE_TASK_PROC_PASS` and `LMICE_TASK_PROC_TERMINATE`. -/
inductive ProcMode
  | pass
  | terminate
deriving DecidableEq, Repr

/-- `lmnet_pkg_t`, of which only the byte order is looked at here. -/
structure LmnetPkg where
  endian : UInt8
deriving DecidableEq, Repr

/-- `lmshd_task_t`; `none` is a task without data. -/
structure LmshdTask where
  pd : ProcDirection
  tid : LmtskId
  pdata : Option LmnetPkg
deriving DecidableEq, Repr

/-- `lmflt_cond_t`. -/
structure LmfltCond where
  flt : UInt64
  tid : LmtskId
deriving DecidableEq, Repr

/-- `LMICE_FILTER_DATA_BIG_ENDIAN`. -/
def filterDataBigEndian : UInt64 := 1

/-- `eal_is_big_endian`, a cast of a short to a char. -/
def ealIsBigEndian : UInt8 := (0x0100 : UInt16).toUInt8

/-- `lmice_check_condition`: 0 when the task meets the condition. -/
def lmiceCheckCondition (task : LmshdTask) (cond : LmfltCond) : Int :=
  let ret := match task.pdata with
    | some pkg =>
      if cond.flt &&& filterDataBigEndian ≠ 0 ∧ pkg.endian = ealIsBigEndian then 0 else 1
    | none => 1
  if (cond.tid.dataId = 0 ∨ cond.tid.dataId = task.tid.dataId) ∧
      (cond.tid.typeId = 0 ∨ cond.tid.typeId = task.tid.typeId) ∧
      (cond.tid.tickTime = 0 ∨ cond.tid.tickTime = task.tid.tickTime) ∧
      (cond.tid.objectId = 0 ∨ cond.tid.objectId = task.tid.objectId) then 0
  else ret

/-- What the filters `φ` are in a world `σ`: their conditions and callbacks, and where the
task is that is processed. -/
structure FilterEnv (φ σ : Type) where
  task : σ → LmshdTask
  cond : φ → LmfltCond
  cb : φ → σ → Int × σ

/-- `LMICE_FILTER_LIST_SIZE`. -/
abbrev filterListSize : Nat := 63

/-- `lmflt_list_t` with its `next` lists. -/
abbrev LmfltList (φ : Type) := Chain filterListSize φ

/-- `taskfilter_list`, an array of `TASK_FILTER_LIST_SIZE` lists. -/
abbrev FilterTable (φ : Type) := Fin 16 → LmfltList φ

def ProcDirection.code : ProcDirection → Fin 2
  | procIn => 0
  | procOut => 1

def ProcMode.code : ProcMode → Fin 2
  | pass => 0
  | terminate => 1

/-- `LMICE_GET_FILTER_LIST`. -/
def getFilterList {φ : Type} (table : FilterTable φ) (pdir : ProcDirection) (pmode : ProcMode)
    (plevel : Fin 4) : LmfltList φ :=
  table ⟨pdir.code.val + pmode.code.val <<< 1 + plevel.val <<< 2, by
    have hdir := pdir.code.isLt
    have hmode := pmode.code.isLt
    have hlevel := plevel.isLt
    simp only [Nat.shiftLeft_eq]
    omega⟩

/-- What is logged: the callback of a filter of a mode with its return value, and the end
of the processing. -/
inductive TaskMark (φ : Type)
  | call (pmode : ProcMode) (filter : φ) (ret : Int)
  | stop
deriving DecidableEq, Repr

/-- The log of a part of the walk, whether `term_flag` is set behind it, and the world. -/
structure Outcome (φ σ : Type) where
  marks : List (TaskMark φ)
  termFlag : Bool
  world : σ
deriving DecidableEq, Repr

/-- The marks of an earlier part of the walk come first. -/
def Outcome.after {φ σ : Type} (outcome : Outcome φ σ) (marks : List (TaskMark φ)) :
    Outcome φ σ :=
  { outcome with marks := marks ++ outcome.marks }

/-! ## The walk of the source -/

namespace FilterEnv

variable {φ σ : Type} (env : FilterEnv φ σ)

def check (filter : φ) (world : σ) : Int :=
  lmiceCheckCondition (env.task world) (env.cond filter)

/-- Check the condition and call the callback: the marks, `ret` and the world. -/
def apply (pmode : ProcMode) (filter : φ) (world : σ) : List (TaskMark φ) × Int × σ :=
  let ret := env.check filter world
  if ret = 0 then
    let called := env.cb filter world
    ([.call pmode filter called.1], called.1, called.2)
  else ([], ret, world)

/-- Set `term_flag`; it is logged when it was not set before. -/
def setTermFlag (termFlag : Bool) : List (TaskMark φ) := if termFlag then [] else [.stop]

/-- The filters of one chunk of a terminate list, up to the break. -/
def terminateFor (termFlag : Bool) : List φ → σ → Outcome φ σ
  | [], world => ⟨[], termFlag, world⟩
  | filter :: filters, world =>
    let applied := env.apply .terminate filter world
    if applied.2.1 ≠ 0 then ⟨applied.1 ++ setTermFlag termFlag, true, applied.2.2⟩
    else (terminateFor termFlag filters applied.2.2).after applied.1

/-- The chunks of a terminate list. The break leaves the chunk only. -/
def terminateList (termFlag : Bool) : LmfltList φ → σ → Outcome φ σ
  | [], world => ⟨[], termFlag, world⟩
  | chunk :: chunks, world =>
    let walked := env.terminateFor termFlag chunk.entries world
    (terminateList walked.termFlag chunks walked.world).after walked.marks

/-- The filters of one chunk of a pass list. -/
def passFor : List φ → σ → Outcome φ σ
  | [], world => ⟨[], false, world⟩
  | filter :: filters, world =>
    let applied := env.apply .pass filter world
    (passFor filters applied.2.2).after applied.1

/-- The chunks of a pass list. -/
def passList : LmfltList φ → σ → Outcome φ σ
  | [], world => ⟨[], false, world⟩
  | chunk :: chunks, world =>
    let walked := env.passFor chunk.entries world
    (passList chunks walked.world).after walked.marks

/-- The loop over the levels. -/
def levelFor (table : FilterTable φ) : List (Fin 4) → σ → Outcome φ σ
  | [], world => ⟨[], false, world⟩
  | level :: levels, world =>
    let terminated :=
      env.terminateList false (getFilterList table (env.task world).pd .terminate level) world
    if terminated.termFlag then terminated
    else
      let passed := env.passList
        (getFilterList table (env.task terminated.world).pd .pass level) terminated.world
      (levelFor table levels passed.world).after (terminated.marks ++ passed.marks)

/-- The levels in the order of the direction. -/
def levelsOf : ProcDirection → List (Fin 4)
  | .procIn => [0, 1, 2, 3]
  | .procOut => [3, 2, 1, 0]

/-- `schedule_task_proc`, from the acquiring of a task to its release. -/
def scheduleTaskProc (table : FilterTable φ) (world : σ) : Outcome φ σ :=
  env.levelFor table (levelsOf (env.task world).pd) world

/-! ## What it is meant to do -/

/-- The terminate filters: those that match are called, until one returns non-zero. -/
def terminateSpec : List φ → σ → Outcome φ σ
  | [], world => ⟨[], false, world⟩
  | filter :: filters, world =>
    if env.check filter world = 0 then
      let called := env.cb filter world
      if called.1 ≠ 0 then ⟨[.call .terminate filter called.1, .stop], true, called.2⟩
      else (terminateSpec filters called.2).after [.call .terminate filter called.1]
    else terminateSpec filters world

/-- The pass filters: those that match are called. -/
def passSpec : List φ → σ → Outcome φ σ
  | [], world => ⟨[], false, world⟩
  | filter :: filters, world =>
    if env.check filter world = 0 then
      let called := env.cb filter world
      (passSpec filters called.2).after [.call .pass filter called.1]
    else passSpec filters world

/-- The levels: the terminate filters over all chunks, then the pass filters. -/
def levelSpec (table : FilterTable φ) : List (Fin 4) → σ → Outcome φ σ
  | [], world => ⟨[], false, world⟩
  | level :: levels, world =>
    let terminated := env.terminateSpec
      (getFilterList table (env.task world).pd .terminate level).contents world
    if terminated.termFlag then terminated
    else
      let passed := env.passSpec
        (getFilterList table (env.task terminated.world).pd .pass level).contents terminated.world
      (levelSpec table levels passed.world).after (terminated.marks ++ passed.marks)

/-- The processing of a task. -/
def taskSpec (table : FilterTable φ) (world : σ) : Outcome φ σ :=
  env.levelSpec table (levelsOf (env.task world).pd) world

/-! ## When it does -/

/-- The walk calls nothing in the chunk: the chunk is empty, or begins with a filter that
does not match. -/
def Silent (chunk : BArray filterListSize φ) (world : σ) : Prop :=
  ∀ filter ∈ chunk.entries.head?, env.check filter world ≠ 0

/-- Every filter that is reached matches, until a callback returns non-zero, and then the
later chunks are silent. `next` is what is asked of the later chunks otherwise. -/
def OrderlyFor (next : σ → Prop) (chunks : LmfltList φ) : List φ → σ → Prop
  | [], world => next world
  | filter :: filters, world =>
    env.check filter world = 0 ∧
      if (env.cb filter world).1 ≠ 0 then
        ∀ chunk ∈ chunks, env.Silent chunk (env.cb filter world).2
      else OrderlyFor next chunks filters (env.cb filter world).2

/-- A terminate list in which the walk does what it is meant to do. -/
def OrderlyList : LmfltList φ → σ → Prop
  | [], _ => True
  | chunk :: chunks, world =>
    env.OrderlyFor (OrderlyList chunks) chunks chunk.entries world

/-- The terminate lists of all levels that are reached are orderly. -/
def OrderlyLevels (table : FilterTable φ) : List (Fin 4) → σ → Prop
  | [], _ => True
  | level :: levels, world =>
    let terminated := env.terminateSpec
      (getFilterList table (env.task world).pd .terminate level).contents world
    env.OrderlyList (getFilterList table (env.task world).pd .terminate level) world ∧
      (terminated.termFlag = false →
        OrderlyLevels table levels (env.passSpec
          (getFilterList table (env.task terminated.world).pd .pass level).contents
          terminated.world).world)

/-- The table is orderly for the task. -/
def Orderly (table : FilterTable φ) (world : σ) : Prop :=
  env.OrderlyLevels table (levelsOf (env.task world).pd) world

end FilterEnv

/-! ## Clean logs -/

/-- The callback of a terminate filter that ends the processing. -/
def TaskMark.Ends {φ : Type} : TaskMark φ → Prop
  | call pmode _ ret => pmode = .terminate ∧ ret ≠ 0
  | stop => False

/-- The processing is ended by a callback, and nothing comes after that. -/
def Clean {φ : Type} (marks : List (TaskMark φ)) : Prop :=
  ∀ before after, marks = before ++ .stop :: after →
    after = [] ∧ ∃ earlier mark, before = earlier ++ [mark] ∧ mark.Ends

namespace Clean

variable {φ : Type} {marks marks' : List (TaskMark φ)}

theorem not_stop_cons : ¬ Clean (.stop :: marks) := by
  intro h
  obtain ⟨_, earlier, mark, hbefore, _⟩ := h [] marks rfl
  simp at hbefore

theorem of_append_left (h : Clean (marks ++ marks')) : Clean marks := by
  rintro before after rfl
  obtain ⟨hafter, hends⟩ := h before (after ++ marks') (by simp)
  exact ⟨(List.append_eq_nil_iff.mp hafter).1, hends⟩

/-- Behind marks that do not end the processing the log is clean by itself. -/
theorem of_append_right (hmarks : ∀ mark ∈ marks, ¬ mark.Ends) (h : Clean (marks ++ marks')) :
    Clean marks' := by
  rintro before after rfl
  obtain ⟨hafter, earlier, mark, hbefore, hends⟩ := h (marks ++ before) after (by simp)
  refine ⟨hafter, ?_⟩
  rcases List.eq_nil_or_concat before with rfl | ⟨earlier', mark', rfl⟩
  · rw [List.append_nil] at hbefore
    exact absurd hends (hmarks mark (by simp [hbefore]))
  · rw [List.concat_eq_append, ← List.append_assoc] at hbefore
    obtain rfl := List.cons.inj (List.append_inj' hbefore rfl).2 |>.1
    exact ⟨earlier', mark', List.concat_eq_append, hends⟩

theorem nil : Clean ([] : List (TaskMark φ)) := by
  intro before after h
  simp at h

theorem cons {mark : TaskMark φ} (hmark : mark ≠ .stop) (h : Clean marks) :
    Clean (mark :: marks) := by
  intro before after hmarks
  cases before with
  | nil => exact absurd (List.cons.inj hmarks).1 hmark
  | cons first before =>
    obtain ⟨rfl, hrest⟩ := List.cons.inj hmarks
    obtain ⟨hafter, earlier, last, rfl, hends⟩ := h before after hrest
    exact ⟨hafter, mark :: earlier, last, rfl, hends⟩

theorem append (hmarks : .stop ∉ marks) (h : Clean marks') : Clean (marks ++ marks') := by
  induction marks with
  | nil => exact h
  | cons mark marks ih =>
    rw [List.mem_cons, not_or] at hmarks
    exact (ih hmarks.2).cons (Ne.symm hmarks.1)

theorem ends {mark : TaskMark φ} (hends : mark.Ends) : Clean [mark, .stop] := by
  intro before after hmarks
  cases before with
  | nil =>
    obtain rfl := (List.cons.inj hmarks).1
    exact hends.elim
  | cons first before =>
    obtain ⟨rfl, hrest⟩ := List.cons.inj hmarks
    cases before with
    | nil => exact ⟨(List.cons.inj hrest).2.symm, [], mark, rfl, hends⟩
    | cons second before => simp at hrest

end Clean

namespace FilterEnv

variable {φ σ : Type} {env : FilterEnv φ σ}

/-! ## The pass lists -/

theorem passFor_eq (filters : List φ) (world : σ) :
    env.passFor filters world = env.passSpec filters world := by
  induction filters generalizing world with
  | nil => rfl
  | cons filter filters ih =>
    unfold passFor passSpec apply
    by_cases hcheck : env.check filter world = 0
    · simp [hcheck, ih]
    · simp [hcheck, ih, Outcome.after]

theorem passSpec_append (filters filters' : List φ) (world : σ) :
    env.passSpec (filters ++ filters') world =
      (env.passSpec filters' (env.passSpec filters world).world).after
        (env.passSpec filters world).marks := by
  induction filters generalizing world with
  | nil => simp [passSpec, Outcome.after]
  | cons filter filters ih =>
    rw [List.cons_append, passSpec, passSpec]
    split
    · simp [ih, Outcome.after]
    · exact ih world

theorem passList_eq (chunks : LmfltList φ) (world : σ) :
    env.passList chunks world = env.passSpec chunks.contents world := by
  induction chunks generalizing world with
  | nil => rfl
  | cons chunk chunks ih =>
    rw [passList, Chain.contents_cons, passSpec_append]
    simp only [passFor_eq, ih]

/-! ## The terminate lists -/

/-- The rest of a chunk and the chunks behind it. -/
def terminateFrom (env : FilterEnv φ σ) (termFlag : Bool) (filters : List φ)
    (chunks : LmfltList φ) (world : σ) : Outcome φ σ :=
  let walked := env.terminateFor termFlag filters world
  (env.terminateList walked.termFlag chunks walked.world).after walked.marks

section From

variable {filter : φ} {filters : List φ} {chunks : LmfltList φ} {world : σ} {termFlag : Bool}

theorem terminateFrom_nil :
    env.terminateFrom termFlag [] chunks world = env.terminateList termFlag chunks world := by
  simp [terminateFrom, terminateFor, Outcome.after]

/-- A filter that does not match stops the chunk. -/
theorem terminateFrom_of_check_ne (hcheck : env.check filter world ≠ 0) :
    env.terminateFrom termFlag (filter :: filters) chunks world =
      (env.terminateList true chunks world).after (setTermFlag termFlag) := by
  simp [terminateFrom, terminateFor, apply, hcheck]

theorem terminateFrom_of_ret_ne (hcheck : env.check filter world = 0)
    (hret : (env.cb filter world).1 ≠ 0) :
    env.terminateFrom termFlag (filter :: filters) chunks world =
      (env.terminateList true chunks (env.cb filter world).2).after
        (.call .terminate filter (env.cb filter world).1 :: setTermFlag termFlag) := by
  simp [terminateFrom, terminateFor, apply, hcheck, hret]

theorem terminateFrom_of_ret_eq (hcheck : env.check filter world = 0)
    (hret : (env.cb filter world).1 = 0) :
    env.terminateFrom termFlag (filter :: filters) chunks world =
      (env.terminateFrom termFlag filters chunks (env.cb filter world).2).after
        [.call .terminate filter 0] := by
  simp [terminateFrom, terminateFor, apply, hcheck, hret, Outcome.after]

/-- Behind the end of the processing nothing happens in silent chunks. -/
theorem terminateList_of_silent (h : ∀ chunk ∈ chunks, env.Silent chunk world) :
    env.terminateList true chunks world = ⟨[], true, world⟩ := by
  induction chunks with
  | nil => rfl
  | cons chunk chunks ih =>
    obtain ⟨hchunk, hchunks⟩ := List.forall_mem_cons.mp h
    show env.terminateFrom true chunk.entries chunks world = _
    unfold Silent at hchunk
    cases hentries : chunk.entries with
    | nil => rw [terminateFrom_nil, ih hchunks]
    | cons filter filters =>
      have hcheck : env.check filter world ≠ 0 := hchunk filter (by rw [hentries]; rfl)
      rw [terminateFrom_of_check_ne hcheck, ih hchunks]
      rfl

/-- Only silent chunks log nothing. -/
theorem silent_of_terminateList (h : (env.terminateList true chunks world).marks = []) :
    ∀ chunk ∈ chunks, env.Silent chunk world := by
  induction chunks with
  | nil => simp
  | cons chunk chunks ih =>
    change (env.terminateFrom true chunk.entries chunks world).marks = [] at h
    unfold Silent
    cases hentries : chunk.entries with
    | nil =>
      rw [hentries, terminateFrom_nil] at h
      exact List.forall_mem_cons.mpr ⟨by simp [hentries], ih h⟩
    | cons filter filters =>
      rw [hentries] at h
      have hcheck : env.check filter world ≠ 0 := by
        intro hcheck
        by_cases hret : (env.cb filter world).1 = 0
        · simp [terminateFrom_of_ret_eq hcheck hret, Outcome.after] at h
        · simp [terminateFrom_of_ret_ne hcheck hret, Outcome.after] at h
      rw [terminateFrom_of_check_ne hcheck] at h
      exact List.forall_mem_cons.mpr ⟨by simp [hentries, hcheck], ih h⟩

/-- An orderly list is walked as it is meant to be. -/
theorem terminateFrom_eq_of_orderly {next : σ → Prop}
    (hnext : ∀ world, next world →
      env.terminateList false chunks world = env.terminateSpec chunks.contents world)
    (h : env.OrderlyFor next chunks filters world) :
    env.terminateFrom false filters chunks world =
      env.terminateSpec (filters ++ chunks.contents) world := by
  induction filters generalizing world with
  | nil => rw [terminateFrom_nil, List.nil_append, hnext world h]
  | cons filter filters ih =>
    obtain ⟨hcheck, h⟩ := h
    rw [List.cons_append, terminateSpec, if_pos hcheck]
    by_cases hret : (env.cb filter world).1 = 0
    · rw [if_neg (not_not.mpr hret)] at h
      rw [terminateFrom_of_ret_eq hcheck hret, ih h]
      simp [hret]
    · rw [if_pos hret] at h
      rw [terminateFrom_of_ret_ne hcheck hret, terminateList_of_silent h]
      simp [hret, Outcome.after, setTermFlag]

theorem terminateList_eq_of_orderly (h : env.OrderlyList chunks world) :
    env.terminateList false chunks world = env.terminateSpec chunks.contents world := by
  induction chunks generalizing world with
  | nil => rfl
  | cons chunk chunks ih => exact terminateFrom_eq_of_orderly (fun _ hnext => ih hnext) h

/-- Nothing that is logged in a list before the end of the processing ends it. -/
theorem terminateSpec_marks (h : (env.terminateSpec filters world).termFlag = false) :
    ∀ mark ∈ (env.terminateSpec filters world).marks, mark ≠ .stop ∧ ¬ mark.Ends := by
  induction filters generalizing world with
  | nil => simp [terminateSpec]
  | cons filter filters ih =>
    rw [terminateSpec] at h ⊢
    split at h
    · next hcheck =>
      rw [if_pos hcheck]
      dsimp only at h ⊢
      split at h
      · cases h
      · next hret =>
        rw [if_neg hret]
        refine List.forall_mem_cons.mpr ⟨⟨by simp, ?_⟩, ih h⟩
        simpa [TaskMark.Ends] using hret
    · next hcheck =>
      rw [if_neg hcheck]
      exact ih h

theorem passSpec_marks :
    ∀ mark ∈ (env.passSpec filters world).marks, mark ≠ .stop ∧ ¬ mark.Ends := by
  induction filters generalizing world with
  | nil => simp [passSpec]
  | cons filter filters ih =>
    rw [passSpec]
    split
    · exact List.forall_mem_cons.mpr ⟨⟨by simp, by simp [TaskMark.Ends]⟩, ih⟩
    · exact ih

/-- The processing is meant to be ended by a callback only. -/
theorem clean_terminateSpec : Clean (env.terminateSpec filters world).marks := by
  induction filters generalizing world with
  | nil => exact .nil
  | cons filter filters ih =>
    rw [terminateSpec]
    split
    · dsimp only
      split
      · next hret => exact .ends ⟨rfl, hret⟩
      · exact ih.cons (by simp)
    · exact ih

/-- A list whose walk is clean is orderly. -/
theorem orderlyFor_of_clean {next : σ → Prop}
    (hnext : ∀ world, Clean (env.terminateList false chunks world).marks → next world)
    (h : Clean (env.terminateFrom false filters chunks world).marks) :
    env.OrderlyFor next chunks filters world := by
  induction filters generalizing world with
  | nil =>
    rw [terminateFrom_nil] at h
    exact hnext world h
  | cons filter filters ih =>
    have hcheck : env.check filter world = 0 := by
      by_contra hcheck
      rw [terminateFrom_of_check_ne hcheck] at h
      exact h.not_stop_cons
    refine ⟨hcheck, ?_⟩
    by_cases hret : (env.cb filter world).1 = 0
    · rw [if_neg (not_not.mpr hret)]
      rw [terminateFrom_of_ret_eq hcheck hret] at h
      exact ih (h.of_append_right (by simp [TaskMark.Ends]))
    · rw [if_pos hret]
      rw [terminateFrom_of_ret_ne hcheck hret] at h
      exact silent_of_terminateList (h [_] _ rfl).1

theorem orderlyList_of_clean (h : Clean (env.terminateList false chunks world).marks) :
    env.OrderlyList chunks world := by
  induction chunks generalizing world with
  | nil => trivial
  | cons chunk chunks ih => exact orderlyFor_of_clean (fun _ hnext => ih hnext) h

end From

/-! ## The levels -/

section Levels

variable {table : FilterTable φ} {levels : List (Fin 4)} {world : σ}

theorem levelFor_eq_of_orderly (h : env.OrderlyLevels table levels world) :
    env.levelFor table levels world = env.levelSpec table levels world := by
  induction levels generalizing world with
  | nil => rfl
  | cons level levels ih =>
    obtain ⟨hlist, hlevels⟩ := h
    rw [levelFor, levelSpec]
    simp only [terminateList_eq_of_orderly hlist, passList_eq]
    split
    · rfl
    · next hflag => rw [ih (hlevels (Bool.not_eq_true _ ▸ hflag))]

theorem clean_levelSpec : Clean (env.levelSpec table levels world).marks := by
  induction levels generalizing world with
  | nil => exact .nil
  | cons level levels ih =>
    rw [levelSpec]
    dsimp only
    split
    · exact clean_terminateSpec
    · next hflag =>
      refine Clean.append ?_ ih
      rw [List.mem_append]
      rintro (hmem | hmem)
      · exact (terminateSpec_marks (Bool.not_eq_true _ ▸ hflag) _ hmem).1 rfl
      · exact (passSpec_marks _ hmem).1 rfl

theorem orderlyLevels_of_clean (h : Clean (env.levelFor table levels world).marks) :
    env.OrderlyLevels table levels world := by
  induction levels generalizing world with
  | nil => trivial
  | cons level levels ih =>
    rw [levelFor] at h
    dsimp only at h
    have hlist :
        env.OrderlyList (getFilterList table (env.task world).pd .terminate level) world := by
      apply orderlyList_of_clean
      split at h
      · exact h
      · exact Clean.of_append_left (Clean.of_append_left h)
    rw [terminateList_eq_of_orderly hlist] at h
    refine ⟨hlist, fun hflag => ih ?_⟩
    rw [if_neg (by simp [hflag]), passList_eq] at h
    refine Clean.of_append_right ?_ h
    intro mark hmem
    rcases List.mem_append.mp hmem with hmem | hmem
    · exact (terminateSpec_marks hflag _ hmem).2
    · exact (passSpec_marks _ hmem).2

end Levels

end FilterEnv

/-- The callbacks of a task and the end of its processing are as they are meant to be, if and
only if, at every level that is reached, the terminate filters that come before the first
non-zero return value all match, and the chunks behind the one with that return value
are empty or begin with a filter that does not match. -/
theorem schedule_task_proc_iff {φ σ : Type} (env : FilterEnv φ σ) (table : FilterTable φ)
    (world : σ) :
    (env.scheduleTaskProc table world).marks = (env.taskSpec table world).marks ↔
      env.Orderly table world := by
  constructor
  · intro h
    refine FilterEnv.orderlyLevels_of_clean ?_
    show Clean (env.scheduleTaskProc table world).marks
    rw [h]
    exact FilterEnv.clean_levelSpec
  · intro h
    exact congrArg Outcome.marks (FilterEnv.levelFor_eq_of_orderly h)

/-! ## A filter that does not match -/

/-- Filters with a fixed return value, and a world that is the task. -/
def constFilters : FilterEnv (LmfltCond × Int) LmshdTask where
  task := id
  cond := Prod.fst
  cb filter task := (filter.2, task)

/-- An incoming task of type 1. -/
def typeOneTask : LmshdTask := ⟨.procIn, ⟨0, 1, 0, 0⟩, none⟩

/-- One filter in the terminate list of level 0 for tasks of type 2, and one in the pass list
of level 0 for all tasks. -/
def mixedTable : FilterTable (LmfltCond × Int) := fun i =>
  if i = 2 then [⟨[(⟨0, ⟨0, 2, 0, 0⟩⟩, 0)], by decide⟩]
  else if i = 0 then [⟨[(⟨0, ⟨0, 0, 0, 0⟩⟩, 0)], by decide⟩]
  else [BArray.empty]

/-- The filter for tasks of type 2 stops the task of type 1. -/
theorem unmatched_filter_stops :
    ¬ ∀ (φ σ : Type) (env : FilterEnv φ σ) (table : FilterTable φ) (world : σ),
      (env.scheduleTaskProc table world).marks = (env.taskSpec table world).marks := by
  intro h
  exact absurd (h _ _ constFilters mixedTable typeOneTask) (by decide +kernel)

end LMiced
