import LMiced.Lib.Run
import LMiced.Lib.Fifo

/-!
# Critical sections

Any number of threads call functions that work on shared data under one lock. A thread
takes the lock with a compare-and-swap that it repeats until it succeeds or gives up, runs
the body of its call in small steps, and releases the lock. The threads are interleaved in
any order, one small step at a time.

* `Inv` is what every step preserves: at most one thread is inside, and the data is what the
  completed calls have made of it, up to the steps of the thread that is inside;
* `serial_of_run`: the answers of all completed calls are those of running the calls one at
  a time, in the order in which they completed;
* `exclusive_of_run`: two threads are never inside at once;
* `leaves_of_run`: a thread that is inside completes its call by its own steps.
-/

namespace Machine

variable {ι ο σ : Type*} {step : ι → σ → ο × σ}

theorem after_concat (is : List ι) (i : ι) (s : σ) :
    after step (is ++ [i]) s = (step i (after step is s)).2 :=
  List.foldl_append

theorem answers_concat (is : List ι) (i : ι) (s : σ) :
    answers step (is ++ [i]) s = answers step is s ++ [(step i (after step is s)).1] := by
  induction is generalizing s with
  | nil => rfl
  | cons head is ih =>
    rw [List.cons_append, answers, ih, answers]
    rfl

/-- Inputs under another name. -/
theorem after_map {ι' : Type*} {step' : ι' → σ → ο × σ} {f : ι' → ι}
    (h : ∀ i s, step' i s = step (f i) s) (is : List ι') (s : σ) :
    after step' is s = after step (is.map f) s := by
  rw [after, after, List.foldl_map]
  exact List.foldl_ext _ _ _ fun s i _ => congrArg Prod.snd (h i s)

theorem answers_map {ι' : Type*} {step' : ι' → σ → ο × σ} {f : ι' → ι}
    (h : ∀ i s, step' i s = step (f i) s) (is : List ι') (s : σ) :
    answers step' is s = answers step (is.map f) s := by
  induction is generalizing s with
  | nil => rfl
  | cons i is ih => rw [answers, List.map_cons, answers, ih, h]

end Machine

namespace Critical

open StateTransition

variable {ι W κ ω τ σ ρ : Type*}

/-! ## Threads and their lock -/

/-- The values of a lock word, and what the release makes of it. -/
structure LockWord (W : Type*) where
  free : W
  taken : W
  release : W → W
  taken_ne_free : taken ≠ free
  release_taken : release taken = free

/-- How the calls wait for the lock, and their bodies. A waiting thread has counters of type
`ω`, and gives up when `failed` says so; a thread inside has local variables of type `τ`. -/
structure Code (W κ ω τ σ ρ : Type*) where
  word : LockWord W
  wait : κ → ω
  failed : ω → Option ω
  refused : κ → ρ
  enter : κ → τ
  next : τ × σ → Option (τ × σ)
  result : τ → ρ

/-- Where a thread is. -/
inductive Phase (κ ω τ : Type*)
  | idle
  | waiting (call : κ) (counters : ω)
  | inside (call : κ) (locals : τ)

theorem Phase.idle_ne_inside {c : κ} {locals : τ} :
    (Phase.idle : Phase κ ω τ) ≠ .inside c locals := by
  intro h
  cases h

theorem Phase.waiting_ne_inside {c c' : κ} {counters : ω} {locals : τ} :
    (Phase.waiting c counters : Phase κ ω τ) ≠ .inside c' locals := by
  intro h
  cases h

/-- A completed call: whether the lock was refused to it, and what it returned. -/
structure Entry (ι κ ρ : Type*) where
  thread : ι
  call : κ
  refused : Bool
  answer : ρ

/-- The lock, the data, the threads, and the completed calls, the first one first. -/
structure State (ι W κ ω τ σ ρ : Type*) where
  lock : W
  data : σ
  phase : ι → Phase κ ω τ
  log : List (Entry ι κ ρ)

/-- A thread makes a call, or it does its next step. -/
inductive Event (ι κ : Type*)
  | call (thread : ι) (call : κ)
  | act (thread : ι)

variable (code : Code W κ ω τ σ ρ)

namespace State

/-- The state before the first call. -/
def start (data : σ) : State ι W κ ω τ σ ρ := ⟨code.word.free, data, fun _ => .idle, []⟩

variable [DecidableEq ι]

/-- The next phase of a thread. -/
def setPhase (s : State ι W κ ω τ σ ρ) (i : ι) (phase : Phase κ ω τ) : State ι W κ ω τ σ ρ :=
  { s with phase := Function.update s.phase i phase }

/-- A thread returns from its call. -/
def complete (s : State ι W κ ω τ σ ρ) (i : ι) (c : κ) (refused : Bool) (answer : ρ) :
    State ι W κ ω τ σ ρ :=
  { s.setPhase i .idle with log := s.log ++ [⟨i, c, refused, answer⟩] }

end State

section Steps

variable [DecidableEq ι] [DecidableEq W]

/-- The next step of a thread. -/
def act (i : ι) (s : State ι W κ ω τ σ ρ) : Option (State ι W κ ω τ σ ρ) :=
  match s.phase i with
  | .idle => none
  | .waiting c counters =>
    if s.lock = code.word.free then
      some { s.setPhase i (.inside c (code.enter c)) with lock := code.word.taken }
    else
      match code.failed counters with
      | some counters => some (s.setPhase i (.waiting c counters))
      | none => some (s.complete i c true (code.refused c))
  | .inside c locals =>
    match code.next (locals, s.data) with
    | some (locals, data) => some { s.setPhase i (.inside c locals) with data }
    | none =>
      some { s.complete i c false (code.result locals) with lock := code.word.release s.lock }

/-- One event. -/
def step : Event ι κ → State ι W κ ω τ σ ρ → Option (State ι W κ ω τ σ ρ)
  | .call i c, s =>
    match s.phase i with
    | .idle => some (s.setPhase i (.waiting c (code.wait c)))
    | _ => none
  | .act i, s => act code i s

/-- Every interleaving of any calls. -/
def Reachable : State ι W κ ω τ σ ρ → State ι W κ ω τ σ ρ → Prop :=
  Run.Reachable (step code) fun _ _ => True

end Steps

/-! ## One call at a time -/

/-- The body of a call, from its first step to its last, is a function of the data. -/
def Code.Implements (atomic : κ → σ → ρ × σ) : Prop :=
  ∀ c data, ∃ locals, Reaches code.next (code.enter c, data) (locals, (atomic c data).2) ∧
    code.next (locals, (atomic c data).2) = none ∧ code.result locals = (atomic c data).1

/-- A call in one step, where it may be refused. -/
def Code.serial (atomic : κ → σ → ρ × σ) (input : κ × Bool) (data : σ) : ρ × σ :=
  if input.2 then (code.refused input.1, data) else atomic input.1 data

/-- What the completed call was. -/
def Entry.input (entry : Entry ι κ ρ) : κ × Bool := (entry.call, entry.refused)

/-! ## The invariant -/

variable {code} {atomic : κ → σ → ρ × σ} {data : σ} {s t : State ι W κ ω τ σ ρ}

/-- The data that the completed calls leave. -/
def State.settled (code : Code W κ ω τ σ ρ) (atomic : κ → σ → ρ × σ) (data : σ)
    (s : State ι W κ ω τ σ ρ) : σ :=
  Machine.after (code.serial atomic) (s.log.map Entry.input) data

/-- The answers are those of one call at a time. The lock is free and the data settled, or
one thread is inside and has done some steps of its body on the settled data. -/
structure Inv (code : Code W κ ω τ σ ρ) (atomic : κ → σ → ρ × σ) (data : σ)
    (s : State ι W κ ω τ σ ρ) : Prop where
  answers : s.log.map Entry.answer =
    Machine.answers (code.serial atomic) (s.log.map Entry.input) data
  holder :
    (s.lock = code.word.free ∧ (∀ i c locals, s.phase i ≠ .inside c locals) ∧
      s.data = s.settled code atomic data) ∨
    (s.lock = code.word.taken ∧ ∃ i c locals, s.phase i = .inside c locals ∧
      (∀ j c' locals', s.phase j = .inside c' locals' → j = i) ∧
      Reaches code.next (code.enter c, s.settled code atomic data) (locals, s.data))

theorem inv_start (data : σ) :
    Inv code atomic data (State.start code data : State ι W κ ω τ σ ρ) where
  answers := rfl
  holder := Or.inl ⟨rfl, fun _ _ _ => Phase.idle_ne_inside, rfl⟩

/-- The thread that is inside, and what it has done. -/
theorem Inv.inside (h : Inv code atomic data s) {i : ι} {c : κ} {locals : τ}
    (hi : s.phase i = .inside c locals) :
    s.lock = code.word.taken ∧
      (∀ j c' locals', s.phase j = .inside c' locals' → j = i) ∧
      Reaches code.next (code.enter c, s.settled code atomic data) (locals, s.data) := by
  rcases h.holder with ⟨_, hnone, _⟩ | ⟨hlock, j, c', locals', hj, honly, hreach⟩
  · exact absurd hi (hnone i c locals)
  · obtain rfl := honly i c locals hi
    rw [hi] at hj
    cases hj
    exact ⟨hlock, honly, hreach⟩

/-- The last step of a body has the result of the call in one step. -/
theorem Code.Implements.last (himpl : code.Implements atomic) {c : κ} {locals : τ} {s t : σ}
    (hreach : Reaches code.next (code.enter c, s) (locals, t))
    (hnone : code.next (locals, t) = none) :
    code.result locals = (atomic c s).1 ∧ t = (atomic c s).2 := by
  obtain ⟨locals', hreach', hnone', hresult⟩ := himpl c s
  have hend : (locals, t) ∈ eval code.next (code.enter c, s) := mem_eval.mpr ⟨hreach, hnone⟩
  have hend' : (locals', (atomic c s).2) ∈ eval code.next (code.enter c, s) :=
    mem_eval.mpr ⟨hreach', hnone'⟩
  obtain ⟨rfl, rfl⟩ := Prod.mk.inj (Part.mem_unique hend hend')
  exact ⟨hresult, rfl⟩

variable [DecidableEq ι]

namespace State

theorem setPhase_self (s : State ι W κ ω τ σ ρ) (i : ι) (phase : Phase κ ω τ) :
    (s.setPhase i phase).phase i = phase := by
  show Function.update s.phase i phase i = phase
  rw [Function.update_self]

theorem setPhase_of_ne (s : State ι W κ ω τ σ ρ) {i j : ι} (h : j ≠ i) (phase : Phase κ ω τ) :
    (s.setPhase i phase).phase j = s.phase j := by
  show Function.update s.phase i phase j = s.phase j
  rw [Function.update_of_ne h]

/-- Who is inside after a thread has gone to a phase outside. -/
theorem inside_of_setPhase {i j : ι} {phase : Phase κ ω τ} {c : κ} {locals : τ}
    (hphase : ∀ c locals, phase ≠ .inside c locals)
    (h : (s.setPhase i phase).phase j = .inside c locals) :
    j ≠ i ∧ s.phase j = .inside c locals := by
  by_cases hj : j = i
  · subst hj
    rw [setPhase_self] at h
    exact absurd h (hphase c locals)
  · rw [setPhase_of_ne s hj] at h
    exact ⟨hj, h⟩

end State

/-- A thread that stays outside, and a log that stays as it is. -/
theorem Inv.setPhase (h : Inv code atomic data s) {i : ι} {phase : Phase κ ω τ}
    (hold : ∀ c locals, s.phase i ≠ .inside c locals)
    (hnew : ∀ c locals, phase ≠ .inside c locals) :
    Inv code atomic data (s.setPhase i phase) where
  answers := h.answers
  holder := by
    rcases h.holder with ⟨hlock, hnone, hdata⟩ | ⟨hlock, j, c, locals, hj, honly, hreach⟩
    · exact Or.inl ⟨hlock, fun k c locals hk =>
        hnone k c locals (State.inside_of_setPhase hnew hk).2, hdata⟩
    · have hne : j ≠ i := by
        rintro rfl
        exact hold c locals hj
      refine Or.inr ⟨hlock, j, c, locals, ?_, ?_, hreach⟩
      · rw [State.setPhase_of_ne s hne, hj]
      · intro k c' locals' hk
        exact honly k c' locals' (State.inside_of_setPhase hnew hk).2

/-- A completed call is one more call in the sequence. -/
theorem State.settled_complete (s : State ι W κ ω τ σ ρ) (i : ι) (c : κ) (refused : Bool)
    (answer : ρ) :
    (s.complete i c refused answer).settled code atomic data =
      (code.serial atomic (c, refused) (s.settled code atomic data)).2 := by
  show Machine.after _ ((s.log ++ [Entry.mk i c refused answer]).map Entry.input) data = _
  rw [List.map_append, List.map_singleton, Machine.after_concat]
  rfl

/-- Its answer is the one of the sequence. -/
theorem Inv.answers_complete (h : Inv code atomic data s) (i : ι) {c : κ} {refused : Bool}
    {answer : ρ}
    (hanswer : answer = (code.serial atomic (c, refused) (s.settled code atomic data)).1) :
    (s.complete i c refused answer).log.map Entry.answer =
      Machine.answers (code.serial atomic)
        ((s.complete i c refused answer).log.map Entry.input) data := by
  show (s.log ++ [Entry.mk i c refused answer]).map Entry.answer =
    Machine.answers _ ((s.log ++ [Entry.mk i c refused answer]).map Entry.input) data
  rw [List.map_append, List.map_append, List.map_singleton, List.map_singleton,
    Machine.answers_concat, h.answers]
  exact congrArg (fun a => _ ++ [a]) hanswer

/-- A thread gives up. -/
theorem Inv.refuse (h : Inv code atomic data s) {i : ι} (c : κ)
    (hold : ∀ c locals, s.phase i ≠ .inside c locals) :
    Inv code atomic data (s.complete i c true (code.refused c)) := by
  have hidle : Inv code atomic data (s.setPhase i .idle) :=
    h.setPhase hold fun _ _ => Phase.idle_ne_inside
  have hsettled : (s.complete i c true (code.refused c)).settled code atomic data =
      s.settled code atomic data := State.settled_complete s i c true _
  refine ⟨h.answers_complete i rfl, ?_⟩
  rw [hsettled]
  exact hidle.holder

/-- A thread takes the lock. -/
theorem Inv.enter (h : Inv code atomic data s) (i : ι) (c : κ)
    (hfree : s.lock = code.word.free) :
    Inv code atomic data
      { s.setPhase i (.inside c (code.enter c)) with lock := code.word.taken } := by
  rcases h.holder with ⟨_, hnone, hdata⟩ | ⟨htaken, _⟩
  · refine ⟨h.answers, Or.inr ⟨rfl, i, c, code.enter c, s.setPhase_self i _, ?_, ?_⟩⟩
    · intro j c' locals' hj
      by_contra hne
      exact hnone j c' locals' ((s.setPhase_of_ne hne _).symm.trans hj)
    · show Reaches code.next (code.enter c, s.settled code atomic data) (code.enter c, s.data)
      rw [hdata]
      exact Relation.ReflTransGen.refl
  · exact absurd (htaken.symm.trans hfree) code.word.taken_ne_free

/-- A step of a body. -/
theorem Inv.next (h : Inv code atomic data s) {i : ι} {c : κ} {locals locals' : τ} {data' : σ}
    (hi : s.phase i = .inside c locals)
    (hnext : code.next (locals, s.data) = some (locals', data')) :
    Inv code atomic data { s.setPhase i (.inside c locals') with data := data' } := by
  obtain ⟨hlock, honly, hreach⟩ := h.inside hi
  refine ⟨h.answers, Or.inr ⟨hlock, i, c, locals', s.setPhase_self i _, ?_, hreach.tail hnext⟩⟩
  intro j c' locals'' hj
  by_contra hne
  exact hne (honly j c' locals'' ((s.setPhase_of_ne hne _).symm.trans hj))

/-- A thread releases the lock. -/
theorem Inv.leave (h : Inv code atomic data s) (himpl : code.Implements atomic) {i : ι} {c : κ}
    {locals : τ} (hi : s.phase i = .inside c locals) (hnone : code.next (locals, s.data) = none) :
    Inv code atomic data
      { s.complete i c false (code.result locals) with
        lock := code.word.release s.lock } := by
  obtain ⟨hlock, honly, hreach⟩ := h.inside hi
  obtain ⟨hresult, hdata⟩ := himpl.last hreach hnone
  refine ⟨h.answers_complete i hresult, Or.inl ⟨?_, ?_, ?_⟩⟩
  · show code.word.release s.lock = code.word.free
    rw [hlock, code.word.release_taken]
  · intro j c' locals' hj
    obtain ⟨hne, hj⟩ := State.inside_of_setPhase (fun _ _ => Phase.idle_ne_inside) hj
    exact hne (honly j c' locals' hj)
  · exact hdata.trans (State.settled_complete s i c false _).symm

/-- The calls that are under way or completed. -/
structure Calls (P : κ → Prop) (s : State ι W κ ω τ σ ρ) : Prop where
  waiting : ∀ i c counters, s.phase i = .waiting c counters → P c
  inside : ∀ i c locals, s.phase i = .inside c locals → P c
  completed : ∀ entry ∈ s.log, P entry.call

/-- A thread that goes to a phase of a call with the property. -/
theorem Calls.setPhase {P : κ → Prop} (h : Calls P s) (i : ι) {phase : Phase κ ω τ}
    (hwaiting : ∀ c counters, phase = .waiting c counters → P c)
    (hinside : ∀ c locals, phase = .inside c locals → P c) : Calls P (s.setPhase i phase) where
  waiting j c counters hj := by
    by_cases hji : j = i
    · rw [hji, State.setPhase_self] at hj
      exact hwaiting c counters hj
    · rw [State.setPhase_of_ne s hji] at hj
      exact h.waiting j c counters hj
  inside j c locals hj := by
    by_cases hji : j = i
    · rw [hji, State.setPhase_self] at hj
      exact hinside c locals hj
    · rw [State.setPhase_of_ne s hji] at hj
      exact h.inside j c locals hj
  completed := h.completed

theorem Calls.complete {P : κ → Prop} (h : Calls P s) (i : ι) {c : κ} (hc : P c)
    (refused : Bool) (answer : ρ) : Calls P (s.complete i c refused answer) := by
  have hidle : Calls P (s.setPhase i .idle) :=
    h.setPhase i (fun _ _ heq => by cases heq) fun _ _ heq => by cases heq
  refine ⟨hidle.waiting, hidle.inside, fun entry hentry => ?_⟩
  rcases List.mem_append.mp hentry with hold | hnew
  · exact h.completed entry hold
  · obtain rfl := List.mem_singleton.mp hnew
    exact hc

/-! ## Runs -/

section Runs

variable [DecidableEq W]

/-- Every step of every thread preserves the invariant. -/
theorem Inv.step (himpl : code.Implements atomic) {e : Event ι κ} (h : Inv code atomic data s)
    (hstep : step code e s = some t) : Inv code atomic data t := by
  cases e with
  | call i c =>
    cases hphase : s.phase i with
    | idle =>
      rw [Critical.step, hphase] at hstep
      cases hstep
      refine h.setPhase (fun c locals hi => ?_) fun _ _ => Phase.waiting_ne_inside
      rw [hphase] at hi
      cases hi
    | waiting c' counters =>
      rw [Critical.step, hphase] at hstep
      cases hstep
    | inside c' locals =>
      rw [Critical.step, hphase] at hstep
      cases hstep
  | act i =>
    rw [Critical.step, act] at hstep
    cases hphase : s.phase i with
    | idle =>
      rw [hphase] at hstep
      cases hstep
    | waiting c counters =>
      have hold : ∀ c locals, s.phase i ≠ .inside c locals := by
        intro c' locals hi
        rw [hphase] at hi
        cases hi
      rw [hphase] at hstep
      by_cases hfree : s.lock = code.word.free
      · simp only [if_pos hfree] at hstep
        cases hstep
        exact h.enter i c hfree
      · simp only [if_neg hfree] at hstep
        cases hfailed : code.failed counters with
        | none =>
          rw [hfailed] at hstep
          cases hstep
          exact h.refuse c hold
        | some counters' =>
          rw [hfailed] at hstep
          cases hstep
          exact h.setPhase hold fun _ _ => Phase.waiting_ne_inside
    | inside c locals =>
      rw [hphase] at hstep
      cases hnext : code.next (locals, s.data) with
      | none =>
        simp only [hnext] at hstep
        cases hstep
        exact h.leave himpl hphase hnext
      | some next =>
        simp only [hnext] at hstep
        cases hstep
        exact h.next hphase hnext

/-- A property of the calls that are made is one of the calls that complete. -/
theorem Calls.step {P : κ → Prop} {e : Event ι κ} (h : Calls P s)
    (hok : ∀ i c, e = .call i c → P c) (hstep : step code e s = some t) : Calls P t := by
  cases e with
  | call i c =>
    rw [Critical.step] at hstep
    split at hstep
    · cases hstep
      refine h.setPhase i (fun c' counters heq => ?_) fun _ _ heq => by cases heq
      cases heq
      exact hok i c rfl
    · cases hstep
  | act i =>
    rw [Critical.step, act] at hstep
    split at hstep
    · cases hstep
    · next c counters hphase =>
      have hc := h.waiting i c counters hphase
      split at hstep
      · cases hstep
        have hinside : Calls P (s.setPhase i (.inside c (code.enter c))) :=
          h.setPhase i (fun _ _ heq => by cases heq) fun _ _ heq => by
            cases heq
            exact hc
        exact ⟨hinside.waiting, hinside.inside, hinside.completed⟩
      · split at hstep
        · cases hstep
          refine h.setPhase i (fun c' counters heq => ?_) fun _ _ heq => by cases heq
          cases heq
          exact hc
        · cases hstep
          exact h.complete i hc true _
    · next c locals hphase =>
      have hc := h.inside i c locals hphase
      split at hstep
      · next locals' data' _ =>
        cases hstep
        have hinside : Calls P (s.setPhase i (.inside c locals')) :=
          h.setPhase i (fun _ _ heq => by cases heq) fun _ _ heq => by
            cases heq
            exact hc
        exact ⟨hinside.waiting, hinside.inside, hinside.completed⟩
      · cases hstep
        have hdone := h.complete i hc false (code.result locals)
        exact ⟨hdone.waiting, hdone.inside, hdone.completed⟩

theorem calls_of_run {P : κ → Prop} {ok : Event ι κ → State ι W κ ω τ σ ρ → Prop}
    (hok : ∀ i c s, ok (.call i c) s → P c)
    (h : Run.Reachable (step code) ok (.start code data) s) : ∀ entry ∈ s.log, P entry.call := by
  have hstart : Calls P (State.start code data : State ι W κ ω τ σ ρ) :=
    ⟨fun _ _ _ heq => (by cases heq), fun _ _ _ heq => (by cases heq),
      fun _ hmem => absurd hmem List.not_mem_nil⟩
  refine (Run.Reachable.invariant (fun e u _ he hstep hu => ?_) h hstart).completed
  refine Calls.step hu (fun i c heq => ?_) hstep
  exact hok i c u (heq ▸ he)

theorem inv_of_run (himpl : code.Implements atomic) (h : Reachable code (.start code data) s) :
    Inv code atomic data s :=
  Run.Reachable.invariant (fun _ _ _ _ hstep hs => Inv.step himpl hs hstep) h (inv_start data)

/-- The answers are those of one call at a time, in the order of the log, and so is the data
whenever no thread is inside. -/
theorem serial_of_run (himpl : code.Implements atomic)
    (h : Reachable code (.start code data) s) :
    s.log.map Entry.answer =
        Machine.answers (code.serial atomic) (s.log.map Entry.input) data ∧
      ((∀ i c locals, s.phase i ≠ .inside c locals) → s.lock = code.word.free ∧
        s.data = Machine.after (code.serial atomic) (s.log.map Entry.input) data) := by
  have hinv := inv_of_run himpl h
  refine ⟨hinv.answers, fun hnone => ?_⟩
  rcases hinv.holder with ⟨hlock, _, hdata⟩ | ⟨_, i, c, locals, hi, _⟩
  · exact ⟨hlock, hdata⟩
  · exact absurd hi (hnone i c locals)

/-- Two threads are never inside. -/
theorem exclusive_of_run (himpl : code.Implements atomic)
    (h : Reachable code (.start code data) s) {i j : ι} {c c' : κ} {locals locals' : τ}
    (hi : s.phase i = .inside c locals) (hj : s.phase j = .inside c' locals') : i = j :=
  ((inv_of_run himpl h).inside hj).2.1 i c locals hi

/-- The rest of a body, run without the other threads. -/
theorem exists_leave {i : ι} {c : κ} {x y : τ × σ} (hreach : Reaches code.next x y)
    (hnone : code.next y = none) {s : State ι W κ ω τ σ ρ} (hphase : s.phase i = .inside c x.1)
    (hdata : s.data = x.2) (hlock : s.lock = code.word.taken) :
    ∃ t, Run.Reachable (step code) (fun e _ => e = .act i) s t ∧ t.phase i = .idle ∧
      t.lock = code.word.free := by
  induction hreach using Relation.ReflTransGen.head_induction_on generalizing s with
  | refl =>
    have hnext : code.next (y.1, s.data) = none := by rwa [hdata]
    have hact : step code (.act i) s = some { s.complete i c false (code.result y.1) with
        lock := code.word.release s.lock } := by
      rw [step, act, hphase]
      simp only [hnext]
    refine ⟨_, Run.Reachable.tail Relation.ReflTransGen.refl (e := .act i) rfl hact,
      s.setPhase_self i .idle, ?_⟩
    show code.word.release s.lock = code.word.free
    rw [hlock, code.word.release_taken]
  | @head x z hstep _ ih =>
    have hnext : code.next (x.1, s.data) = some (z.1, z.2) := by rwa [hdata]
    have hact : step code (.act i) s =
        some { s.setPhase i (.inside c z.1) with data := z.2 } := by
      rw [step, act, hphase]
      simp only [hnext]
    obtain ⟨t, hrun, ht⟩ := ih
      (s := { s.setPhase i (.inside c z.1) with data := z.2 }) (s.setPhase_self i _) rfl hlock
    exact ⟨t, Relation.ReflTransGen.head ⟨.act i, rfl, hact⟩ hrun, ht⟩

/-- The thread that is inside runs its body to the end and releases the lock, without any help
of the other threads. -/
theorem leaves_of_run (himpl : code.Implements atomic)
    (h : Reachable code (.start code data) s) {i : ι} {c : κ} {locals : τ}
    (hi : s.phase i = .inside c locals) :
    ∃ t, Run.Reachable (step code) (fun e _ => e = .act i) s t ∧ t.phase i = .idle ∧
      t.lock = code.word.free := by
  obtain ⟨hlock, _, hreach⟩ := (inv_of_run himpl h).inside hi
  obtain ⟨locals', hend, hnone, _⟩ := himpl c (s.settled code atomic data)
  rcases reaches_total hreach hend with hrest | hback
  · exact exists_leave hrest hnone hi rfl hlock
  · have hend' : code.next (locals, s.data) = none := by
      rcases Relation.ReflTransGen.cases_head hback with heq | ⟨x, hx, _⟩
      · rw [← heq]
        exact hnone
      · rw [hnone] at hx
        cases hx
    exact exists_leave Relation.ReflTransGen.refl hend' hi rfl hlock

end Runs

end Critical
