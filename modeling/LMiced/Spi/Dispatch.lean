import LMiced.Lib.Run
import LMiced.Resource.Daemon

/-!
# The dispatch loop of a worker

The server triggers a timer by setting the first state byte of its slot and posting the
event of the worker (`timer/timer_system_time.c`). The worker waits for its event in
`lmice_spi::join`, looks at all timer slots, runs the callbacks of those that are
triggered, and clears the byte of each behind its callback. Nothing is locked; the steps of
the two sides come in any order.

* `DispatchInv`: a trigger that has not been answered is seen again, because a post is
  outstanding or the worker has not passed the slot yet;
* `DispatchEvent.work_lt`: without new triggers the loop comes to rest;
* `no_trigger_lost_of_run`: every trigger is answered in a run in which no timer is
  triggered during its own callback, and `trigger_lost` is a run in which one is.
-/

namespace LMiced

/-! ## The two sides -/

/-- The event of a worker: a semaphore, or an event of Windows that a wait resets. -/
inductive EventKind
  | semaphore
  | autoReset
deriving DecidableEq, Repr

/-- `eal_event_awake`. -/
def EventKind.awake : EventKind → Nat → Nat
  | semaphore, count => count + 1
  | autoReset, _ => 1

/-- The worker: its event, the instance ids of its timers, and `m_pylist`, the instance
ids for which it has a callback. -/
structure Dispatch where
  kind : EventKind
  instId : ResSlot → Nat
  pylist : Nat → Bool

/-- The timer has a callback. -/
def Dispatch.registered (worker : Dispatch) (i : ResSlot) : Bool :=
  worker.instId i ≠ 0 ∧ worker.pylist (worker.instId i)

/-- Where the loop stands: at the wait, before the slot `i`, between the test of the
slot and the callback, or between the start of the callback and the clearing. -/
inductive DispatchPc
  | waiting
  | scanning (i : Nat)
  | fired (i : ResSlot)
  | calling (i : ResSlot)
deriving DecidableEq, Repr

/-- What is logged: the triggers, and the starts of callbacks. -/
inductive DispatchMark
  | trigger (i : ResSlot)
  | call (i : ResSlot)
deriving DecidableEq, Repr

/-- `flag` is `timer.state.value[0]` of each slot, `owed` the number of triggers that are
set but not posted yet. -/
structure DispatchState where
  flag : ResSlot → UInt8
  count : Nat
  owed : Nat
  pc : DispatchPc
  log : List DispatchMark

/-- The worker waits, and nothing has been triggered so far. -/
def DispatchState.init (flag : ResSlot → UInt8) (count : Nat) : DispatchState :=
  ⟨flag, count, 0, .waiting, []⟩

/-- The steps. The server triggers a timer, posts a trigger, or wakes the worker for
another reason. The worker returns from its wait, looks at a slot, starts the callback
and clears the byte. -/
inductive DispatchEvent
  | trigger (i : ResSlot)
  | post
  | awake
  | wait
  | look
  | call
  | clear
deriving DecidableEq, Repr

namespace DispatchEvent

def step (worker : Dispatch) : DispatchEvent → DispatchState → Option DispatchState
  | .trigger i, s =>
    some { s with
      flag := Function.update s.flag i lmTriggeredState
      owed := s.owed + 1
      log := .trigger i :: s.log }
  | .post, s =>
    if s.owed = 0 then none
    else some { s with owed := s.owed - 1, count := worker.kind.awake s.count }
  | .awake, s => some { s with count := worker.kind.awake s.count }
  | .wait, s =>
    if s.pc = .waiting ∧ s.count ≠ 0 then
      some { s with count := s.count - 1, pc := .scanning 0 }
    else none
  | .look, s =>
    match s.pc with
    | .scanning i =>
      if h : i < 128 then
        if worker.instId ⟨i, h⟩ = 0 then some { s with pc := .scanning (i + 1) }
        else if s.flag ⟨i, h⟩ = lmTriggeredState then some { s with pc := .fired ⟨i, h⟩ }
        else some { s with pc := .scanning (i + 1) }
      else some { s with pc := .waiting }
    | _ => none
  | .call, s =>
    match s.pc with
    | .fired i =>
      if worker.pylist (worker.instId i) then
        some { s with pc := .calling i, log := .call i :: s.log }
      else some { s with pc := .calling i }
    | _ => none
  | .clear, s =>
    match s.pc with
    | .calling i =>
      some { s with flag := Function.update s.flag i 0, pc := .scanning (i + 1) }
    | _ => none

/-- No timer is triggered between the start of its callback and the clearing. -/
def Timely (worker : Dispatch) : DispatchEvent → DispatchState → Prop
  | .trigger i, s => worker.registered i = true → s.pc ≠ .calling i
  | _, _ => True

instance decidableTimely (worker : Dispatch) :
    (e : DispatchEvent) → (s : DispatchState) → Decidable (e.Timely worker s)
  | .trigger i, s => inferInstanceAs (Decidable (worker.registered i = true → s.pc ≠ .calling i))
  | .post, _ => inferInstanceAs (Decidable True)
  | .awake, _ => inferInstanceAs (Decidable True)
  | .wait, _ => inferInstanceAs (Decidable True)
  | .look, _ => inferInstanceAs (Decidable True)
  | .call, _ => inferInstanceAs (Decidable True)
  | .clear, _ => inferInstanceAs (Decidable True)

/-- The steps that consume the triggers and posts there are: all but a new trigger and a
new post. -/
def Consumes (e : DispatchEvent) : Prop :=
  e ∈ [DispatchEvent.post, .wait, .look, .call, .clear]

instance decidableConsumes (e : DispatchEvent) : Decidable e.Consumes :=
  inferInstanceAs (Decidable (e ∈ _))

theorem timely_of_consumes {worker : Dispatch} {e : DispatchEvent} (he : e.Consumes)
    (s : DispatchState) : e.Timely worker s := by
  cases e with
  | trigger i => simp [Consumes] at he
  | post | awake | wait | look | call | clear => trivial

/-! ## What a step does -/

variable {worker : Dispatch} {s s' : DispatchState}

theorem post_cases (h : step worker .post s = some s') :
    s.owed ≠ 0 ∧ s' = { s with owed := s.owed - 1, count := worker.kind.awake s.count } := by
  simp only [step] at h
  split at h
  · cases h
  · next howed => exact ⟨howed, (Option.some.inj h).symm⟩

theorem wait_cases (h : step worker .wait s = some s') :
    s.pc = .waiting ∧ s.count ≠ 0 ∧ s' = { s with count := s.count - 1, pc := .scanning 0 } := by
  simp only [step] at h
  split at h
  · next hwait => exact ⟨hwait.1, hwait.2, (Option.some.inj h).symm⟩
  · cases h

/-- The loop passes a slot, stops at one that is triggered, or goes back to its wait. -/
theorem look_cases (h : step worker .look s = some s') : ∃ j, s.pc = .scanning j ∧
    ((∃ hj : j < 128, (worker.instId ⟨j, hj⟩ = 0 ∨ s.flag ⟨j, hj⟩ ≠ lmTriggeredState) ∧
        s' = { s with pc := .scanning (j + 1) }) ∨
      (∃ hj : j < 128, s' = { s with pc := .fired ⟨j, hj⟩ }) ∨
      (128 ≤ j ∧ s' = { s with pc := .waiting })) := by
  simp only [step] at h
  split at h
  · next j hpc =>
    refine ⟨j, hpc, ?_⟩
    split at h
    · next hj =>
      split at h
      · next hunused => exact .inl ⟨hj, .inl hunused, (Option.some.inj h).symm⟩
      · split at h
        · exact .inr (.inl ⟨hj, (Option.some.inj h).symm⟩)
        · next hclear => exact .inl ⟨hj, .inr hclear, (Option.some.inj h).symm⟩
    · next hj => exact .inr (.inr ⟨Nat.not_lt.mp hj, (Option.some.inj h).symm⟩)
  · cases h

theorem call_cases (h : step worker .call s = some s') : ∃ j, s.pc = .fired j ∧
    ((worker.pylist (worker.instId j) = true ∧
        s' = { s with pc := .calling j, log := .call j :: s.log }) ∨
      (worker.pylist (worker.instId j) = false ∧ s' = { s with pc := .calling j })) := by
  simp only [step] at h
  split at h
  · next j hpc =>
    refine ⟨j, hpc, ?_⟩
    split at h
    · next hcall => exact .inl ⟨hcall, (Option.some.inj h).symm⟩
    · next hno => exact .inr ⟨Bool.eq_false_of_not_eq_true hno, (Option.some.inj h).symm⟩
  · cases h

theorem clear_cases (h : step worker .clear s = some s') : ∃ j, s.pc = .calling j ∧
    s' = { s with flag := Function.update s.flag j 0, pc := .scanning (j + 1) } := by
  simp only [step] at h
  split at h
  · next j hpc => exact ⟨j, hpc, (Option.some.inj h).symm⟩
  · cases h

end DispatchEvent

/-- A trigger of the slot has not been followed by the start of its callback. -/
def Unanswered (i : ResSlot) : List DispatchMark → Prop :=
  Run.Since (fun mark => mark = .trigger i) (fun mark => mark = .call i)

/-! ## The invariant -/

/-- The loop has not passed the slot yet. -/
def DispatchPc.Ahead (i : ResSlot) : DispatchPc → Prop
  | .waiting => False
  | .scanning j => j ≤ i
  | .fired j => j ≤ i
  | .calling j => j < i

/-- What keeps a trigger of the slot `i` from being lost. -/
structure DispatchInv (i : ResSlot) (s : DispatchState) : Prop where
  flagged : Unanswered i s.log → s.flag i = lmTriggeredState
  seen : Unanswered i s.log → s.count ≠ 0 ∨ s.owed ≠ 0 ∨ s.pc.Ahead i
  answered : s.pc = .calling i → ¬ Unanswered i s.log

@[simp] theorem unanswered_trigger {i j : ResSlot} {log : List DispatchMark} :
    Unanswered i (.trigger j :: log) ↔ j = i ∨ Unanswered i log := by
  simp [Unanswered, Run.since_cons_iff]

@[simp] theorem unanswered_call {i j : ResSlot} {log : List DispatchMark} :
    Unanswered i (.call j :: log) ↔ j ≠ i ∧ Unanswered i log := by
  simp [Unanswered, Run.since_cons_iff]

theorem EventKind.awake_ne_zero (kind : EventKind) (count : Nat) : kind.awake count ≠ 0 := by
  cases kind <;> simp [awake]

namespace DispatchInv

variable {worker : Dispatch} {i : ResSlot} {s s' : DispatchState}

theorem init (flag : ResSlot → UInt8) (count : Nat) : DispatchInv i (.init flag count) := by
  have hno : ¬ Unanswered i (DispatchState.init flag count).log := Run.not_since_nil
  exact ⟨fun h => absurd h hno, fun h => absurd h hno, fun _ => hno⟩

/-- A step of the loop that changes neither the byte of the slot nor the log. -/
theorem move (hs : DispatchInv i s) {pc : DispatchPc} {flag : ResSlot → UInt8}
    (hflag : Unanswered i s.log → flag i = s.flag i)
    (hahead : Unanswered i s.log → s.pc.Ahead i → pc.Ahead i)
    (hcalling : pc = .calling i → ¬ Unanswered i s.log) :
    DispatchInv i { s with flag := flag, pc := pc } where
  flagged h := (hflag h).trans (hs.flagged h)
  seen h := (hs.seen h).imp_right (Or.imp_right (hahead h))
  answered := hcalling

/-- The slot the loop looks at is passed only when there is nothing to answer. -/
theorem ahead_succ {j : Nat} (hj : j ≤ i) (hne : j ≠ i) :
    (DispatchPc.scanning (j + 1)).Ahead i := by
  show j + 1 ≤ (i : Nat)
  omega

theorem step (hs : DispatchInv i s) (hreg : worker.registered i = true) {e : DispatchEvent}
    (hok : e.Timely worker s) (h : e.step worker s = some s') : DispatchInv i s' := by
  have hinst : worker.instId i ≠ 0 ∧ worker.pylist (worker.instId i) = true := by
    simpa [Dispatch.registered] using hreg
  cases e with
  | trigger j =>
    cases h
    constructor
    · intro h
      rcases eq_or_ne i j with rfl | hne
      · exact Function.update_self _ _ _
      · rw [unanswered_trigger] at h
        exact (Function.update_of_ne hne _ _).trans (hs.flagged (h.resolve_left hne.symm))
    · exact fun _ => Or.inr (Or.inl (Nat.succ_ne_zero _))
    · intro hpc h
      rcases unanswered_trigger.mp h with rfl | h
      · exact hok hreg hpc
      · exact hs.answered hpc h
  | post =>
    obtain ⟨_, rfl⟩ := DispatchEvent.post_cases h
    exact ⟨hs.flagged, fun _ => Or.inl (worker.kind.awake_ne_zero _), hs.answered⟩
  | awake =>
    cases h
    exact ⟨hs.flagged, fun _ => Or.inl (worker.kind.awake_ne_zero _), hs.answered⟩
  | wait =>
    obtain ⟨_, _, rfl⟩ := DispatchEvent.wait_cases h
    exact ⟨hs.flagged, fun _ => Or.inr (Or.inr (Nat.zero_le _)), by simp⟩
  | look =>
    obtain ⟨j, hpc, ⟨hj, hpass, rfl⟩ | ⟨hj, rfl⟩ | ⟨hj, rfl⟩⟩ := DispatchEvent.look_cases h
    · refine hs.move (fun _ => rfl) (fun hopen hahead => ?_) (by simp)
      rw [hpc] at hahead
      refine ahead_succ hahead ?_
      rintro rfl
      exact hpass.elim hinst.1 fun hclear => hclear (hs.flagged hopen)
    · refine hs.move (fun _ => rfl) (fun _ hahead => ?_) (by simp)
      rw [hpc] at hahead
      exact hahead
    · refine hs.move (fun _ => rfl) (fun _ hahead => ?_) (by simp)
      rw [hpc] at hahead
      exact hj.not_gt (Nat.lt_of_le_of_lt hahead i.isLt)
  | call =>
    obtain ⟨j, hpc, hcase⟩ := DispatchEvent.call_cases h
    have hlt : s.pc.Ahead i → i ≠ j → j < i := by
      intro hahead hne
      rw [hpc] at hahead
      exact lt_of_le_of_ne hahead hne.symm
    rcases hcase with ⟨_, rfl⟩ | ⟨hno, rfl⟩
    · constructor
      · exact fun h => hs.flagged (unanswered_call.mp h).2
      · intro h
        obtain ⟨hne, h⟩ := unanswered_call.mp h
        exact (hs.seen h).imp_right (Or.imp_right fun hahead => hlt hahead hne.symm)
      · intro hcalling h
        exact (unanswered_call.mp h).1 (DispatchPc.calling.inj hcalling)
    · have hne : i ≠ j := by
        rintro rfl
        rw [hinst.2] at hno
        cases hno
      refine hs.move (fun _ => rfl) (fun _ hahead => hlt hahead hne) (fun hcalling => ?_)
      exact absurd (DispatchPc.calling.inj hcalling).symm hne
  | clear =>
    obtain ⟨j, hpc, rfl⟩ := DispatchEvent.clear_cases h
    -- The byte of the slot is cleared behind its callback, when nothing is unanswered.
    have hne : Unanswered i s.log → i ≠ j := by
      rintro hopen rfl
      exact hs.answered hpc hopen
    refine hs.move (fun hopen => Function.update_of_ne (hne hopen) _ _) (fun _ hahead => ?_)
      (by simp)
    rw [hpc] at hahead
    exact hahead

end DispatchInv

/-! ## Coming to rest -/

/-- The steps that one round of the loop takes at most. -/
def DispatchPc.work : DispatchPc → Nat
  | .waiting => 0
  | .scanning i => (128 - i) * 3 + 1
  | .fired i => (128 - i) * 3
  | .calling i => (128 - i) * 3 - 1

/-- The steps that consume everything there is. -/
def DispatchState.work (s : DispatchState) : Nat :=
  s.owed * 387 + s.count * 386 + s.pc.work

namespace DispatchEvent

variable {worker : Dispatch} {s t : DispatchState} {e : DispatchEvent}

theorem work_lt (he : e.Consumes) (h : e.step worker s = some t) : t.work < s.work := by
  cases e with
  | trigger i => simp [Consumes] at he
  | awake => simp [Consumes] at he
  | post =>
    obtain ⟨howed, rfl⟩ := post_cases h
    have hcount : worker.kind.awake s.count ≤ s.count + 1 := by
      cases worker.kind <;> simp [EventKind.awake]
    simp only [DispatchState.work]
    omega
  | wait =>
    obtain ⟨hpc, hcount, rfl⟩ := wait_cases h
    simp only [DispatchState.work, DispatchPc.work, hpc]
    omega
  | look =>
    obtain ⟨j, hpc, ⟨hj, _, rfl⟩ | ⟨hj, rfl⟩ | ⟨_, rfl⟩⟩ := look_cases h
    · simp only [DispatchState.work, DispatchPc.work, hpc]
      omega
    · simp only [DispatchState.work, DispatchPc.work, hpc]
      omega
    · simp only [DispatchState.work, DispatchPc.work, hpc]
      omega
  | call =>
    obtain ⟨j, hpc, ⟨_, rfl⟩ | ⟨_, rfl⟩⟩ := call_cases h
    · have hj := j.isLt
      simp only [DispatchState.work, DispatchPc.work, hpc]
      omega
    · have hj := j.isLt
      simp only [DispatchState.work, DispatchPc.work, hpc]
      omega
  | clear =>
    obtain ⟨j, hpc, rfl⟩ := clear_cases h
    have hj := j.isLt
    simp only [DispatchState.work, DispatchPc.work, hpc]
    omega

/-- When nothing can be consumed the worker waits, and nothing is posted or owed. -/
theorem drained (h : ∀ e : DispatchEvent, e.Consumes → e.step worker s = none) :
    s.count = 0 ∧ s.owed = 0 ∧ s.pc = .waiting := by
  have howed : s.owed = 0 := by
    have hpost := h .post (by decide)
    simpa [step] using hpost
  have hpc : s.pc = .waiting := by
    cases hpc : s.pc with
    | waiting => rfl
    | scanning i =>
      have hlook := h .look (by decide)
      simp only [step, hpc] at hlook
      split at hlook
      · split at hlook
        · cases hlook
        · split at hlook <;> cases hlook
      · cases hlook
    | fired i =>
      have hcall := h .call (by decide)
      simp only [step, hpc] at hcall
      split at hcall <;> cases hcall
    | calling i =>
      have hclear := h .clear (by decide)
      simp [step, hpc] at hclear
  have hwait := h .wait (by decide)
  simp only [step, hpc] at hwait
  refine ⟨?_, howed, hpc⟩
  simpa using hwait

end DispatchEvent

/-- In every run in which no timer is triggered between the start of its callback and the
clearing of its byte: what is posted is consumed after finitely many steps, and when
it is, every trigger of a timer with a callback has been followed by the start of the
callback. -/
theorem no_trigger_lost_of_run {worker : Dispatch} {flag : ResSlot → UInt8} {count : Nat}
    {s : DispatchState}
    (h : Run.Reachable (DispatchEvent.step worker) (DispatchEvent.Timely worker)
      (.init flag count) s)
    {es : List DispatchEvent} {t : DispatchState}
    (ht : Run.execute (DispatchEvent.step worker) (fun e _ => e.Consumes) es s = some t) :
    es.length ≤ s.work ∧
      ((∀ e : DispatchEvent, e.Consumes → e.step worker t = none) →
        ∀ i, worker.registered i = true → ¬ Unanswered i t.log) := by
  have hwork := Run.length_le_of_execute (fun _ _ _ he hstep => DispatchEvent.work_lt he hstep) ht
  refine ⟨by omega, fun hstuck i hreg hlost => ?_⟩
  have hmore : Run.Reachable (DispatchEvent.step worker) (DispatchEvent.Timely worker) s t :=
    (Run.reachable_of_execute ht).mono fun _ s he => DispatchEvent.timely_of_consumes he s
  have hstep : ∀ (e : DispatchEvent) s t, e.Timely worker s → e.step worker s = some t →
      DispatchInv i s → DispatchInv i t :=
    fun _ _ _ hok hstep hs => hs.step hreg hok hstep
  have hinv : DispatchInv i t := hmore.invariant hstep (h.invariant hstep (.init flag count))
  obtain ⟨hcount, howed, hpc⟩ := DispatchEvent.drained hstuck
  rcases hinv.seen hlost with hne | hne | hahead
  · exact hne hcount
  · exact hne howed
  · rw [hpc] at hahead
    exact hahead

/-! ## A timer with a callback -/

/-- A worker with one timer, which has a callback. -/
def oneTimer : Dispatch where
  kind := .semaphore
  instId i := if i = 0 then 1 else 0
  pylist id := id = 1

/-- The worker looks at slots. -/
def looks (n : Nat) : List DispatchEvent := List.replicate n .look

/-- The timer is triggered once. -/
def triggeredOnce : List DispatchEvent :=
  .trigger 0 :: .post :: .wait :: .look :: .call :: .clear :: looks 128

/-- The timer is triggered a second time during its callback. -/
def triggeredTwice : List DispatchEvent :=
  .trigger 0 :: .post :: .wait :: .look :: .call :: .trigger 0 :: .post :: .clear ::
    (looks 128 ++ .wait :: looks 129)

/-- Nothing is left to consume, and the log is the given one. -/
def DispatchState.restsWith (log : List DispatchMark) (s : DispatchState) : Bool :=
  s.count = 0 ∧ s.owed = 0 ∧ s.pc = .waiting ∧ s.log = log

theorem DispatchState.stuck_of_restsWith {log : List DispatchMark} {s : DispatchState}
    (h : s.restsWith log = true) (worker : Dispatch) :
    (∀ e : DispatchEvent, e.Consumes → e.step worker s = none) ∧ s.log = log := by
  obtain ⟨hcount, howed, hpc, hlog⟩ := of_decide_eq_true h
  refine ⟨fun e he => ?_, hlog⟩
  cases e with
  | trigger i => simp [DispatchEvent.Consumes] at he
  | awake => simp [DispatchEvent.Consumes] at he
  | post | wait | look | call | clear => simp [DispatchEvent.step, hcount, howed, hpc]

/-- One trigger and its callback. -/
theorem no_trigger_lost_of_run_once :
    ∃ s : DispatchState, s.log = [.call 0, .trigger 0] ∧ ¬ Unanswered 0 s.log := by
  obtain ⟨s, hreach, hs⟩ := Run.exists_reachable_of_execute (DispatchEvent.step oneTimer)
    (DispatchEvent.Timely oneTimer) triggeredOnce (s := .init (fun _ => 0) 0)
    (p := DispatchState.restsWith [.call 0, .trigger 0]) (by decide +kernel)
  obtain ⟨hstuck, hlog⟩ := s.stuck_of_restsWith hs oneTimer
  have hnone : Run.execute (DispatchEvent.step oneTimer) (fun e _ => e.Consumes) [] s = some s :=
    rfl
  exact ⟨s, hlog, (no_trigger_lost_of_run hreach hnone).2 hstuck 0 (by decide)⟩

/-- The byte is cleared behind the callback, and the post of the second trigger wakes the
worker for nothing. -/
theorem trigger_lost :
    ¬ ∀ (worker : Dispatch) (flag : ResSlot → UInt8) (count : Nat) (s : DispatchState),
      Run.Reachable (DispatchEvent.step worker) (fun _ _ => True) (.init flag count) s →
      (∀ e : DispatchEvent, e.Consumes → e.step worker s = none) →
      ∀ i, worker.registered i = true → ¬ Unanswered i s.log := by
  intro h
  obtain ⟨s, hreach, hs⟩ := Run.exists_reachable_of_execute (DispatchEvent.step oneTimer)
    (fun _ _ => True) triggeredTwice (s := .init (fun _ => 0) 0)
    (p := DispatchState.restsWith [.trigger 0, .call 0, .trigger 0]) (by decide +kernel)
  obtain ⟨hstuck, hlog⟩ := s.stuck_of_restsWith hs oneTimer
  refine h oneTimer (fun _ => 0) 0 s hreach hstuck 0 (by decide) ?_
  rw [hlog]
  exact unanswered_trigger.mpr (Or.inl rfl)

end LMiced
