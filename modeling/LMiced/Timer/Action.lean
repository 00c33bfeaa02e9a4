import LMiced.Lib.Run
import LMiced.Timer.Schedule

/-!
# Actions that wait for several events

An action refers to up to 8 events, and has a state byte for each. A timer that triggers sets
the bytes of the actions that refer to it. This is done in two functions of
`timer/timer_system_time.c`. `due_list_schedule` then looks whether all 8 bytes are set, and
wakes the worker once more if they are; `timer_list_schedule` does not look.

* `value_after`: a byte is set if and only if its event has triggered since the last reset;
* `recognised_iff`: when an action is recognised as complete;
* `action_recognised_iff`: this is when it should be, in a whole sequence of triggers, if and
  only if all triggers that complete the action are from the due list and it has 8 events.
-/

namespace LMiced

/-! ## Deliveries -/

/-- The function that delivers a trigger. -/
inductive Delivery
  | timerList
  | dueList
deriving DecidableEq, Repr

namespace Sched

variable {τ : Type} [DecidableEq τ]

/-- A trigger of a timer. -/
def deliver (path : Delivery) (now : Int) (t : τ) (info : TimerInfo) (s : Sched τ) : Sched τ :=
  match path with
  | .timerList => s.trigger now t info
  | .dueList => s.dueTrigger now t info

/-- Clear the state of an action. -/
def resetAction (a : Nat) (s : Sched τ) : Sched τ :=
  { s with action := Function.update s.action a ⟨fun _ => 0⟩ }

/-- The same without the reference of a timer to an action. -/
def forget (a : Nat) (t : τ) (s : Sched τ) : Sched τ :=
  { s with
    timer := Function.update s.timer t
      { s.timer t with alist := (s.timer t).alist.filter fun act => act.info ≠ some a } }

/-- The action is recognised as complete at a trigger: its state is that of a complete action,
and the worker is woken more often than it would be without the action. -/
def Recognised (a : Nat) (path : Delivery) (now : Int) (t : τ) (info : TimerInfo)
    (s : Sched τ) : Prop :=
  ((s.deliver path now t info).action a).complete = true ∧
    ((s.forget a t).deliver path now t info).awakened.count (s.timer t).worker <
      (s.deliver path now t info).awakened.count (s.timer t).worker

end Sched

/-- The list refers to the action just once, at the place `p`, and the walk over it gets
there. -/
inductive RefersOnce (a : Nat) (p : Fin 8) : List RefAct → Prop
  | here {acts : List RefAct} : (∀ act ∈ acts, act.info ≠ some a) →
      RefersOnce a p (⟨p, some a⟩ :: acts)
  | later {acts : List RefAct} {q : Fin 8} {b : Nat} : b ≠ a → RefersOnce a p acts →
      RefersOnce a p (⟨q, some b⟩ :: acts)

/-! ## Walks over the references -/

section References

variable {a worker : Nat} {p : Fin 8} {acts : List RefAct} {action : Nat → LmState}
  {awakened : List Nat}

/-- Both functions set the same bytes. -/
theorem dueReferencedActions_fst :
    (dueReferencedActions worker acts action awakened).1 = activeReferencedActions acts action := by
  induction acts generalizing action awakened with
  | nil => rfl
  | cons act acts ih =>
    obtain ⟨q, info⟩ := act
    cases info with
    | none => rfl
    | some b => exact ih

theorem activeReferencedActions_of_forall (h : ∀ act ∈ acts, act.info ≠ some a) :
    activeReferencedActions acts action a = action a := by
  induction acts generalizing action with
  | nil => rfl
  | cons act acts ih =>
    obtain ⟨hact, hacts⟩ := List.forall_mem_cons.mp h
    obtain ⟨q, info⟩ := act
    cases info with
    | none => rfl
    | some b =>
      have hba : a ≠ b := fun hab => hact (congrArg some hab.symm)
      rw [activeReferencedActions, ih hacts, Function.update_of_ne hba]

theorem activeReferencedActions_of_refersOnce (h : RefersOnce a p acts) :
    activeReferencedActions acts action a = (action a).activate p := by
  induction h generalizing action with
  | here hacts =>
    rw [activeReferencedActions, activeReferencedActions_of_forall hacts, Function.update_self]
  | later hne _ ih => rw [activeReferencedActions, ih, Function.update_of_ne hne.symm]

/-- What was woken before does not matter. -/
theorem dueReferencedActions_append :
    (dueReferencedActions worker acts action awakened).2 =
      (dueReferencedActions worker acts action []).2 ++ awakened := by
  induction acts generalizing action awakened with
  | nil => rfl
  | cons act acts ih =>
    obtain ⟨q, info⟩ := act
    cases info with
    | none => rfl
    | some b =>
      rw [dueReferencedActions, dueReferencedActions, ih]
      split
      · rw [@ih _ [worker], List.append_assoc, List.singleton_append]
      · rfl

/-- The state of an action that is not referred to does not matter. -/
theorem dueReferencedActions_congr {action' : Nat → LmState}
    (hacts : ∀ act ∈ acts, act.info ≠ some a) (h : ∀ b, b ≠ a → action' b = action b) :
    (dueReferencedActions worker acts action' awakened).2 =
      (dueReferencedActions worker acts action awakened).2 := by
  induction acts generalizing action action' awakened with
  | nil => rfl
  | cons act acts ih =>
    obtain ⟨hact, hrest⟩ := List.forall_mem_cons.mp hacts
    obtain ⟨q, info⟩ := act
    cases info with
    | none => rfl
    | some b =>
      have hba : b ≠ a := fun hba => hact (congrArg some hba)
      rw [dueReferencedActions, dueReferencedActions, h b hba]
      refine ih hrest fun c hc => ?_
      by_cases hcb : c = b
      · rw [hcb, Function.update_self, Function.update_self]
      · rw [Function.update_of_ne hcb, Function.update_of_ne hcb, h c hc]

/-- The due list wakes the worker once more for an action that is complete now. -/
theorem count_dueReferencedActions (h : RefersOnce a p acts) :
    (dueReferencedActions worker acts action awakened).2.count worker =
      (dueReferencedActions worker (acts.filter fun act => act.info ≠ some a) action
        awakened).2.count worker + if ((action a).activate p).complete then 1 else 0 := by
  induction h generalizing action awakened with
  | @here acts hacts =>
    have hfilter : acts.filter (fun act => act.info ≠ some a) = acts :=
      List.filter_eq_self.mpr fun act hact => decide_eq_true (hacts act hact)
    have hcongr : ∀ awakened', (dueReferencedActions worker acts
        (Function.update action a ((action a).activate p)) awakened').2 =
          (dueReferencedActions worker acts action awakened').2 := fun awakened' =>
      dueReferencedActions_congr hacts fun b hb => Function.update_of_ne hb _ _
    rw [dueReferencedActions, hcongr]
    simp only [List.filter_cons, ne_eq, not_true_eq_false, decide_false, Bool.false_eq_true,
      if_false, hfilter]
    rw [dueReferencedActions_append, @dueReferencedActions_append worker acts action awakened]
    split
    · simp only [List.count_append, List.count_cons_self]
      omega
    · rfl
  | @later acts q b hne _ ih =>
    have hkeep : (⟨q, some b⟩ :: acts : List RefAct).filter (fun act => act.info ≠ some a) =
        ⟨q, some b⟩ :: acts.filter fun act => act.info ≠ some a := by
      rw [List.filter_cons_of_pos]
      simpa using hne
    rw [hkeep, dueReferencedActions, dueReferencedActions, ih, Function.update_of_ne hne.symm]

end References

/-! ## One trigger -/

theorem LmState.complete_iff {st : LmState} :
    st.complete = true ↔ ∀ p, st.value p = lmTriggeredState := by
  simp [LmState.complete]

namespace Sched

variable {τ : Type} [DecidableEq τ] {s : Sched τ} {a : Nat} {p : Fin 8} {t : τ}

/-- A trigger sets the byte of its event. -/
theorem action_deliver (h : RefersOnce a p (s.timer t).alist) (path : Delivery) (now : Int)
    (info : TimerInfo) : (s.deliver path now t info).action a = (s.action a).activate p := by
  cases path with
  | timerList => exact activeReferencedActions_of_refersOnce h
  | dueList =>
    rw [deliver, dueTrigger, dueReferencedActions_fst]
    exact activeReferencedActions_of_refersOnce h

/-- A work list does not recognise an action, and the due list recognises one all bytes of
which are set. -/
theorem recognised_iff (h : RefersOnce a p (s.timer t).alist) (path : Delivery) (now : Int)
    (info : TimerInfo) :
    s.Recognised a path now t info ↔
      path = .dueList ∧ ((s.action a).activate p).complete = true := by
  unfold Recognised
  rw [action_deliver h]
  cases path with
  | timerList => simp [deliver, trigger, forget]
  | dueList =>
    simp only [deliver, dueTrigger, forget, Function.update_self, true_and]
    rw [count_dueReferencedActions h]
    refine and_iff_left_of_imp fun hcomplete => ?_
    rw [if_pos hcomplete]
    exact Nat.lt_add_one _

end Sched

/-! ## Sequences of triggers -/

/-- A trigger of a timer, or a reset of the action. -/
inductive ActionEvent (τ : Type)
  | deliver (path : Delivery) (now : Int) (t : τ) (info : TimerInfo)
  | reset

section Sequences

variable {τ : Type} [DecidableEq τ]

/-- The state after some events, the latest of which stands first. -/
def Sched.afterEvents (a : Nat) (s₀ : Sched τ) : List (ActionEvent τ) → Sched τ
  | [] => s₀
  | .deliver path now t info :: earlier => (afterEvents a s₀ earlier).deliver path now t info
  | .reset :: earlier => (afterEvents a s₀ earlier).resetAction a

/-- The event at a place of the action has triggered since the last reset. -/
def SetSince (pos : τ → Fin 8) (log : List (ActionEvent τ)) (p : Fin 8) : Prop :=
  Run.Since (fun e => ∃ path now t info, e = .deliver path now t info ∧ pos t = p) (· = .reset) log

/-- All `n` events of the action have triggered since the last reset. -/
def AllSet (n : Nat) (pos : τ → Fin 8) (log : List (ActionEvent τ)) : Prop :=
  ∀ p : Fin 8, p.val < n → SetSince pos log p

/-- The timers that trigger are those of the `n` events of the action. -/
def EventsOf (a n : Nat) (pos : τ → Fin 8) (s₀ : Sched τ) (log : List (ActionEvent τ)) : Prop :=
  ∀ path now t info, .deliver path now t info ∈ log →
    RefersOnce a (pos t) (s₀.timer t).alist ∧ (pos t).val < n

variable {a n : Nat} {pos : τ → Fin 8} {s₀ : Sched τ} {log : List (ActionEvent τ)}

omit [DecidableEq τ] in
theorem EventsOf.of_suffix {log' : List (ActionEvent τ)} (h : EventsOf a n pos s₀ log)
    (hsuffix : log' <:+ log) : EventsOf a n pos s₀ log' :=
  fun path now t info hmem => h path now t info (hsuffix.subset hmem)

theorem alist_afterEvents (a : Nat) (s₀ : Sched τ) (log : List (ActionEvent τ)) (t : τ) :
    ((Sched.afterEvents a s₀ log).timer t).alist = (s₀.timer t).alist := by
  induction log with
  | nil => rfl
  | cons e earlier ih =>
    cases e with
    | reset => exact ih
    | deliver path now t' info =>
      rw [← ih]
      rcases eq_or_ne t t' with rfl | hne
      · cases path <;> simp [Sched.afterEvents, Sched.deliver, Sched.trigger, Sched.dueTrigger]
      · cases path <;>
          simp [Sched.afterEvents, Sched.deliver, Sched.trigger, Sched.dueTrigger, hne]

omit [DecidableEq τ] in
theorem setSince_deliver {path : Delivery} {now : Int} {t : τ} {info : TimerInfo} {p : Fin 8} :
    SetSince pos (.deliver path now t info :: log) p ↔ pos t = p ∨ SetSince pos log p := by
  have hreset : ActionEvent.deliver path now t info ≠ .reset := by simp
  rw [SetSince, Run.since_cons_iff, ← SetSince]
  constructor
  · rintro (⟨_, _, _, _, heq, hpos⟩ | ⟨_, hset⟩)
    · cases heq
      exact Or.inl hpos
    · exact Or.inr hset
  · rintro (hpos | hset)
    · exact Or.inl ⟨path, now, t, info, rfl, hpos⟩
    · exact Or.inr ⟨hreset, hset⟩

omit [DecidableEq τ] in
theorem setSince_of_mem {path : Delivery} {now : Int} {t : τ} {info : TimerInfo}
    (hmem : .deliver path now t info ∈ log) (hno : .reset ∉ log) : SetSince pos log (pos t) := by
  obtain ⟨later, earlier, rfl⟩ := List.append_of_mem hmem
  refine ⟨later, _, earlier, rfl, ⟨path, now, t, info, rfl, rfl⟩, ?_⟩
  rintro _ hlater rfl
  exact hno (List.mem_append_left _ hlater)

omit [DecidableEq τ] in
theorem not_setSince_reset {p : Fin 8} : ¬ SetSince pos (.reset :: log) p := by
  rw [SetSince, Run.since_cons_iff]
  rintro (⟨_, _, _, _, heq, _⟩ | ⟨hno, _⟩)
  · cases heq
  · exact hno rfl

/-- A byte of the state is set if and only if its event has triggered since the last reset. -/
theorem value_after (hclear : s₀.action a = ⟨fun _ => 0⟩) (hlog : EventsOf a n pos s₀ log)
    (p : Fin 8) :
    ((Sched.afterEvents a s₀ log).action a).value p = lmTriggeredState ↔ SetSince pos log p := by
  have hzero : (0 : UInt8) ≠ lmTriggeredState := by decide
  induction log with
  | nil =>
    rw [Sched.afterEvents, hclear]
    exact iff_of_false hzero Run.not_since_nil
  | cons e earlier ih =>
    have hearlier := ih (hlog.of_suffix (List.suffix_cons e earlier))
    cases e with
    | reset =>
      simp only [Sched.afterEvents, Sched.resetAction, Function.update_self]
      exact iff_of_false hzero not_setSince_reset
    | deliver path now t info =>
      have hrefers := (hlog path now t info List.mem_cons_self).1
      rw [← alist_afterEvents a s₀ earlier] at hrefers
      rw [Sched.afterEvents, Sched.action_deliver hrefers, setSince_deliver, LmState.activate]
      rcases eq_or_ne p (pos t) with rfl | hne
      · simp
      · dsimp only
        rw [Function.update_of_ne hne, or_iff_right hne.symm]
        exact hearlier

omit [DecidableEq τ] in
/-- A byte behind those of the events is never set. -/
theorem lt_of_setSince (hlog : EventsOf a n pos s₀ log) {p : Fin 8} (h : SetSince pos log p) :
    p.val < n := by
  obtain ⟨later, e, earlier, rfl, ⟨path, now, t, info, rfl, rfl⟩, _⟩ := h
  exact (hlog path now t info (by simp)).2

omit [DecidableEq τ] in
/-- All bytes are set if and only if all events of an action with 8 events have triggered. -/
theorem forall_setSince_iff (hn : n ≤ 8) (hlog : EventsOf a n pos s₀ log) :
    (∀ p, SetSince pos log p) ↔ n = 8 ∧ AllSet n pos log := by
  constructor
  · intro h
    have hlast := lt_of_setSince hlog (h (Fin.last 7))
    rw [Fin.val_last] at hlast
    exact ⟨by omega, fun p _ => h p⟩
  · rintro ⟨rfl, h⟩ p
    exact h p p.isLt

/-- At a trigger the action is recognised if and only if the trigger is from the due list, the
action has 8 events, and all of them have triggered. -/
theorem recognised_after_iff (hn : n ≤ 8) (hclear : s₀.action a = ⟨fun _ => 0⟩)
    {path : Delivery} {now : Int} {t : τ} {info : TimerInfo}
    (hlog : EventsOf a n pos s₀ (.deliver path now t info :: log)) :
    (Sched.afterEvents a s₀ log).Recognised a path now t info ↔
      path = .dueList ∧ n = 8 ∧ AllSet n pos (.deliver path now t info :: log) := by
  have hrefers := (hlog path now t info List.mem_cons_self).1
  rw [← alist_afterEvents a s₀ log] at hrefers
  have hstate := Sched.action_deliver hrefers path now info
  rw [Sched.recognised_iff hrefers, ← forall_setSince_iff hn hlog, ← hstate,
    LmState.complete_iff]
  refine and_congr_right fun _ => forall_congr' fun p => ?_
  exact value_after hclear hlog p

end Sequences

/-- At every trigger of a sequence the action is recognised as complete just when all of its
events have triggered since the last reset, if and only if every trigger that completes it
is from the due list and it has 8 events. -/
theorem action_recognised_iff {τ : Type} [DecidableEq τ] {a n : Nat} {pos : τ → Fin 8}
    {s₀ : Sched τ} {log : List (ActionEvent τ)} (hn : 1 ≤ n ∧ n ≤ 8)
    (hclear : s₀.action a = ⟨fun _ => 0⟩) (hlog : EventsOf a n pos s₀ log) :
    (∀ path now t info earlier, .deliver path now t info :: earlier <:+ log →
      ((Sched.afterEvents a s₀ earlier).Recognised a path now t info ↔
        AllSet n pos (.deliver path now t info :: earlier))) ↔
      ∀ path now t info earlier, .deliver path now t info :: earlier <:+ log →
        AllSet n pos (.deliver path now t info :: earlier) → n = 8 ∧ path = .dueList := by
  have hrecognised : ∀ path now t info earlier, .deliver path now t info :: earlier <:+ log →
      ((Sched.afterEvents a s₀ earlier).Recognised a path now t info ↔
        path = .dueList ∧ n = 8 ∧ AllSet n pos (.deliver path now t info :: earlier)) :=
    fun path now t info earlier hsuffix =>
      recognised_after_iff hn.2 hclear (hlog.of_suffix hsuffix)
  constructor
  · intro h path now t info earlier hsuffix hall
    obtain ⟨hpath, hn8, _⟩ := (hrecognised path now t info earlier hsuffix).mp
      ((h path now t info earlier hsuffix).mpr hall)
    exact ⟨hn8, hpath⟩
  · intro h path now t info earlier hsuffix
    rw [hrecognised path now t info earlier hsuffix]
    constructor
    · exact fun hrec => hrec.2.2
    · intro hall
      obtain ⟨hn8, hpath⟩ := h path now t info earlier hsuffix hall
      exact ⟨hpath, hn8, hall⟩

/-! ## Eight timers -/

/-- A record with nothing in it. -/
def plainInfo : TimerInfo := ⟨0, 0, 0, 0, 0, ⟨0, 0, ⟨fun _ => 0⟩⟩⟩

/-- Eight timers, each of which is an event of action 0. -/
def eightTimers : Sched (Fin 8) where
  timer t := ⟨.running, some plainInfo, [⟨t, some 0⟩], 0⟩
  list _ := initTmlistResource
  action _ := ⟨fun _ => 0⟩
  touched := []
  awakened := []

/-- Every timer triggers once, in the due list. -/
def eightTriggers : List (ActionEvent (Fin 8)) :=
  (List.finRange 8).map fun t => .deliver .dueList 0 t plainInfo

theorem eventsOf_eightTimers (log : List (ActionEvent (Fin 8))) :
    EventsOf 0 8 id eightTimers log := by
  intro path now t info _
  exact ⟨.here (by simp), t.isLt⟩

theorem allSet_of_eightTriggers {log : List (ActionEvent (Fin 8))} (h : eightTriggers ⊆ log)
    (hno : .reset ∉ log) : AllSet 8 id log := by
  intro p _
  exact setSince_of_mem (h (List.mem_map.mpr ⟨p, List.mem_finRange p, rfl⟩)) hno

theorem reset_not_mem_eightTriggers : .reset ∉ eightTriggers := by
  simp [eightTriggers]

/-- The last of eight triggers in the due list completes the action. -/
theorem action_recognised_iff_eightTimers :
    (Sched.afterEvents 0 eightTimers eightTriggers).Recognised 0 .dueList 0 3 plainInfo := by
  let log : List (ActionEvent (Fin 8)) := .deliver .dueList 0 3 plainInfo :: eightTriggers
  have hno : .reset ∉ log := by simp [log, reset_not_mem_eightTriggers]
  have hall : AllSet 8 id log := allSet_of_eightTriggers (List.subset_cons_self _ _) hno
  refine ((action_recognised_iff (by decide) rfl (eventsOf_eightTimers log)).mpr ?_ .dueList 0 3
    plainInfo eightTriggers List.suffix_rfl).mpr hall
  intro path now t info earlier hsuffix _
  have hmem : .deliver path now t info ∈ log := hsuffix.subset List.mem_cons_self
  simp only [log, eightTriggers, List.mem_cons, List.mem_map, ActionEvent.deliver.injEq] at hmem
  rcases hmem with ⟨hpath, _⟩ | ⟨_, _, hpath, _⟩
  · exact ⟨rfl, hpath⟩
  · exact ⟨rfl, hpath.symm⟩

/-- An action with one event is not recognised when that event triggers, and an action with
eight events is not recognised when a work list delivers the last trigger. -/
theorem complete_action_not_recognised :
    (AllSet 1 id [.deliver .dueList 0 (0 : Fin 8) plainInfo] ∧
      ¬ eightTimers.Recognised 0 .dueList 0 0 plainInfo) ∧
    (AllSet 8 id (.deliver .timerList 0 (3 : Fin 8) plainInfo :: eightTriggers) ∧
      ¬ (Sched.afterEvents 0 eightTimers eightTriggers).Recognised 0 .timerList 0 3
        plainInfo) := by
  refine ⟨⟨fun p hp => ?_, fun h => ?_⟩, ?_, fun h => ?_⟩
  · have hp0 : p = 0 := Fin.ext (Nat.lt_one_iff.mp hp)
    rw [hp0]
    exact setSince_of_mem List.mem_cons_self (by simp)
  · exact absurd h.1 (by decide)
  · exact allSet_of_eightTriggers (List.subset_cons_self _ _)
      (by simp [reset_not_mem_eightTriggers])
  · have hrefers : RefersOnce 0 3 (eightTimers.timer 3).alist := .here (by simp)
    rw [← alist_afterEvents 0 eightTimers eightTriggers] at hrefers
    exact absurd ((Sched.recognised_iff hrefers _ _ _).mp h).1 (by decide)

end LMiced
