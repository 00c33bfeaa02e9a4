import LMiced.Resource.Tasks

/-!
# The size field of a work list timer

The size field of a timer is documented as its number of triggers, with 0 for
an infinite timer. `timer_list_schedule` removes a timer after a trigger when
its size is 0 or its counter has reached its size.

`SizeRule` states the documented rule for a timer. `sizeRule_of_run` says that
over every run the rule is kept for a timer with a size, and broken by the first
trigger of a timer without one.
-/

namespace LMiced

variable {τ : Type} [DecidableEq τ]

/-- The task adds or removes `t`, or removes the timers of the worker `w`. -/
def ResTask.Concerns (t : τ) (w : Nat) : ResTask τ → Prop
  | .addTimer u => u = t
  | .delTimer u => u = t
  | .addWorker _ => False
  | .delWorker v => v = w

/-- The event neither deletes the timer `t` nor opens it or rewrites its info block. -/
def ResEvent.Leaves (t : τ) : ResEvent τ → ResParam τ → Prop
  | .write u _, _ => u ≠ t
  | .maintain _ u, p => u = t → (p.sched.timer t).active = .running ∧
      ∀ info, (p.sched.timer t).info = some info → info.instId ≠ 0
  | .tasks _, p => ∀ task ∈ p.queue.entries, ¬ task.Concerns t (p.sched.timer t).worker
  | .schedule _ _ _ _, _ => True

namespace Sched

/-- The documented rule for the size field of a timer that was listed `k` times: an
infinite timer stays scheduled, any other is removed exactly when its counter
reaches its size. -/
def SizeRule (k : Nat) (t : τ) (s : Sched τ) : Prop :=
  ∃ info, (s.timer t).info = some info ∧
    (info.size = 0 → (s.timer t).active = .running ∧ s.positions t = k) ∧
    (info.size ≠ 0 →
      (info.timer.count.toNat < info.size.toNat ∧ (s.timer t).active = .running ∧
        s.positions t = k) ∨
      (info.timer.count.toNat = info.size.toNat ∧ (s.timer t).active = .notUse ∧
        s.positions t < k))

/-- `t` is a running timer with triggers left, listed `k` times and in work lists only. -/
structure WorkTimer (t : τ) (info : TimerInfo) (k : Nat) (s : Sched τ) : Prop where
  running : (s.timer t).active = .running
  info_eq : (s.timer t).info = some info
  continues : info.continues
  positions_eq : s.positions t = k
  not_due : ∀ f, t ∉ (s.list ⟨f, .due⟩).contents

/-! ## The invariant -/

/-- What a run makes of a work list timer that began with the info block `info`: it
runs and is listed as before, or it was removed at a trigger. -/
structure SizeInv (t : τ) (info : TimerInfo) (k : Nat) (s : Sched τ) : Prop where
  not_due : ∀ f, t ∉ (s.list ⟨f, .due⟩).contents
  state : ∃ tm : LmTimer, (s.timer t).info = some { info with timer := tm } ∧
    (((s.timer t).active = .running ∧ s.positions t = k ∧
        (info.size = 0 → tm.count = info.timer.count) ∧
        (info.size ≠ 0 → tm.count.toNat < info.size.toNat)) ∨
      ((s.timer t).active = .notUse ∧ s.positions t < k ∧
        (info.size = 0 → tm.count = info.timer.count + 1) ∧
        (info.size ≠ 0 → tm.count.toNat = info.size.toNat)))

variable {t : τ} {info : TimerInfo} {k : Nat} {s s' : Sched τ}

theorem WorkTimer.sizeInv (h : s.WorkTimer t info k) : s.SizeInv t info k where
  not_due := h.not_due
  state := by
    refine ⟨info.timer, h.info_eq,
      Or.inl ⟨h.running, h.positions_eq, fun _ => rfl, fun hsize => ?_⟩⟩
    exact h.continues.resolve_right hsize

/-- What leaves the record and the listing of `t` alone keeps the invariant. -/
theorem SizeInv.frame (hs : s.SizeInv t info k) (hres : s'.timer t = s.timer t)
    (hpos : s'.positions t = s.positions t)
    (hdue : ∀ f, t ∈ (s'.list ⟨f, .due⟩).contents → t ∈ (s.list ⟨f, .due⟩).contents) :
    s'.SizeInv t info k where
  not_due f hmem := hs.not_due f (hdue f hmem)
  state := by
    rw [hres, hpos]
    exact hs.state

theorem SizeInv.timerVisit_self {now : Int} {l : ListId} {c : Cursor} (hs : s.SizeInv t info k)
    (ht : (s.list l).entryAt c.arr c.pos = some t) :
    (timerVisit now l c t s).1.SizeInv t info k where
  not_due f hmem := hs.not_due f (timerVisit_mem_due hmem)
  state := by
    obtain ⟨tm, hinfo, hstate⟩ := hs.state
    have hpos := timerVisit_positions now ht t
    rw [timerVisit_timer, Function.update_self]
    rcases timerVerdict_cases now (s.timer t) with
      ⟨_, hdrop, hv⟩ | ⟨info', hi, hrun, _, hfin, hv⟩ | ⟨info', hi, hrun, _, hfin, hv⟩ |
        ⟨info', hi, hrun, _, hv⟩ | ⟨hnull, _⟩
    · rw [hv] at hpos ⊢
      simp only [and_self, if_true] at hpos
      -- A timer that is dropped was removed by an earlier trigger.
      rcases hstate with ⟨hrun, _⟩ | ⟨_, hlt, hcount⟩
      · exact absurd hrun hdrop
      · exact ⟨tm, hinfo, Or.inr ⟨rfl, by omega, hcount⟩⟩
    · rw [hv] at hpos ⊢
      simp only [and_self, if_true] at hpos
      rw [hinfo] at hi
      cases hi
      rcases hstate with ⟨_, hk, hinf, hsize⟩ | ⟨hnot, _⟩
      · refine ⟨_, rfl, Or.inr ⟨rfl, by omega, fun h0 => congrArg (· + 1) (hinf h0), fun h0 => ?_⟩⟩
        have hle := (hfin.resolve_left h0).1
        simp only [TimerInfo.fire, toNat_count_add_one (hsize h0)] at hle ⊢
        have hlt := hsize h0
        omega
      · rw [hrun] at hnot
        cases hnot
    · rw [hv] at hpos ⊢
      simp only [reduceCtorEq, and_false, if_false, Nat.add_zero] at hpos
      rw [hinfo] at hi
      cases hi
      -- It goes on, so it has a size, which is not reached.
      have h0 : info.size ≠ 0 := fun h0 => hfin (Or.inl h0)
      rcases hstate with ⟨_, hk, _, hsize⟩ | ⟨hnot, _⟩
      · refine ⟨_, rfl, Or.inl ⟨hrun, hpos.trans hk, fun h => absurd h h0, fun _ => ?_⟩⟩
        have hpos' : 0 < info.size.toNat := Nat.lt_of_le_of_lt (Nat.zero_le _) (hsize h0)
        by_contra hge
        exact hfin (Or.inr ⟨Nat.not_lt.mp hge, hpos'⟩)
      · rw [hrun] at hnot
        cases hnot
    · rw [hv] at hpos ⊢
      simp only [reduceCtorEq, and_false, if_false, Nat.add_zero] at hpos
      rw [hpos]
      exact ⟨tm, hinfo, hstate⟩
    · rw [hinfo] at hnull
      cases hnull

theorem SizeInv.timerVisit {now : Int} {l : ListId} {c : Cursor} {u : τ} (hs : s.SizeInv t info k)
    (hu : (s.list l).entryAt c.arr c.pos = some u) :
    (timerVisit now l c u s).1.SizeInv t info k := by
  by_cases htu : t = u
  · subst htu
    exact hs.timerVisit_self hu
  · refine hs.frame ?_ ?_ fun f hmem => ?_
    · rw [timerVisit_timer, Function.update_of_ne htu]
    · simpa [htu] using timerVisit_positions now hu t
    · exact (timerVisit_mem hmem).resolve_right fun h => htu h.1

theorem SizeInv.dueVisit {now : Int} {f : Family} {c : Cursor} {u : τ} (hs : s.SizeInv t info k)
    (hu : (s.list ⟨f, .due⟩).entryAt c.arr c.pos = some u) :
    (dueVisit now ⟨f, .due⟩ c u s).1.SizeInv t info k := by
  have htu : t ≠ u := by
    rintro rfl
    exact hs.not_due f (Chain.mem_of_entryAt hu)
  exact hs.frame (dueVisit_timer_of_ne htu) (dueVisit_positions_of_ne hu htu) fun f' hmem =>
    (dueVisit_mem hmem).resolve_right fun h => htu h.1

theorem SizeInv.taskProc {task : ResTask τ} (hs : s.SizeInv t info k)
    (htask : ¬ task.Concerns t (s.timer t).worker) : (taskProc task s).SizeInv t info k := by
  cases task with
  | addTimer u =>
    have htu : t ≠ u := fun h => htask h.symm
    exact hs.frame (by simp [Sched.taskProc]) (positions_appendTimerToRes_of_ne htu) fun f hmem =>
      (mem_appendTimerToRes hmem).resolve_right fun h => htu h.1
  | delTimer u =>
    have htu : t ≠ u := fun h => htask h.symm
    exact hs.frame (removeTimerFromRes_timer_of_ne htu) (positions_removeTimerFromRes_of_ne htu)
      fun f hmem => mem_of_mem_removeTimerFromRes hmem
  | addWorker w => exact hs
  | delWorker w =>
    have hw : (s.timer t).worker ≠ w := fun h => htask h.symm
    exact hs.frame (by simp [Sched.taskProc]) (positions_removeTimerByWorker hw) fun f hmem =>
      (removeTimerByWorker_sublist s w _).subset hmem

end Sched

/-! ## Runs -/

section Runs

variable {t : τ} {info : TimerInfo} {k : Nat} {p p' : ResParam τ}

theorem ResEvent.step_sizeInv {e : ResEvent τ} (he : e.Leaves t p) (h : e.step p = some p')
    (hp : p.sched.SizeInv t info k) : p'.sched.SizeInv t info k := by
  cases e with
  | write u info' =>
    obtain ⟨_, _, rfl⟩ := Option.map_eq_some_iff.mp h
    refine hp.frame ?_ rfl fun _ hmem => hmem
    exact Function.update_of_ne (Ne.symm he) _ _
  | maintain locked u =>
    have hcases := ResParam.maintainTimer_cases h
    by_cases hu : u = t
    · subst hu
      obtain ⟨hrun, hinst⟩ := he rfl
      rcases hcases with ⟨⟨info', hinfo', h0⟩, _⟩ | ⟨hopen, _⟩ | rfl
      · exact absurd h0 (hinst info' hinfo')
      · cases hrun.symm.trans hopen.1
      · exact hp
    · rcases hcases with ⟨_, _, rfl⟩ | ⟨_, rfl⟩ | rfl
      · exact hp.frame (Function.update_of_ne (Ne.symm hu) _ _) rfl fun _ hmem => hmem
      · exact hp.frame (Function.update_of_ne (Ne.symm hu) _ _) rfl fun _ hmem => hmem
      · exact hp
  | tasks peeks =>
    cases h
    -- The handled tasks leave the worker of the timer as it is.
    have hinv := drain_invariant Sched.taskProc
      (I := fun tasks (s : Sched τ) => s.SizeInv t info k ∧
        ∀ task ∈ tasks, ¬ task.Concerns t (s.timer t).worker)
      (fun task tasks s hs => ⟨hs.1.taskProc (hs.2 task List.mem_cons_self), fun task' h' => ?_⟩)
      peeks p.queue p.sched ⟨hp, he⟩
    · exact hinv.1
    · rw [Sched.taskProc_worker]
      exact hs.2 task' (List.mem_cons_of_mem _ h')
  | schedule fuel now tick count =>
    obtain ⟨s, hs, rfl⟩ := Option.map_eq_some_iff.mp h
    exact Sched.scheduleTimerAndTicker_invariant (I := fun s => s.SizeInv t info k)
      (fun f c u s hu h => h.dueVisit hu) (fun f b c u s _ hu h => h.timerVisit hu) hs hp

/-- Over every run, a timer with a size is removed exactly when its counter reaches
its size; a timer without one breaks the rule at its first trigger. -/
theorem sizeRule_of_run (hp : p.sched.WorkTimer t info k)
    (h : Run.Reachable ResEvent.step (ResEvent.Leaves t) p p') :
    (info.size ≠ 0 → p'.sched.SizeRule k t) ∧
    (info.size = 0 →
      ∀ info', (p'.sched.timer t).info = some info' → info'.timer.count ≠ info.timer.count →
        ¬ p'.sched.SizeRule k t) := by
  obtain ⟨_, tm, hinfo, hstate⟩ :=
    h.invariant (I := fun p => p.sched.SizeInv t info k)
      (fun e p p' he hstep hp => ResEvent.step_sizeInv he hstep hp) hp.sizeInv
  constructor
  · intro hsize
    refine ⟨_, hinfo, fun h0 => absurd h0 hsize, fun _ => ?_⟩
    rcases hstate with ⟨hrun, hk, _, hlt⟩ | ⟨hnot, hk, _, heq⟩
    · exact Or.inl ⟨hlt hsize, hrun, hk⟩
    · exact Or.inr ⟨heq hsize, hnot, hk⟩
  · -- A timer of size 0 that was triggered has been removed, against the rule.
    rintro hsize info' hinfo' hcount ⟨info'', hinfo'', hrule, _⟩
    rw [hinfo] at hinfo' hinfo''
    cases hinfo'
    cases hinfo''
    rcases hstate with ⟨_, _, heq, _⟩ | ⟨hnot, _⟩
    · exact hcount (heq hsize)
    · rw [(hrule hsize).1] at hnot
      cases hnot

end Runs

/-! ## A timer that runs -/

theorem workTimer_ofOne {l : ListId} {info : TimerInfo} (hl : l.band ≠ .due)
    (hinfo : info.continues) (w : Nat) :
    (Sched.ofOne l ⟨.running, some info, [], w⟩).WorkTimer () info 1 where
  running := rfl
  info_eq := rfl
  continues := hinfo
  positions_eq := Sched.positions_ofOne l _
  not_due _ hmem := hl (congrArg ListId.band (Sched.mem_ofOne hmem)).symm

/-- The state in which one timer of 10 milliseconds was just opened. -/
def freshlyOpened (size : UInt32) : ResParam Unit :=
  ⟨Sched.ofOne ⟨.timer, .work2⟩ ⟨.running, some (freshTimer size), [], 1⟩, BArray.empty⟩

/-- The state after the tick that triggers it first. -/
def firstTriggered (size : UInt32) : Option (ResParam Unit) :=
  (ResEvent.schedule 8 10000 10000 16).step (freshlyOpened size)

theorem reachable_firstTriggered {size : UInt32} {p : ResParam Unit}
    (h : firstTriggered size = some p) :
    Run.Reachable ResEvent.step (ResEvent.Leaves ()) (freshlyOpened size) p :=
  Relation.ReflTransGen.single ⟨.schedule 8 10000 10000 16, trivial, h⟩

theorem sizeRule_of_run_twice :
    ((firstTriggered 2).get (by decide)).sched.SizeRule 1 () :=
  (sizeRule_of_run (workTimer_ofOne (by decide) (by decide) 1)
    (reachable_firstTriggered (Option.some_get _).symm)).1 (by decide)

/-- An infinite timer does not stay scheduled. -/
theorem not_sizeRule_of_infinite :
    ¬ ∀ (p p' : ResParam Unit) (info : TimerInfo) (k : Nat), p.sched.WorkTimer () info k →
      Run.Reachable ResEvent.step (ResEvent.Leaves ()) p p' → p'.sched.SizeRule k () := by
  intro h
  obtain ⟨info, hinfo, hrule, _⟩ := h (freshlyOpened 0) ((firstTriggered 0).get (by decide))
    (freshTimer 0) 1 (workTimer_ofOne (by decide) (by decide) 1)
    (reachable_firstTriggered (Option.some_get _).symm)
  have hsize : info.size = 0 := by
    cases hinfo
    rfl
  exact absurd (hrule hsize).1 (by decide)

end LMiced
