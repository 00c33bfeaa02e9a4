import LMiced.Resource.Lateness

/-!
# The pace of a timer

`no_late_timer_of_run` bounds the delay of a single trigger. This file counts the triggers of
one timer over a run. A trigger comes no earlier than one period after the one before, because
`timer_list_schedule` compares with the time it wrote then, and less than one millisecond after
that, because the timer is in a list that is visited in time.

* `Sched.Ticked`: what one tick makes of the info block;
* `TimerInfo.Paced`: what `n` triggers make of it;
* `pace_of_run`: the number of triggers between two states of a run, from both sides. The
  delays add up, so it is not the time over the period rounded.
-/

namespace LMiced

/-! ## Triggers at a pace -/

/-- `info'` is `info` behind `n` triggers, each of them between one period and one period and
one millisecond behind the last. -/
structure TimerInfo.Paced (info : TimerInfo) (n : Nat) (info' : TimerInfo) : Prop where
  fixed : info' = { info with timer := info'.timer }
  count : info'.timer.count = info.timer.count + UInt64.ofNat n
  le : n * info.period ≤ info'.timer.begin - info.timer.begin
  ge : info'.timer.begin - info.timer.begin ≤ n * (info.period + millisecond)

namespace TimerInfo

variable {info info' : TimerInfo} {n : Nat} {now : Int}

theorem Paced.refl (info : TimerInfo) : info.Paced 0 info where
  fixed := rfl
  count := (add_zero _).symm
  le := by simp
  ge := by simp

theorem Paced.period (h : info.Paced n info') : info'.period = info.period := by
  rw [h.fixed]

theorem Paced.family (h : info.Paced n info') : info'.family = info.family := by
  rw [h.fixed]
  rfl

theorem Paced.begin_le (h : info.Paced n info') (hperiod : 0 < info.period) :
    info.timer.begin ≤ info'.timer.begin := by
  have hle := h.le
  have hmul : 0 ≤ (n : Int) * info.period := Int.mul_nonneg (Int.natCast_nonneg n) hperiod.le
  omega

/-- One more trigger, in time. -/
theorem Paced.fire (h : info.Paced n info') (hdue : info'.timer.begin + info'.period ≤ now)
    (hlate : now ≤ info'.timer.begin + info'.period + millisecond) :
    info.Paced (n + 1) (info'.fire now) where
  fixed := by
    rw [h.fixed]
    rfl
  count := by
    show info'.timer.count + 1 = info.timer.count + UInt64.ofNat (n + 1)
    rw [h.count, UInt64.ofNat_add, ← add_assoc]
    rfl
  le := by
    have hle := h.le
    rw [h.period] at hdue
    show (n + 1 : Nat) * info.period ≤ now - info.timer.begin
    rw [Nat.cast_succ, add_mul, one_mul]
    omega
  ge := by
    have hge := h.ge
    rw [h.period] at hlate
    show now - info.timer.begin ≤ (n + 1 : Nat) * (info.period + millisecond)
    rw [Nat.cast_succ, add_mul, one_mul]
    omega

end TimerInfo

/-- Only a running timer is running after a work list visit, and it is filed. -/
theorem timerVerdict_running {now : Int} {r : TimerRes}
    (h : (timerVerdict now r).res.active = .running) :
    r.active = .running ∧ (timerVerdict now r).dest ≠ .removed := by
  rcases timerVerdict_cases now r with
    ⟨_, _, hv⟩ | ⟨_, _, _, _, _, hv⟩ | ⟨_, _, hrun, _, _, hv⟩ | ⟨_, _, hrun, _, hv⟩ | ⟨_, hv⟩ <;>
    rw [hv] at h ⊢
  · cases h
  · cases h
  · exact ⟨hrun, nofun⟩
  · exact ⟨hrun, nofun⟩
  · exact ⟨h, nofun⟩

/-! ## One tick -/

namespace Sched

variable {τ : Type} [DecidableEq τ]

/-- The timer is in no due list, and it is in a list if it is running. -/
structure InWork (s : Sched τ) (t : τ) : Prop where
  not_due : ∀ f, t ∉ (s.list ⟨f, .due⟩).contents
  listed : (s.timer t).active = .running → 0 < s.positions t

/-- From the record `r` with the info block `info` on, the timer has been triggered once at
`now`, when it was due, or it is as before. -/
structure Ticked (now : Int) (t : τ) (r : TimerRes) (info : TimerInfo) (s : Sched τ) : Prop where
  running : (s.timer t).active = .running → r.active = .running
  info : (s.timer t).info = some info ∨ (r.active = .running ∧
    info.timer.begin + info.period ≤ now ∧ (s.timer t).info = some (info.fire now))

variable {now tick : Int} {l : ListId} {c : Cursor} {t u : τ} {s s' : Sched τ} {r : TimerRes}
  {info : TimerInfo} {f : Family} {b : Band}

omit [DecidableEq τ] in
theorem Ticked.of_timer_eq (h : s.Ticked now t r info) (heq : s'.timer t = s.timer t) :
    s'.Ticked now t r info where
  running := heq ▸ h.running
  info := heq ▸ h.info

/-- What leaves the timer where it is. -/
theorem InWork.frame (h : s.InWork t)
    (hdue : ∀ f, t ∈ (s'.list ⟨f, .due⟩).contents → t ∈ (s.list ⟨f, .due⟩).contents)
    (hrun : (s'.timer t).active = .running →
      (s.timer t).active = .running ∧ s'.positions t = s.positions t) : s'.InWork t where
  not_due f hmem := h.not_due f (hdue f hmem)
  listed hrun' := by
    obtain ⟨hrun, hpos⟩ := hrun hrun'
    rw [hpos]
    exact h.listed hrun

/-- The record of a timer is written. -/
theorem InWork.setRes {r : TimerRes} (h : s.InWork t) (hr : u = t → r.active ≠ .running) :
    (s.setRes u r).InWork t := by
  refine h.frame (fun _ hmem => hmem) fun hrun => ?_
  rcases eq_or_ne t u with rfl | hne
  · rw [setRes_timer, Function.update_self] at hrun
    exact absurd hrun (hr rfl)
  · rw [setRes_timer, Function.update_of_ne hne] at hrun
    exact ⟨hrun, rfl⟩

variable (clk : Int) in
/-- A due list holds other timers only. -/
theorem InWork.dueVisit (h : s.InWork t) (hu : (s.list ⟨f, .due⟩).entryAt c.arr c.pos = some u) :
    (dueVisit clk ⟨f, .due⟩ c u s).1.InWork t ∧
      (dueVisit clk ⟨f, .due⟩ c u s).1.timer t = s.timer t := by
  have hne : t ≠ u := by
    rintro rfl
    exact h.not_due f (Chain.mem_of_entryAt hu)
  have htimer : (Sched.dueVisit clk ⟨f, .due⟩ c u s).1.timer t = s.timer t :=
    dueVisit_timer_of_ne hne
  refine ⟨h.frame (fun f' hmem => ?_) fun hrun => ?_, htimer⟩
  · exact (dueVisit_mem hmem).resolve_right fun heq => hne heq.1
  · rw [htimer] at hrun
    exact ⟨hrun, dueVisit_positions_of_ne hu hne⟩

variable (clk : Int) in
theorem InWork.timerVisit (h : s.InWork t) (hu : (s.list l).entryAt c.arr c.pos = some u) :
    (timerVisit clk l c u s).1.InWork t := by
  refine h.frame (fun f hmem => timerVisit_mem_due hmem) fun hrun => ?_
  have hpos := timerVisit_positions clk hu t
  rw [timerVisit_timer] at hrun
  rcases eq_or_ne t u with rfl | hne
  · rw [Function.update_self] at hrun
    obtain ⟨hrun, hdest⟩ := timerVerdict_running hrun
    rw [if_neg fun heq => hdest heq.2] at hpos
    exact ⟨hrun, hpos⟩
  · rw [Function.update_of_ne hne] at hrun
    rw [if_neg fun heq => hne heq.1] at hpos
    exact ⟨hrun, hpos⟩

/-- A visit at the time of the tick triggers the timer when it is due, and not once more. -/
theorem Ticked.timerVisit (h : s.Ticked now t r info) (hperiod : 0 < info.period)
    (hbegin : 0 < info.timer.begin) : (timerVisit now l c u s).1.Ticked now t r info := by
  rcases eq_or_ne t u with rfl | hne
  · have htimer : (Sched.timerVisit now l c t s).1.timer t =
        (timerVerdict now (s.timer t)).res := by
      rw [timerVisit_timer, Function.update_self]
    refine ⟨fun hrun => h.running (timerVerdict_running (htimer ▸ hrun)).1, ?_⟩
    rw [htimer]
    rcases h.info with hold | ⟨hran, hdue, hnew⟩
    · have hremaining : info.remaining now = info.timer.begin + info.period - now :=
        if_neg hbegin.not_ge
      rcases timerVerdict_cases now (s.timer t) with
        ⟨_, _, hv⟩ | ⟨info', hinfo, hrun, hrem, _, hv⟩ | ⟨info', hinfo, hrun, hrem, _, hv⟩ |
        ⟨_, _, _, _, hv⟩ | ⟨_, hv⟩ <;> rw [hv]
      · exact Or.inl hold
      · obtain rfl : info = info' := Option.some.inj (hold.symm.trans hinfo)
        exact Or.inr ⟨h.running hrun, by omega, rfl⟩
      · obtain rfl : info = info' := Option.some.inj (hold.symm.trans hinfo)
        exact Or.inr ⟨h.running hrun, by omega, rfl⟩
      · exact Or.inl hold
      · exact Or.inl hold
    · -- It was triggered just now, so it has its whole period left.
      have hremaining : (info.fire now).remaining now = info.period := by
        show (if now ≤ 0 then 0 else now + info.period - now) = info.period
        rw [if_neg (by omega)]
        omega
      rcases timerVerdict_cases now (s.timer t) with
        ⟨_, _, hv⟩ | ⟨info', hinfo, _, hrem, _, hv⟩ | ⟨info', hinfo, _, hrem, _, hv⟩ |
        ⟨_, _, _, _, hv⟩ | ⟨_, hv⟩ <;> rw [hv]
      · exact Or.inr ⟨hran, hdue, hnew⟩
      · obtain rfl : info.fire now = info' := Option.some.inj (hnew.symm.trans hinfo)
        exact absurd (hremaining ▸ hrem) hperiod.not_ge
      · obtain rfl : info.fire now = info' := Option.some.inj (hnew.symm.trans hinfo)
        exact absurd (hremaining ▸ hrem) hperiod.not_ge
      · exact Or.inr ⟨hran, hdue, hnew⟩
      · exact Or.inr ⟨hran, hdue, hnew⟩
  · refine h.of_timer_eq ?_
    rw [timerVisit_timer, Function.update_of_ne hne]

/-- A ticker list holds no timer of the other family. -/
theorem Ticked.not_mem_ticker (h : s.Ticked now t r info) (hfiled : s.Filed)
    (hfamily : info.family = .timer) : t ∉ (s.list ⟨.ticker, b⟩).contents := by
  intro hmem
  have hticker : info.family = .ticker := by
    rcases h.info with hold | ⟨_, _, hnew⟩
    · exact hfiled.family _ t _ hmem hold
    · exact hfiled.family _ t (info.fire now) hmem hnew
  rw [hfamily] at hticker
  cases hticker

/-- A tick triggers the timer at most once, and when it is due. -/
theorem ticked_of_scheduleTimerAndTicker {fuel count : Nat} (hfiled : s.Filed) (hwork : s.InWork t)
    (hinfo : (s.timer t).info = some info) (hfamily : info.family = .timer)
    (hperiod : 0 < info.period) (hbegin : 0 < info.timer.begin)
    (h : scheduleTimerAndTicker fuel now tick count s = some s') :
    s'.InWork t ∧ s'.Ticked now t (s.timer t) info := by
  have hinv := scheduleTimerAndTicker_invariant
    (I := fun s' => s'.Filed ∧ s'.InWork t ∧ s'.Ticked now t (s.timer t) info) ?_ ?_ h
    ⟨hfiled, hwork, id, Or.inl hinfo⟩
  · exact hinv.2
  · rintro f c u s hu ⟨hfiled, hwork, hticked⟩
    obtain ⟨hwork', htimer⟩ := hwork.dueVisit (clock now tick f) hu
    exact ⟨hfiled.dueVisit hu, hwork', hticked.of_timer_eq htimer⟩
  · rintro f b c u s _ hu ⟨hfiled, hwork, hticked⟩
    refine ⟨hfiled.timerVisit _ hu, hwork.timerVisit _ hu, ?_⟩
    cases f with
    | timer => exact hticked.timerVisit hperiod hbegin
    | ticker =>
      have hne : t ≠ u := by
        rintro rfl
        exact hticked.not_mem_ticker hfiled hfamily (Chain.mem_of_entryAt hu)
      refine hticked.of_timer_eq ?_
      rw [timerVisit_timer, Function.update_of_ne hne]

/-! ## The tasks -/

theorem running_of_taskProc {task : ResTask τ}
    (h : ((taskProc task s).timer t).active = .running) : (s.timer t).active = .running := by
  cases task with
  | addTimer u => rwa [taskProc, appendTimerToRes_timer] at h
  | delTimer u =>
    rcases removeTimerFromRes_cases s u with ⟨htimer, _⟩ | ⟨_, _, _, htimer, _⟩
    · rwa [taskProc, htimer] at h
    · rw [taskProc, htimer] at h
      rcases eq_or_ne t u with rfl | hne
      · rw [Function.update_self] at h
        cases h
      · rwa [Function.update_of_ne hne] at h
  | addWorker w => exact h
  | delWorker w => rwa [taskProc, removeTimerByWorker_timer] at h

/-- A task takes the timer out of its list only if it is not in use afterwards. -/
theorem InWork.taskProc {task : ResTask τ} (h : s.InWork t) (hadd : task ≠ .addTimer t)
    (hworker : ∀ w, task ≠ .delWorker w) : (taskProc task s).InWork t := by
  cases task with
  | addTimer u =>
    have hne : t ≠ u := fun heq => hadd (by rw [heq])
    refine h.frame (fun f hmem => ?_) fun hrun => ⟨running_of_taskProc hrun, ?_⟩
    · exact (mem_appendTimerToRes hmem).resolve_right fun heq => hne heq.1
    · exact positions_appendTimerToRes_of_ne hne
  | delTimer u =>
    refine h.frame (fun f hmem => mem_of_mem_removeTimerFromRes hmem) fun hrun =>
      ⟨running_of_taskProc hrun, ?_⟩
    rcases eq_or_ne t u with rfl | hne
    · rcases removeTimerFromRes_cases s t with ⟨_, hlist⟩ | ⟨_, _, _, htimer, _⟩
      · exact positions_congr hlist t
      · rw [Sched.taskProc, htimer, Function.update_self] at hrun
        cases hrun
    · exact positions_removeTimerFromRes_of_ne hne
  | addWorker w => exact h
  | delWorker w => exact absurd rfl (hworker w)

end Sched

/-! ## Runs -/

variable {τ : Type} [DecidableEq τ]

/-- The worker writes the info block of the timer. -/
def TimedEvent.Writes (t : τ) : TimedEvent τ → Prop
  | .write u _ => u = t
  | .maintain _ _ => False
  | .tick _ _ _ => False

instance (t : τ) (e : TimedEvent τ) : Decidable (e.Writes t) :=
  match e with
  | .write u _ => inferInstanceAs (Decidable (u = t))
  | .maintain _ _ => inferInstanceAs (Decidable False)
  | .tick _ _ _ => inferInstanceAs (Decidable False)

namespace Clocked

/-- Since the timer had the info block `info` it has been triggered at its pace. -/
structure Paced (t : τ) (info : TimerInfo) (p : Clocked τ) : Prop where
  punctual : p.Punctual
  work : p.res.sched.InWork t
  paced : ∃ n info', (p.res.sched.timer t).info = some info' ∧ info.Paced n info' ∧
    (0 < n → info'.timer.begin ≤ p.now)

variable {p p' : Clocked τ} {t : τ} {info info' : TimerInfo}

/-- A running timer in its pace is not overdue. -/
theorem Paced.not_overdue (h : p.Paced t info) (hfamily : info'.family = .timer)
    (hbegin : 0 < info'.timer.begin) (hrun : (p.res.sched.timer t).active = .running)
    (hinfo : (p.res.sched.timer t).info = some info') :
    p.now < info'.timer.begin + info'.period := by
  obtain ⟨⟨f, b⟩, hmem⟩ := Sched.positions_pos_iff.mp (h.work.listed hrun)
  obtain rfl : f = .timer :=
    (h.punctual.filed.family _ t info' hmem hinfo).symm.trans hfamily
  have hb : b ≠ .due := by
    rintro rfl
    exact h.work.not_due _ hmem
  have hleft := (h.punctual.onTime b t info' hb hmem hrun hinfo hbegin).resolve_left id
  have hpos := leeway_pos p.count b
  unfold TimerInfo.left at hleft
  omega

/-- What leaves the info block of the timer alone. -/
theorem Paced.keep (h : p.Paced t info) (hpunctual : p'.Punctual) (hwork : p'.res.sched.InWork t)
    (hinfo : (p'.res.sched.timer t).info = (p.res.sched.timer t).info) (hnow : p.now ≤ p'.now) :
    p'.Paced t info := by
  obtain ⟨n, info', hinfo', hpaced, hpast⟩ := h.paced
  exact ⟨hpunctual, hwork, n, info', hinfo.trans hinfo', hpaced, fun hn => (hpast hn).trans hnow⟩

theorem info_setRes {s : Sched τ} {u : τ} {r : TimerRes}
    (hr : u = t → r.info = (s.timer u).info) :
    ((s.setRes u r).timer t).info = (s.timer t).info := by
  rcases eq_or_ne t u with rfl | hne
  · rw [Sched.setRes_timer, Function.update_self, hr rfl]
  · rw [Sched.setRes_timer, Function.update_of_ne hne]

/-- The tick, with the info block that the timer has before it. -/
theorem Paced.tick (h : p.Paced t info) (hfamily : info.family = .timer)
    (hperiod : 0 < info.period) (hbegin : 0 < info.timer.begin) {peeks fuel : Nat}
    {tickTime : Int} (hin : (TimedEvent.tick peeks fuel tickTime).InTime p)
    (hpunctual : p'.Punctual) (hstep : (TimedEvent.tick peeks fuel tickTime).step p = some p') :
    p'.Paced t info := by
  obtain ⟨s, hs, rfl⟩ := Option.map_eq_some_iff.mp hstep
  obtain ⟨n, info', hinfo', hpaced, hpast⟩ := h.paced
  have hbegin' : 0 < info'.timer.begin := hbegin.trans_le (hpaced.begin_le hperiod)
  -- The tasks trigger nothing: the timer keeps its info block and its list.
  have hdrained := drain_invariant Sched.taskProc
    (I := fun tasks (s : Sched τ) => s.Punctual (p.now + millisecond) (p.count + 1)
      (Sched.visited (p.count + 1)) tasks ∧ s.InWork t ∧ (s.timer t).info = some info' ∧
      ((s.timer t).active = .running → (p.res.sched.timer t).active = .running))
    (fun task tasks s hs => ?_) peeks p.res.queue p.res.sched
    ⟨⟨h.punctual.filed, h.punctual.once, h.punctual.fresh, h.punctual.workers,
      onTime_advance h.punctual hin⟩, h.work, hinfo', id⟩
  · obtain ⟨hfiled, hwork, hinfo, hrun⟩ := hdrained
    obtain ⟨hwork', hticked⟩ := Sched.ticked_of_scheduleTimerAndTicker hfiled.filed hwork hinfo
      (hpaced.family.trans hfamily) (hpaced.period.symm ▸ hperiod) hbegin' hs
    refine ⟨hpunctual, hwork', ?_⟩
    -- The scheduling triggers it once or not at all.
    rcases hticked.info with hold | ⟨hran, hdue, hnew⟩
    · refine ⟨n, info', hold, hpaced, fun hn => (hpast hn).trans ?_⟩
      exact Int.le_add_of_nonneg_right (by decide)
    · have hlt := h.not_overdue (hpaced.family.trans hfamily) hbegin' (hrun hran) hinfo'
      exact ⟨n + 1, info'.fire (p.now + millisecond), hnew, hpaced.fire hdue (by omega),
        fun _ => le_refl _⟩
  · obtain ⟨hs, hwork, hinfo, hrun⟩ := hs
    refine ⟨hs.taskProc, hwork.taskProc ?_ fun w hw => ?_, ?_, fun h => ?_⟩
    · -- It has been triggered, so it is not waiting to be added.
      rintro rfl
      have hfresh := hs.fresh t (by rw [additions_cons_addTimer, if_pos rfl]; omega)
      exact absurd hbegin' (hfresh info' hinfo).1.not_gt
    · exact hs.workers w (hw ▸ List.mem_cons_self)
    · rw [Sched.taskProc_info, hinfo]
    · exact hrun (Sched.running_of_taskProc h)

theorem Paced.step {e : TimedEvent τ} (h : p.Paced t info) (hfamily : info.family = .timer)
    (hperiod : 0 < info.period) (hbegin : 0 < info.timer.begin) (he : e.Orderly p)
    (hin : e.InTime p) (hwrite : ¬ e.Writes t) (hstep : e.step p = some p') :
    p'.Paced t info := by
  have hpunctual := h.punctual.step he hin hstep
  cases e with
  | write u info₁ =>
    obtain ⟨res, hres, rfl⟩ := Option.map_eq_some_iff.mp hstep
    obtain ⟨_, _, rfl⟩ := Option.map_eq_some_iff.mp hres
    exact h.keep hpunctual (h.work.setRes fun heq => absurd heq hwrite)
      (info_setRes fun heq => absurd heq hwrite) le_rfl
  | maintain locked u =>
    obtain ⟨res, hres, rfl⟩ := Option.map_eq_some_iff.mp hstep
    rcases ResParam.maintainTimer_cases hres with ⟨_, _, rfl⟩ | ⟨hopen, rfl⟩ | rfl
    · exact h.keep hpunctual (h.work.setRes fun _ heq => nomatch heq)
        (info_setRes fun _ => rfl) le_rfl
    · -- A timer that is opened was never triggered, and this one was.
      have hne : u ≠ t := by
        rintro rfl
        obtain ⟨n, info', hinfo, hpaced, _⟩ := h.paced
        have hfresh := ((he hopen).2 info' hinfo).1
        exact absurd (hbegin.trans_le (hpaced.begin_le hperiod)) hfresh.not_gt
      exact h.keep hpunctual (h.work.setRes fun heq => absurd heq hne)
        (info_setRes fun heq => absurd heq hne) le_rfl
    · exact h.keep hpunctual h.work rfl le_rfl
  | tick peeks fuel tickTime => exact h.tick hfamily hperiod hbegin hin hpunctual hstep

end Clocked

/-- A run of the daemon in which the timers of work list 2 have time left until the next visit of
that list, and a later part of it in which the worker does not write the info block of one wall
clock timer. If this timer is running in a work list at the start of that part, has been triggered
before, and is still running at its end, then its number of triggers in between is bounded from
both sides by the time that has passed. -/
theorem pace_of_run {info : τ → TimerInfo} {worker : τ → Nat} {now : Int} {count : Nat}
    {p p' : Clocked τ}
    (h : Run.Reachable TimedEvent.step (fun e p => e.Orderly p ∧ e.InTime p)
      (Clocked.init info worker now count) p)
    {b : Band} {t : τ} {info₀ : TimerInfo} (hb : b ≠ .due)
    (ht : t ∈ (p.res.sched.list ⟨.timer, b⟩).contents)
    (hinfo : (p.res.sched.timer t).info = some info₀) (hbegin : 0 < info₀.timer.begin)
    (h' : Run.Reachable TimedEvent.step
      (fun e p => (e.Orderly p ∧ e.InTime p) ∧ ¬ e.Writes t) p p')
    (hrun : (p'.res.sched.timer t).active = .running) :
    ∃ n info', (p'.res.sched.timer t).info = some info' ∧
      info'.timer.count = info₀.timer.count + UInt64.ofNat n ∧
      (0 < n → n * info₀.period ≤ p'.now - info₀.timer.begin) ∧
      p'.now - info₀.timer.begin < n * (info₀.period + millisecond) + info₀.period := by
  have hstart : p.Punctual :=
    h.invariant (fun e p p' he hstep hp => hp.step he.1 he.2 hstep)
      (Clocked.init_punctual info worker now count)
  have hfamily : info₀.family = .timer := hstart.filed.family _ t info₀ ht hinfo
  have hperiod : 0 < info₀.period := hstart.filed.period _ t info₀ ht hinfo
  -- A timer is in one list only, so this one is in no due list.
  have hwork : p.res.sched.InWork t := by
    refine ⟨fun f hdue => hb ?_, fun _ => Sched.positions_pos_iff.mpr ⟨_, ht⟩⟩
    exact congrArg ListId.band (Sched.eq_of_positions_le_one (hstart.filed.once t) ht hdue)
  have hpaced : p'.Paced t info₀ :=
    h'.invariant (fun e p p' he hstep hp =>
        hp.step hfamily hperiod hbegin he.1.1 he.1.2 he.2 hstep)
      ⟨hstart, hwork, 0, info₀, hinfo, .refl info₀, fun hn => absurd hn (lt_irrefl 0)⟩
  obtain ⟨n, info', hinfo', hpace, hpast⟩ := hpaced.paced
  have hlt := hpaced.not_overdue (hpace.family.trans hfamily)
    (hbegin.trans_le (hpace.begin_le hperiod)) hrun hinfo'
  rw [hpace.period] at hlt
  have hle := hpace.le
  have hge := hpace.ge
  refine ⟨n, info', hinfo', hpace.count, fun hn => ?_, by omega⟩
  have hpast := hpast hn
  omega

/-- A timer of 32 milliseconds is triggered by the ticks 32 and 64, which visit its list. -/
def pacedTimer : TimerInfo := { freshTimer 3 with period := 320000 }

/-- What the run of this timer meets before each event. -/
abbrev PacedStep (e : TimedEvent Nat) (p : Clocked Nat) : Prop :=
  (e.Orderly p ∧ (p.res.sched.list ⟨.timer, .work2⟩).contents = []) ∧ ¬ e.Writes 0

theorem pace_of_run_pacedTimer :
    ∃ (p : Clocked Nat) (n : Nat), 0 < n ∧ n * (320000 : Int) ≤ p.now - millisecond ∧
      p.now - millisecond < n * (320000 + millisecond) + 320000 := by
  have hin : ∀ (e : TimedEvent Nat) (p : Clocked Nat), PacedStep e p →
      e.Orderly p ∧ e.InTime p := by
    rintro e p ⟨⟨he, hempty⟩, _⟩
    refine ⟨he, ?_⟩
    cases e with
    | write t info => exact trivial
    | maintain locked t => exact trivial
    | tick peeks fuel tickTime =>
      intro t info ht
      rw [hempty] at ht
      cases ht
  obtain ⟨p, hrun, hp⟩ := Run.exists_reachable_of_execute TimedEvent.step PacedStep
    [.maintain false 0, .tick 2 8 0]
    (s := Clocked.init (fun _ => pacedTimer) (fun _ => 1) 0 31)
    (p := fun p => decide (0 ∈ (p.res.sched.list ⟨.timer, .work3⟩).contents ∧
        ∃ info ∈ (p.res.sched.timer 0).info, info.timer.begin = millisecond ∧
          info.timer.count = 1 ∧ info.period = 320000) &&
      (Run.execute TimedEvent.step PacedStep (List.replicate 32 (.tick 2 8 0)) p).any
        fun p' : Clocked Nat =>
        decide ((p'.res.sched.timer 0).active = .running ∧
          ∃ info ∈ (p'.res.sched.timer 0).info, info.timer.count = 2)) (by decide +kernel)
  obtain ⟨hstart, hend⟩ := Bool.and_eq_true_iff.mp hp
  obtain ⟨hmem, info, hinfo, hbegin, hcount, hperiod⟩ := of_decide_eq_true hstart
  obtain ⟨p', hexecute, hp'⟩ := (Option.any_eq_true _ _).mp hend
  obtain ⟨hrunning, info', hinfo', hcount'⟩ := of_decide_eq_true hp'
  obtain ⟨n, info'', hinfo'', htimes, hle, hlt⟩ := pace_of_run
    (hrun.mono fun e p he => hin e p he) (by decide) hmem hinfo (hbegin ▸ by decide)
    ((Run.reachable_of_execute hexecute).mono fun e p he => ⟨hin e p he, he.2⟩) hrunning
  have hn : 0 < n := by
    rcases Nat.eq_zero_or_pos n with rfl | hn
    · -- The counter went from 1 to 2.
      rw [Option.some.inj (hinfo''.symm.trans hinfo'), hcount', hcount] at htimes
      exact absurd htimes (by decide)
    · exact hn
  rw [hbegin, hperiod] at hlt
  have hle := hle hn
  rw [hbegin, hperiod] at hle
  exact ⟨p', n, hn, hle, hlt⟩

end LMiced
