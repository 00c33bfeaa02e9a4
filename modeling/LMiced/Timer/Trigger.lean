import LMiced.Timer.Schedule

/-!
# At most one trigger per tick

`schedule_timer_and_ticker` moves timers between lists while it walks them, and
it may move a timer into a list that it walks later in the same call. A trigger
writes the current time to the start time of the timer, so in a later list the
timer has its whole period left.

* `WellListed` is preserved by every visit;
* `schedule_triggers_at_most_once` says that one call adds at most one to the
  counter of every timer.
-/

namespace LMiced

/-! ## Lists by family -/

namespace Sched

variable {τ : Type} [DecidableEq τ]

/-- Each timer is listed at most once, and in a list of the family of its type. -/
structure WellListed (s : Sched τ) : Prop where
  once : ∀ t, s.positions t ≤ 1
  family : ∀ l t info, t ∈ (s.list l).contents → (s.timer t).info = some info →
    info.family = l.family

end Sched

@[simp] theorem TimerInfo.fire_family (now : Int) (info : TimerInfo) :
    (info.fire now).family = info.family := rfl

/-- The family of a timer is not changed by a work list visit. -/
theorem timerVerdict_family {now : Int} {r : TimerRes} {info : TimerInfo}
    (h : (timerVerdict now r).res.info = some info) :
    ∃ info', r.info = some info' ∧ info'.family = info.family := by
  obtain ⟨info', hinfo, rfl | rfl⟩ := timerVerdict_info h
  · exact ⟨info, hinfo, rfl⟩
  · exact ⟨info', hinfo, rfl⟩

namespace Sched

variable {τ : Type} [DecidableEq τ] {now : Int} {l : ListId} {c : Cursor} {t : τ} {s : Sched τ}

theorem WellListed.timerVisit (hs : s.WellListed) (ht : (s.list l).entryAt c.arr c.pos = some t) :
    (timerVisit now l c t s).1.WellListed where
  once u := by
    have hpos := timerVisit_positions now ht u
    have hle := hs.once u
    omega
  family l' u info hu hinfo := by
    rw [timerVisit_timer] at hinfo
    by_cases hut : u = t
    · subst hut
      rw [Function.update_self] at hinfo
      obtain ⟨info', hinfo', hfam⟩ := timerVerdict_family hinfo
      rcases timerVisit_mem hu with hu | ⟨_, hdest⟩
      · exact hfam ▸ hs.family l' u info' hu hinfo'
      · obtain ⟨info'', hinfo'', hfam', _⟩ := timerVerdict_dest hdest
        rw [hinfo'] at hinfo''
        cases hinfo''
        rw [hfam', hfam]
    · rw [Function.update_of_ne hut] at hinfo
      rcases timerVisit_mem hu with hu | ⟨heq, _⟩
      · exact hs.family l' u info hu hinfo
      · exact absurd heq hut

variable (now l c) in
/-- The info block of the visited timer after a due list visit. -/
theorem dueVisit_info {info : TimerInfo} (h : (s.timer t).info = some info) :
    ((dueVisit now l c t s).1.timer t).info = some info ∨
      ((s.timer t).active = .running ∧
        ((dueVisit now l c t s).1.timer t).info = some (info.fire now) ∧
        ((dueVisit now l c t s).1.timer t).active = .notUse) := by
  rcases dueVisit_cases now l c t s with
    ⟨_, hv⟩ | ⟨_, _, hv⟩ | ⟨_, _, _, _, hv⟩ | ⟨info', hrun, hinfo, _, hv, _⟩
  · exact Or.inl (by simp [hv, h])
  · exact Or.inl (by simp [hv, h])
  · exact Or.inl (by simp [hv, h])
  · rw [h] at hinfo
    cases hinfo
    exact Or.inr ⟨hrun, by simp [hv], by simp [hv]⟩

theorem dueVisit_info_none (h : (s.timer t).info = none) :
    ((dueVisit now l c t s).1.timer t).info = none := by
  rcases dueVisit_cases now l c t s with
    ⟨_, hv⟩ | ⟨_, _, hv⟩ | ⟨_, _, hinfo, _⟩ | ⟨_, _, hinfo, _⟩
  · simp [hv, h]
  · simp [hv, h]
  · simp [h] at hinfo
  · simp [h] at hinfo

theorem dueVisit_family {u : τ} {info : TimerInfo}
    (h : ((dueVisit now l c t s).1.timer u).info = some info) :
    ∃ info', (s.timer u).info = some info' ∧ info'.family = info.family := by
  by_cases hut : u = t
  · subst hut
    cases hinfo : (s.timer u).info with
    | none =>
      rw [dueVisit_info_none hinfo] at h
      cases h
    | some info' =>
      rcases dueVisit_info now l c hinfo with hi | ⟨_, hi, _⟩
      · rw [hi] at h
        cases h
        exact ⟨_, rfl, rfl⟩
      · rw [hi] at h
        cases h
        exact ⟨_, rfl, rfl⟩
  · rw [dueVisit_timer_of_ne hut] at h
    exact ⟨info, h, rfl⟩

theorem WellListed.dueVisit (hs : s.WellListed) (ht : (s.list l).entryAt c.arr c.pos = some t) :
    (dueVisit now l c t s).1.WellListed where
  once u := Nat.le_trans (dueVisit_positions_le _ ht u) (hs.once u)
  family l' u info hu hinfo := by
    obtain ⟨info', hinfo', hfam⟩ := dueVisit_family hinfo
    rw [← hfam]
    rcases dueVisit_mem hu with hu | ⟨rfl, info'', hinfo'', rfl⟩
    · exact hs.family l' u info' hu hinfo'
    · rw [hinfo'] at hinfo''
      cases hinfo''
      exact (getTimerResList_family _).symm

theorem wellListed_ofOne {r : TimerRes} {info : TimerInfo} (hinfo : r.info = some info)
    (hfam : info.family = l.family) : (ofOne l r).WellListed where
  once _ := Nat.le_of_eq (positions_ofOne l r)
  family l' u info' hu hinfo' := by
    cases hinfo.symm.trans hinfo'
    exact mem_ofOne hu ▸ hfam

/-! ## The counter of one timer -/

/-- During a call that began with the info block `info₀` of `t`: the counter has
its old value, or it has been raised by one and `t` cannot be triggered again. -/
def TriggeredOnce (now tick : Int) (t : τ) (info₀ : TimerInfo) (s : Sched τ) : Prop :=
  ∃ tm : LmTimer, (s.timer t).info = some { info₀ with timer := tm } ∧
    (tm.count = info₀.timer.count ∨
      (tm.count = info₀.timer.count + 1 ∧
        ((s.timer t).active ≠ .running ∨
          (tm.begin = clock now tick info₀.family ∧
            t ∉ (s.list ⟨info₀.family, .due⟩).contents))))

variable {tick : Int} {info₀ : TimerInfo} {f : Family}

omit [DecidableEq τ] in
/-- What leaves the record of the timer alone and does not file it in its due list. -/
theorem TriggeredOnce.frame {s' : Sched τ} (hs : TriggeredOnce now tick t info₀ s)
    (hres : s'.timer t = s.timer t)
    (hmem : t ∈ (s'.list ⟨info₀.family, .due⟩).contents →
      t ∈ (s.list ⟨info₀.family, .due⟩).contents) : TriggeredOnce now tick t info₀ s' := by
  obtain ⟨tm, hinfo, htm⟩ := hs
  refine ⟨tm, hres ▸ hinfo, ?_⟩
  rw [hres]
  rcases htm with hcount | ⟨hcount, hstop | ⟨hbegin, hdue⟩⟩
  · exact Or.inl hcount
  · exact Or.inr ⟨hcount, Or.inl hstop⟩
  · exact Or.inr ⟨hcount, Or.inr ⟨hbegin, fun h => hdue (hmem h)⟩⟩

theorem TriggeredOnce.timerVisit_of_ne {u : τ} {clk : Int} (hs : TriggeredOnce now tick t info₀ s)
    (hne : t ≠ u) : TriggeredOnce now tick t info₀ (timerVisit clk l c u s).1 := by
  have hres : (Sched.timerVisit clk l c u s).1.timer t = s.timer t := by
    rw [timerVisit_timer, Function.update_of_ne hne]
  exact hs.frame hres fun hmem => (timerVisit_mem hmem).resolve_right fun h => hne h.1

/-- In a work list, a timer that was already triggered in this call is not
triggered again: its start time is the current time. -/
theorem TriggeredOnce.timerVisit_self {b : Band} (hs : TriggeredOnce now tick t info₀ s)
    (hlist : s.WellListed) (hb : b ≠ .due) (hperiod : 0 < info₀.period)
    (hclock : 0 < clock now tick f) (ht : (s.list ⟨f, b⟩).entryAt c.arr c.pos = some t) :
    TriggeredOnce now tick t info₀ (timerVisit (clock now tick f) ⟨f, b⟩ c t s).1 := by
  obtain ⟨tm, hinfo, htm⟩ := hs
  have hmem : t ∈ (s.list ⟨f, b⟩).contents := Chain.mem_of_entryAt ht
  obtain rfl : info₀.family = f := (hlist.family _ t _ hmem hinfo :)
  -- A listed timer is in no second list, so not in the due list, also after the visit.
  have hnotdue : t ∉ ((Sched.timerVisit (clock now tick info₀.family) ⟨info₀.family, b⟩ c t
      s).1.list ⟨info₀.family, .due⟩).contents := by
    intro hdue
    have heq := eq_of_positions_le_one (hlist.once t) hmem (timerVisit_mem_due hdue)
    exact hb (ListId.mk.inj heq).2
  -- A timer that triggers now has not triggered before: its start would be the current time.
  have hfirst : (s.timer t).active = .running →
      ({ info₀ with timer := tm } : TimerInfo).remaining (clock now tick info₀.family) ≤ 0 →
      tm.count = info₀.timer.count := by
    intro hrun hrem
    rcases htm with hcount | ⟨_, hstop | ⟨hbegin, _⟩⟩
    · exact hcount
    · exact absurd hrun hstop
    · simp only [TimerInfo.remaining, hbegin] at hrem
      split_ifs at hrem <;> omega
  unfold TriggeredOnce
  simp only [timerVisit_timer, Function.update_self]
  rcases timerVerdict_cases (clock now tick info₀.family) (s.timer t) with
    ⟨_, _, hv⟩ | ⟨info, hi, hrun, hrem, _, hv⟩ | ⟨info, hi, hrun, hrem, _, hv⟩ |
    ⟨_, _, hrun, _, hv⟩ | ⟨hi, _⟩
  · refine ⟨tm, by rw [hv]; exact hinfo, htm.imp_right fun h => ⟨h.1, Or.inl ?_⟩⟩
    simp [hv]
  · rw [hinfo] at hi
    cases hi
    refine ⟨_, by rw [hv]; rfl, Or.inr ⟨?_, Or.inl (by simp [hv])⟩⟩
    exact congrArg (· + 1) (hfirst hrun hrem)
  · rw [hinfo] at hi
    cases hi
    refine ⟨_, by rw [hv]; rfl, Or.inr ⟨?_, Or.inr ⟨rfl, hnotdue⟩⟩⟩
    exact congrArg (· + 1) (hfirst hrun hrem)
  · refine ⟨tm, by rw [hv]; exact hinfo, htm.imp_right fun h => ⟨h.1, Or.inr ?_⟩⟩
    rcases h.2 with hstop | ⟨hbegin, _⟩
    · exact absurd hrun hstop
    · exact ⟨hbegin, hnotdue⟩
  · rw [hinfo] at hi
    cases hi

theorem TriggeredOnce.dueVisit {u : τ} (hs : TriggeredOnce now tick t info₀ s)
    (hlist : s.WellListed) (hu : (s.list ⟨f, .due⟩).entryAt c.arr c.pos = some u) :
    TriggeredOnce now tick t info₀ (dueVisit (clock now tick f) ⟨f, .due⟩ c u s).1 := by
  have hmem : u ∈ (s.list ⟨f, .due⟩).contents := Chain.mem_of_entryAt hu
  by_cases htu : t = u
  · subst htu
    obtain ⟨tm, hinfo, htm⟩ := hs
    obtain rfl : info₀.family = f := (hlist.family _ t _ hmem hinfo :)
    rcases dueVisit_info (clock now tick info₀.family) ⟨info₀.family, .due⟩ c hinfo with
      hi | ⟨hrun, hi, hact⟩
    · refine ⟨tm, hi, htm.imp_right fun h => ⟨h.1, Or.inl ?_⟩⟩
      -- The timer is in the due list, so it was raised only if it is not running.
      have hnot : (s.timer t).active ≠ .running := by
        rcases h.2 with hstop | ⟨_, hdue⟩
        · exact hstop
        · exact absurd hmem hdue
      simp [Sched.dueVisit, if_pos hnot]
    · refine ⟨_, hi, Or.inr ⟨?_, Or.inl (by rw [hact]; decide)⟩⟩
      rcases htm with hcount | ⟨_, hstop | ⟨_, hdue⟩⟩
      · exact congrArg (· + 1) hcount
      · exact absurd hrun hstop
      · exact absurd hmem hdue
  · exact hs.frame (dueVisit_timer_of_ne htu) fun hin =>
      (dueVisit_mem hin).resolve_right fun h => htu h.1

/-- One call of `schedule_timer_and_ticker` that returns raises the counter of
every timer by at most one. -/
theorem schedule_triggers_at_most_once {fuel count : Nat} {s' : Sched τ} (hlist : s.WellListed)
    (hperiod : ∀ t info, (s.timer t).info = some info → 0 < info.period)
    (hnow : 0 < now) (htick : 0 < tick)
    (h : scheduleTimerAndTicker fuel now tick count s = some s')
    (t : τ) (info : TimerInfo) (hinfo : (s.timer t).info = some info) :
    ∃ info', (s'.timer t).info = some info' ∧
      (info'.timer.count = info.timer.count ∨ info'.timer.count = info.timer.count + 1) := by
  have hclock : ∀ f, 0 < clock now tick f := by
    intro f
    cases f <;> assumption
  have hinv : s'.WellListed ∧ TriggeredOnce now tick t info s' := by
    refine scheduleTimerAndTicker_invariant
      (I := fun s => s.WellListed ∧ TriggeredOnce now tick t info s) ?_ ?_ h
      ⟨hlist, info.timer, hinfo, Or.inl rfl⟩
    · intro f c u s hu hs
      exact ⟨hs.1.dueVisit hu, hs.2.dueVisit hs.1 hu⟩
    · intro f b c u s hb hu hs
      refine ⟨hs.1.timerVisit hu, ?_⟩
      by_cases htu : t = u
      · subst htu
        exact hs.2.timerVisit_self hs.1 hb (hperiod t info hinfo) (hclock f) hu
      · exact hs.2.timerVisit_of_ne htu
  obtain ⟨_, tm, hinfo', htm⟩ := hinv
  exact ⟨_, hinfo', htm.imp_right And.left⟩

theorem schedule_triggers_at_most_once_freshTimer :
    ∃ info', (((scheduleTimerAndTicker 8 10000 10000 16
        (ofOne ⟨.timer, .work2⟩ ⟨.running, some (freshTimer 2), [], 1⟩)).get (by decide)).timer
          ()).info = some info' ∧ (info'.timer.count = 0 ∨ info'.timer.count = 0 + 1) := by
  refine schedule_triggers_at_most_once (wellListed_ofOne rfl rfl) ?_ (by decide) (by decide)
    (Option.some_get _).symm () (freshTimer 2) rfl
  rintro _ info ⟨⟩
  decide

end Sched

end LMiced
