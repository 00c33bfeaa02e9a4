import LMiced.Timer.Trigger
import LMiced.Resource.Tasks

/-!
# Late timers

A work list holds the timers whose remaining time is above a bound and is
visited once every so many ticks: work lists 3 and 4 have 32 and 128
milliseconds and are visited every 32 and 128 ticks, so a timer in them is moved
on before it is due. Work list 2 has 8 milliseconds but is visited every 16
ticks.

A tick here is one millisecond. `no_late_timer_of_run` says that over every run
no triggered timer is overdue after a tick, as long as each timer of work list 2
has more time left than passes before the next visit of that list.
-/

namespace LMiced

/-! ## Visits and bounds -/

/-- How many ticks lie between two visits of a list. -/
def visitEvery : Band → Nat
  | .due => 1
  | .work1 => 1
  | .work2 => 16
  | .work3 => 32
  | .work4 => 128

/-- One millisecond in units of 100 nanoseconds. -/
def millisecond : Int := 10000

/-- The time a triggered timer of the list has left after the tick `count`. -/
def leeway (count : Nat) : Band → Int
  | .work3 => period2 - millisecond * (count % 32 : Nat)
  | .work4 => period3 - millisecond * (count % 128 : Nat)
  | _ => 1

theorem leeway_pos (count : Nat) (b : Band) : 0 < leeway count b := by
  cases b <;> simp only [leeway, period2, period3, millisecond] <;> omega

/-- A timer that is filed by its remaining time has that time left. -/
theorem leeway_le_of_workBand {remain : Int} (h : 0 < remain) (count : Nat) :
    leeway count (workBand remain) ≤ remain := by
  unfold workBand
  split_ifs with h1 h2 h3 <;>
    simp only [leeway, period1, period2, period3, millisecond] at * <;> omega

/-- In a list that is not visited at a tick, apart from work list 2, the tick takes
no more than the leeway loses. -/
theorem leeway_succ_le {count : Nat} {b : Band} {remain : Int} (hb : b ≠ .due) (hb2 : b ≠ .work2)
    (hskip : (count + 1) % visitEvery b ≠ 0) (h : leeway count b ≤ remain) :
    leeway (count + 1) b ≤ remain - millisecond := by
  cases b with
  | due => exact absurd rfl hb
  | work1 => exact absurd (Nat.mod_one _) hskip
  | work2 => exact absurd rfl hb2
  | work3 => simp only [leeway, visitEvery, period2, millisecond] at *; omega
  | work4 => simp only [leeway, visitEvery, period3, millisecond] at *; omega

/-! ## Timers on time -/

/-- The time until a triggered timer is due again. -/
def TimerInfo.left (now : Int) (info : TimerInfo) : Int := info.timer.begin + info.period - now

namespace Sched

variable {τ : Type} [DecidableEq τ]

/-- Well listed, and every listed timer has a positive period. -/
structure Filed (s : Sched τ) : Prop extends WellListed s where
  period : ∀ l t info, t ∈ (s.list l).contents → (s.timer t).info = some info → 0 < info.period

/-- Every running timer of a timer work list that has been triggered has the leeway
of its list left, or satisfies `late`. -/
def OnTime (now : Int) (count : Nat) (late : Band → τ → Prop) (s : Sched τ) : Prop :=
  ∀ b t info, b ≠ .due → t ∈ (s.list ⟨.timer, b⟩).contents → (s.timer t).active = .running →
    (s.timer t).info = some info → 0 < info.timer.begin →
    late b t ∨ leeway count b ≤ info.left now

variable {now : Int} {count : Nat} {late late' : Band → τ → Prop} {s s' : Sched τ}

omit [DecidableEq τ] in
/-- What adds no running timer to the work lists and changes no record of one. -/
theorem OnTime.frame (hs : s.OnTime now count late)
    (h : ∀ b t info, b ≠ .due → t ∈ (s'.list ⟨.timer, b⟩).contents →
      (s'.timer t).active = .running → (s'.timer t).info = some info → 0 < info.timer.begin →
      t ∈ (s.list ⟨.timer, b⟩).contents ∧ s'.timer t = s.timer t)
    (hlate : ∀ b t, b ≠ .due → t ∈ (s'.list ⟨.timer, b⟩).contents →
      (s'.timer t).active = .running → late b t → late' b t) :
    s'.OnTime now count late' := by
  intro b t info hb ht hrun hinfo hbegin
  obtain ⟨ht', hrec⟩ := h b t info hb ht hrun hinfo hbegin
  refine (hs b t info hb ht' (hrec ▸ hrun) (hrec ▸ hinfo) hbegin).imp_left fun hl => ?_
  exact hlate b t hb ht hrun hl

end Sched

/-- A timer is filed by the time it has left, which is positive. -/
theorem timerVerdict_left {now : Int} {r : TimerRes} {l : ListId} {info : TimerInfo}
    (hperiod : ∀ info, r.info = some info → 0 < info.period)
    (hdest : (timerVerdict now r).dest = .filed l)
    (hinfo : (timerVerdict now r).res.info = some info) :
    l.band = workBand (info.left now) ∧ 0 < info.left now := by
  rcases timerVerdict_cases now r with
    ⟨_, _, hv⟩ | ⟨_, _, _, _, _, hv⟩ | ⟨info', hi, _, _, _, hv⟩ | ⟨info', hi, _, hrem, hv⟩ |
    ⟨_, hv⟩ <;>
    rw [hv] at hdest hinfo
  · cases hdest
  · cases hdest
  · cases hdest
    cases hinfo
    -- It was triggered now, so its whole period is left.
    have hleft : (info'.fire now).left now = info'.period := by
      simp only [TimerInfo.left, TimerInfo.fire]
      omega
    rw [hleft]
    exact ⟨rfl, hperiod info' hi⟩
  · cases hdest
    obtain rfl : info' = info := Option.some.inj (hi.symm.trans hinfo)
    -- Time that remains is counted from an earlier trigger.
    have hleft : info'.remaining now = info'.left now := by
      unfold TimerInfo.remaining at hrem ⊢
      split_ifs at hrem ⊢
      · omega
      · rfl
    rw [← hleft]
    exact ⟨rfl, hrem⟩
  · cases hdest

/-- The period of a timer is not changed by a work list visit. -/
theorem timerVerdict_period {now : Int} {r : TimerRes} {info : TimerInfo}
    (h : (timerVerdict now r).res.info = some info) :
    ∃ info', r.info = some info' ∧ info'.period = info.period := by
  obtain ⟨info', hinfo, rfl | rfl⟩ := timerVerdict_info h
  · exact ⟨info, hinfo, rfl⟩
  · exact ⟨info', hinfo, rfl⟩

namespace Sched

variable {τ : Type} [DecidableEq τ] {now : Int} {count : Nat} {late late' : Band → τ → Prop}
  {s s' : Sched τ} {l : ListId} {c : Cursor} {t : τ}

/-! ## Visits -/

variable (now) in
theorem Filed.timerVisit (hs : s.Filed) (ht : (s.list l).entryAt c.arr c.pos = some t) :
    (timerVisit now l c t s).1.Filed where
  toWellListed := hs.toWellListed.timerVisit ht
  period l' u info hu hinfo := by
    rw [timerVisit_timer] at hinfo
    by_cases hut : u = t
    · subst hut
      rw [Function.update_self] at hinfo
      obtain ⟨info', hinfo', hperiod⟩ := timerVerdict_period hinfo
      rw [← hperiod]
      exact hs.period l u info' (Chain.mem_of_entryAt ht) hinfo'
    · rw [Function.update_of_ne hut] at hinfo
      rcases timerVisit_mem hu with hu | ⟨heq, _⟩
      · exact hs.period l' u info hu hinfo
      · exact absurd heq hut

theorem Filed.dueVisit (hs : s.Filed) (ht : (s.list l).entryAt c.arr c.pos = some t) :
    (dueVisit now l c t s).1.Filed where
  toWellListed := hs.toWellListed.dueVisit ht
  period l' u info hu hinfo := by
    by_cases hut : u = t
    · subst hut
      cases hold : (s.timer u).info with
      | none =>
        rw [dueVisit_info_none hold] at hinfo
        cases hinfo
      | some info' =>
        have hperiod := hs.period l u info' (Chain.mem_of_entryAt ht) hold
        rcases dueVisit_info now l c hold with hi | ⟨_, hi, _⟩ <;>
          rw [hi] at hinfo <;> cases hinfo <;> exact hperiod
    · rw [dueVisit_timer_of_ne hut] at hinfo
      rcases dueVisit_mem hu with hu | ⟨heq, _⟩
      · exact hs.period l' u info hu hinfo
      · exact absurd heq hut

/-- A due list visit leaves a running timer its record. -/
theorem OnTime.dueVisit (hs : s.OnTime now count late) {clk : Int} :
    (dueVisit clk l c t s).1.OnTime now count late := by
  refine hs.frame (fun b u info _ hu hrun _ _ => ?_) fun _ _ _ _ _ h => h
  by_cases hut : u = t
  · subst hut
    rcases dueVisit_cases clk l c u s with
      ⟨_, hv⟩ | ⟨_, _, hv⟩ | ⟨_, _, _, _, hv⟩ | ⟨info', _, _, _, htimer, _⟩
    · simp [hv] at hrun
    · exact ⟨by rwa [hv] at hu, by rw [hv]⟩
    · exact ⟨by rw [hv] at hu; exact hu, by rw [hv]; rfl⟩
    · simp [htimer] at hrun
  · refine ⟨?_, dueVisit_timer_of_ne hut⟩
    exact (dueVisit_mem hu).resolve_right fun h => hut h.1

/-- A visit of a ticker list does not touch the timer lists. -/
theorem OnTime.tickerVisit (hs : s.OnTime now count late) (hfiled : s.Filed) {clk : Int} {b : Band}
    (ht : (s.list ⟨.ticker, b⟩).entryAt c.arr c.pos = some t) :
    (timerVisit clk ⟨.ticker, b⟩ c t s).1.OnTime now count late := by
  refine hs.frame (fun b' u info _ hu _ _ _ => ?_) fun _ _ _ _ _ h => h
  have hmem := Chain.mem_of_entryAt ht
  rcases timerVisit_mem hu with hu' | ⟨rfl, hdest⟩
  · have hut : u ≠ t := by
      rintro rfl
      have heq := eq_of_positions_le_one (hfiled.once u) hmem hu'
      cases congrArg ListId.family heq
    exact ⟨hu', by rw [timerVisit_timer, Function.update_of_ne hut]⟩
  · obtain ⟨info', hinfo', hfam, _⟩ := timerVerdict_dest hdest
    have hticker := hfiled.family _ u info' hmem hinfo'
    rw [hticker] at hfam
    cases hfam

/-- The timers of the list `l` that a walk has still to visit. -/
def stillAhead (b : Band) (c : Cursor) (late : Band → τ → Prop) (s : Sched τ) (b' : Band) (t : τ) :
    Prop :=
  late b' t ∨ (b' = b ∧ (s.list ⟨.timer, b⟩).Ahead c.arr c.pos t)

/-- A work list visit files the timer it looks at on time. -/
theorem OnTime.timerVisit {b : Band} (hs : s.OnTime now count (s.stillAhead b c late))
    (hfiled : s.Filed) (ht : (s.list ⟨.timer, b⟩).entryAt c.arr c.pos = some t) :
    (timerVisit now ⟨.timer, b⟩ c t s).1.OnTime now count
      ((timerVisit now ⟨.timer, b⟩ c t s).1.stillAhead b
        ((timerVisit now ⟨.timer, b⟩ c t s).2.advance c) late) := by
  intro b' u info hb' hu hrun hinfo hbegin
  have hmem := Chain.mem_of_entryAt ht
  by_cases hut : u = t
  · subst hut
    rw [timerVisit_timer, Function.update_self] at hrun hinfo
    cases hdest : (timerVerdict now (s.timer u)).dest with
    | removed =>
      rw [timerVerdict_active.1 hdest] at hrun
      cases hrun
    | fault =>
      obtain ⟨info', hi, _⟩ := timerVerdict_info hinfo
      exact absurd (timerVerdict_dest_eq_fault_iff.mp hdest) (by simp [hi])
    | filed l' =>
      -- It is filed by the time that is left, so its list comes round before that.
      obtain ⟨hband, hleft⟩ := timerVerdict_left
        (fun info' hi => hfiled.period _ u info' hmem hi) hdest hinfo
      have heq := eq_of_positions_le_one ((hfiled.timerVisit now ht).once u) hu
        (mem_timerVisit_of_dest ht hdest)
      refine Or.inr ?_
      rw [show b' = workBand (info.left now) from (congrArg ListId.band heq).trans hband]
      exact leeway_le_of_workBand hleft count
  · rw [timerVisit_timer, Function.update_of_ne hut] at hrun hinfo
    have hu' := (timerVisit_mem hu).resolve_right fun h => hut h.1
    refine (hs b' u info hb' hu' hrun hinfo hbegin).imp_left (Or.imp_right fun hstill => ?_)
    obtain ⟨hbb, hahead⟩ := hstill
    exact ⟨hbb, ahead_timerVisit hahead ht hut⟩

/-! ## Walks -/

/-- After a walk of a timer work list its timers are on time. -/
theorem timerListSchedule_onTime {fuel : Nat} {b : Band} (late : Band → τ → Prop) (hfiled : s.Filed)
    (hs : s.OnTime now count fun b' t => late b' t ∨ b' = b)
    (h : timerListSchedule fuel now ⟨.timer, b⟩ s = some s') :
    s'.Filed ∧ s'.OnTime now count late := by
  obtain ⟨⟨c', s₁⟩, hrun, rfl⟩ := Option.map_eq_some_iff.mp h
  have hinv := Loop.run_invariant
    (I := fun x => x.2.Filed ∧ x.2.OnTime now count (x.2.stillAhead b x.1 late))
    ?_ hrun ⟨hfiled, ?_⟩
  · obtain ⟨⟨hfiled₁, hwalk⟩, hexit⟩ := hinv
    refine ⟨hfiled₁, hwalk.frame (fun _ _ _ _ ht _ _ _ => ⟨ht, rfl⟩) fun b' t _ _ _ hl => ?_⟩
    -- At the end of the walk no timer is ahead of it.
    have hend : (s₁.list ⟨.timer, b⟩).length ≤ c'.arr := walkStep_eq_none hexit
    exact hl.resolve_right fun h => Chain.not_ahead_of_length_le hend h.2
  · rintro ⟨c, s⟩ x ⟨hfiled, hwalk⟩ hstep
    rcases walkStep_cases hstep with ⟨hend, rfl⟩ | ⟨t, ht, rfl⟩
    · refine ⟨hfiled, hwalk.frame (fun _ _ _ _ ht _ _ _ => ⟨ht, rfl⟩) fun b' t _ _ _ hl => ?_⟩
      exact hl.imp_right fun h => ⟨h.1, h.2.nextArray hend⟩
    · exact ⟨hfiled.timerVisit now ht, hwalk.timerVisit hfiled ht⟩
  · refine hs.frame (fun _ _ _ _ ht _ _ _ => ⟨ht, rfl⟩) fun b' t _ ht _ hl => ?_
    rcases hl with hl | rfl
    · exact Or.inl hl
    · obtain ⟨k, i, hki⟩ := Chain.exists_entryAt_of_mem ht
      refine Or.inr ⟨rfl, k, i, hki, ?_⟩
      exact (Nat.eq_zero_or_pos k).symm.imp id fun hk => ⟨hk.symm, Nat.zero_le i⟩

theorem timerListEvery_onTime {fuel n : Nat} {b : Band} (late : Band → τ → Prop) (hfiled : s.Filed)
    (hs : s.OnTime now count fun b' t => late b' t ∨ (b' = b ∧ count % n = 0))
    (h : timerListEvery n fuel now count ⟨.timer, b⟩ s = some s') :
    s'.Filed ∧ s'.OnTime now count late := by
  unfold timerListEvery at h
  split_ifs at h with hn
  · refine timerListSchedule_onTime late hfiled (hs.frame (fun _ _ _ _ ht _ _ _ => ⟨ht, rfl⟩) ?_) h
    exact fun _ _ _ _ _ hl => hl.imp_right And.left
  · cases h
    refine ⟨hfiled, hs.frame (fun _ _ _ _ ht _ _ _ => ⟨ht, rfl⟩) fun _ _ _ _ _ hl => ?_⟩
    exact hl.resolve_right fun h => hn h.2

/-- The list is visited at the tick `count`. -/
def visited (count : Nat) (b : Band) (_ : τ) : Prop := count % visitEvery b = 0

/-- After a tick every triggered timer is on time, if before it every one was that
stands in a list the tick does not visit. -/
theorem scheduleTimerAndTicker_onTime {fuel : Nat} {tick : Int} (hfiled : s.Filed)
    (hs : s.OnTime now count (visited count))
    (h : scheduleTimerAndTicker fuel now tick count s = some s') :
    s'.Filed ∧ s'.OnTime now count fun _ _ => False := by
  simp only [scheduleTimerAndTicker, Option.bind_eq_bind, Option.bind_eq_some_iff] at h
  obtain ⟨s₅, hfam, htick⟩ := h
  simp only [scheduleFamily, Option.bind_eq_bind, Option.bind_eq_some_iff] at hfam
  obtain ⟨s₁, h₁, s₂, h₂, s₃, h₃, s₄, h₄, h₅⟩ := hfam
  -- The lists that the rest of the call still visits, list by list.
  have hs₁ : s₁.Filed ∧ s₁.OnTime now count (visited count) :=
    walk_invariant (I := fun s => s.Filed ∧ s.OnTime now count (visited count))
      (fun c t s ht hs => ⟨hs.1.dueVisit ht, hs.2.dueVisit⟩) h₁ ⟨hfiled, hs⟩
  have hs₂ := timerListSchedule_onTime (b := .work1) (fun b _ =>
      (b = .work2 ∧ count % 16 = 0) ∨ (b = .work3 ∧ count % 32 = 0) ∨
        (b = .work4 ∧ count % 128 = 0)) hs₁.1
    (hs₁.2.frame (fun _ _ _ _ ht _ _ _ => ⟨ht, rfl⟩) fun b _ hb _ _ hl => by
      cases b <;> simp_all [visited, visitEvery]) h₂
  have hs₃ := timerListEvery_onTime (b := .work2) (n := 16) (fun b _ =>
      (b = .work3 ∧ count % 32 = 0) ∨ (b = .work4 ∧ count % 128 = 0)) hs₂.1
    (hs₂.2.frame (fun _ _ _ _ ht _ _ _ => ⟨ht, rfl⟩) fun _ _ _ _ _ hl => hl.symm) h₃
  have hs₄ := timerListEvery_onTime (b := .work3) (n := 32) (fun b _ =>
      b = .work4 ∧ count % 128 = 0) hs₃.1
    (hs₃.2.frame (fun _ _ _ _ ht _ _ _ => ⟨ht, rfl⟩) fun _ _ _ _ _ hl => hl.symm) h₄
  have hs₅ := timerListEvery_onTime (b := .work4) (n := 128) (fun _ _ => False) hs₄.1
    (hs₄.2.frame (fun _ _ _ _ ht _ _ _ => ⟨ht, rfl⟩) fun _ _ _ _ _ hl => Or.inr hl) h₅
  split_ifs at htick
  · exact scheduleFamily_invariant
      (I := fun s => s.Filed ∧ s.OnTime now count fun _ _ => False)
      (fun s s' h hs => walk_invariant
        (I := fun s => s.Filed ∧ s.OnTime now count fun _ _ => False)
        (fun c t s ht hs => ⟨hs.1.dueVisit ht, hs.2.dueVisit⟩) h hs)
      (fun b c t s _ ht hs => ⟨hs.1.timerVisit _ ht, hs.2.tickerVisit hs.1 ht⟩) htick hs₅
  · cases htick
    exact hs₅

end Sched

/-! ## Runs -/

variable {τ : Type} [DecidableEq τ]

/-- The daemon with its system time and its tick counter. -/
structure Clocked (τ : Type) where
  res : ResParam τ
  now : Int
  count : Nat

/-- What can happen between and at ticks. -/
inductive TimedEvent (τ : Type)
  | write (t : τ) (info : TimerInfo)
  | maintain (locked : Bool) (t : τ)
  | tick (peeks fuel : Nat) (tickTime : Int)

/-- A tick updates the time and the counter, empties the queue and schedules. -/
def TimedEvent.step : TimedEvent τ → Clocked τ → Option (Clocked τ)
  | .write t info, p => (p.res.writeTimer t info).map fun res => { p with res := res }
  | .maintain locked t, p => (p.res.maintainTimer locked t).map fun res => { p with res := res }
  | .tick peeks fuel tickTime, p =>
    let res := p.res.resourceTaskProc peeks
    (res.sched.scheduleTimerAndTicker fuel (p.now + millisecond) tickTime (p.count + 1)).map
      fun s => ⟨{ res with sched := s }, p.now + millisecond, p.count + 1⟩

/-- The daemon before any timer was opened. -/
def Clocked.init (info : τ → TimerInfo) (worker : τ → Nat) (now : Int) (count : Nat) : Clocked τ :=
  ⟨ResParam.init info worker, now, count⟩

/-- The timer has not been triggered and has a positive period. -/
def TimerRes.Fresh (r : TimerRes) : Prop :=
  ∀ info ∈ r.info, info.timer.begin ≤ 0 ∧ 0 < info.period

instance (r : TimerRes) : Decidable r.Fresh :=
  inferInstanceAs (Decidable (∀ info ∈ r.info, info.timer.begin ≤ 0 ∧ 0 < info.period))

/-- Timers are registered in free slots, and opened fresh and once. -/
def TimedEvent.Orderly : TimedEvent τ → Clocked τ → Prop
  | .write t _, p => p.res.sched.positions t + p.res.pending t = 0
  | .maintain _ t, p => (p.res.sched.timer t).Opens →
      p.res.sched.positions t + p.res.pending t = 0 ∧ (p.res.sched.timer t).Fresh
  | .tick _ _ _, _ => True

instance (e : TimedEvent τ) (p : Clocked τ) : Decidable (e.Orderly p) :=
  match e with
  | .write t _ => inferInstanceAs (Decidable (p.res.sched.positions t + p.res.pending t = 0))
  | .maintain _ t => inferInstanceAs (Decidable ((p.res.sched.timer t).Opens →
      p.res.sched.positions t + p.res.pending t = 0 ∧ (p.res.sched.timer t).Fresh))
  | .tick _ _ _ => inferInstanceAs (Decidable True)

/-- Before a tick, every triggered timer of work list 2 has more time left than passes
until the last tick before the next visit of that list. -/
def TimedEvent.InTime : TimedEvent τ → Clocked τ → Prop
  | .write _ _, _ => True
  | .maintain _ _, _ => True
  | .tick _ _ _, p => ∀ t info, t ∈ (p.res.sched.list ⟨.timer, .work2⟩).contents →
      (p.res.sched.timer t).active = .running → (p.res.sched.timer t).info = some info →
      0 < info.timer.begin → millisecond * (15 - p.count % 16 : Nat) < info.left p.now

namespace Sched

/-- The invariant between ticks, with the tasks of the queue. -/
structure Punctual (now : Int) (count : Nat) (late : Band → τ → Prop) (tasks : List (ResTask τ))
    (s : Sched τ) : Prop where
  filed : s.Filed
  once : ∀ t, s.positions t + additions tasks t ≤ 1
  fresh : ∀ t, 0 < additions tasks t → (s.timer t).Fresh
  workers : ∀ w, ResTask.delWorker w ∉ tasks
  onTime : s.OnTime now count late

variable {now : Int} {count : Nat} {late : Band → τ → Prop} {tasks : List (ResTask τ)}
  {s s' : Sched τ} {t : τ}

theorem Punctual.addTimer (hs : s.Punctual now count late (.addTimer t :: tasks)) :
    (s.appendTimerToRes t).Punctual now count late tasks := by
  have hpend := additions_cons_addTimer t tasks
  have hfresh : (s.timer t).Fresh := hs.fresh t (by rw [hpend, if_pos rfl]; omega)
  have hpos : ∀ u, (s.appendTimerToRes t).positions u + additions tasks u ≤ 1 := by
    intro u
    have hu := hs.once u
    have hle := positions_appendTimerToRes_le s t u
    rw [hpend] at hu
    omega
  refine ⟨⟨⟨fun u => ?_, fun l u info hu hi => ?_⟩, fun l u info hu hi => ?_⟩, hpos,
    fun u hu => ?_, fun w hw => ?_, fun b u info hb hu hrun hi hbegin => ?_⟩
  · exact Nat.le_trans (Nat.le_add_right _ _) (hpos u)
  · rw [appendTimerToRes_timer] at hi
    rcases mem_appendTimerToRes hu with hu | ⟨rfl, info', hi', rfl⟩
    · exact hs.filed.family l u info hu hi
    · cases hi.symm.trans hi'
      exact (getTimerResList_family _).symm
  · rw [appendTimerToRes_timer] at hi
    rcases mem_appendTimerToRes hu with hu | ⟨rfl, _⟩
    · exact hs.filed.period l u info hu hi
    · exact (hfresh info hi).2
  · rw [appendTimerToRes_timer]
    exact hs.fresh u (by rw [hpend]; omega)
  · exact hs.workers w (List.mem_cons_of_mem _ hw)
  · rw [appendTimerToRes_timer] at hrun hi
    rcases mem_appendTimerToRes hu with hu | ⟨rfl, _⟩
    · exact hs.onTime b u info hb hu hrun hi hbegin
    · -- A fresh timer was never triggered, so nothing is asked of it yet.
      exact absurd (hfresh info hi).1 (by omega)

theorem Punctual.delTimer (hs : s.Punctual now count late (.delTimer t :: tasks)) :
    (s.removeTimerFromRes t).Punctual now count late tasks := by
  have hpend := additions_cons_of_ne (.delTimer t) (fun _ => by simp) tasks
  have hinfo : ∀ u, ((s.removeTimerFromRes t).timer u).info = (s.timer u).info :=
    taskProc_info (.delTimer t) s
  have hpos := positions_removeTimerFromRes_le s t
  refine ⟨⟨⟨fun u => ?_, fun l u info' hu hi => ?_⟩, fun l u info' hu hi => ?_⟩, fun u => ?_,
    fun u hu => ?_, fun w hw => ?_, hs.onTime.frame (fun b u info' _ hu hrun _ _ => ?_)
      fun _ _ _ _ _ h => h⟩
  · exact Nat.le_trans (hpos u) (hs.filed.once u)
  · exact hs.filed.family l u info' (mem_of_mem_removeTimerFromRes hu) (hinfo u ▸ hi)
  · exact hs.filed.period l u info' (mem_of_mem_removeTimerFromRes hu) (hinfo u ▸ hi)
  · have hu := hs.once u
    rw [hpend] at hu
    exact Nat.le_trans (Nat.add_le_add_right (hpos u) _) hu
  · unfold TimerRes.Fresh
    rw [hinfo]
    exact hs.fresh u (by rwa [hpend])
  · exact hs.workers w (List.mem_cons_of_mem _ hw)
  · refine ⟨mem_of_mem_removeTimerFromRes hu, ?_⟩
    by_cases hut : u = t
    · subst hut
      -- A timer that is removed is not running any more.
      rcases removeTimerFromRes_cases s u with ⟨htimer, _⟩ | ⟨_, _, _, htimer, _⟩
      · rw [htimer]
      · rw [htimer, Function.update_self] at hrun
        cases hrun
    · exact removeTimerFromRes_timer_of_ne hut

theorem Punctual.taskProc {task : ResTask τ} (hs : s.Punctual now count late (task :: tasks)) :
    (taskProc task s).Punctual now count late tasks := by
  cases task with
  | addTimer t => exact hs.addTimer
  | delTimer t => exact hs.delTimer
  | addWorker w =>
    have hpend := additions_cons_of_ne (.addWorker w) (fun _ => by simp) tasks
    exact ⟨hs.filed, hpend ▸ hs.once, hpend ▸ hs.fresh,
      fun w' hw => hs.workers w' (List.mem_cons_of_mem _ hw), hs.onTime⟩
  | delWorker w => exact absurd List.mem_cons_self (hs.workers w)

/-- A change of the record of a timer that is neither listed nor queued. -/
theorem Punctual.setRes {tasks' : List (ResTask τ)} {r : TimerRes}
    (hs : s.Punctual now count late tasks) (ht : s.positions t = 0)
    (honce : ∀ u, s.positions u + additions tasks' u ≤ 1)
    (hfresh : ∀ u, 0 < additions tasks' u → u ≠ t → 0 < additions tasks u)
    (hr : 0 < additions tasks' t → r.Fresh) (hworkers : ∀ w, ResTask.delWorker w ∉ tasks') :
    (s.setRes t r).Punctual now count late tasks' := by
  have hne : ∀ l u, u ∈ (s.list l).contents → u ≠ t := by
    rintro l u hu rfl
    have hpos := positions_pos_iff.mpr ⟨l, hu⟩
    omega
  have hrec : ∀ l u, u ∈ (s.list l).contents → (s.setRes t r).timer u = s.timer u :=
    fun l u hu => Function.update_of_ne (hne l u hu) _ _
  refine ⟨⟨⟨hs.filed.once, fun l u info hu hi => ?_⟩, fun l u info hu hi => ?_⟩, honce,
    fun u hu => ?_, hworkers, hs.onTime.frame (fun b u info _ hu _ _ _ => ⟨hu, hrec _ u hu⟩)
      fun _ _ _ _ _ h => h⟩
  · exact hs.filed.family l u info hu (hrec l u hu ▸ hi)
  · exact hs.filed.period l u info hu (hrec l u hu ▸ hi)
  · by_cases hut : u = t
    · subst hut
      rw [setRes_timer, Function.update_self]
      exact hr hu
    · rw [setRes_timer, Function.update_of_ne hut]
      exact hs.fresh u (hfresh u hu hut)

/-- Closing a timer takes it off the running ones. -/
theorem Punctual.close {tasks' : List (ResTask τ)} (hs : s.Punctual now count late tasks)
    (hpend : additions tasks' = additions tasks) (hworkers : ∀ w, ResTask.delWorker w ∉ tasks') :
    (s.setRes t { s.timer t with active := .delete }).Punctual now count late tasks' := by
  have hinfo : ∀ u, ((s.setRes t { s.timer t with active := .delete }).timer u).info =
      (s.timer u).info := by
    intro u
    by_cases hu : u = t
    · subst hu
      rw [setRes_timer, Function.update_self]
    · rw [setRes_timer, Function.update_of_ne hu]
  refine ⟨⟨⟨hs.filed.once, fun l u info hu hi => ?_⟩, fun l u info hu hi => ?_⟩, hpend ▸ hs.once,
    fun u hu => ?_, hworkers, hs.onTime.frame (fun b u info _ hu hrun _ _ => ⟨hu, ?_⟩)
      fun _ _ _ _ _ h => h⟩
  · exact hs.filed.family l u info hu (hinfo u ▸ hi)
  · exact hs.filed.period l u info hu (hinfo u ▸ hi)
  · unfold TimerRes.Fresh
    rw [hinfo]
    exact hs.fresh u (hpend ▸ hu)
  · by_cases hut : u = t
    · subst hut
      rw [setRes_timer, Function.update_self] at hrun
      cases hrun
    · rw [setRes_timer, Function.update_of_ne hut]

end Sched

namespace Clocked

/-- The invariant between ticks. -/
def Punctual (p : Clocked τ) : Prop :=
  p.res.sched.Punctual p.now p.count (fun _ _ => False) p.res.queue.entries

variable {p p' : Clocked τ}

theorem init_punctual (info : τ → TimerInfo) (worker : τ → Nat) (now : Int) (count : Nat) :
    (init info worker now count).Punctual where
  filed :=
    { once := fun t => by
        rw [init, ResParam.positions_init]
        exact Nat.zero_le 1
      family := fun _ _ _ h => nomatch h
      period := fun _ _ _ h => nomatch h }
  once t := by
    rw [init, ResParam.positions_init]
    exact Nat.zero_le 1
  fresh _ h := nomatch h
  workers _ h := nomatch h
  onTime _ _ _ _ h := nomatch h

/-- The tick takes one millisecond from every timer. -/
theorem onTime_advance {peeks fuel : Nat} {tickTime : Int} (hp : p.Punctual)
    (hin : (TimedEvent.tick peeks fuel tickTime).InTime p) :
    p.res.sched.OnTime (p.now + millisecond) (p.count + 1) (Sched.visited (p.count + 1)) := by
  intro b t info hb ht hrun hinfo hbegin
  have hleft : info.left (p.now + millisecond) = info.left p.now - millisecond := by
    simp only [TimerInfo.left]
    omega
  by_cases hvisit : (p.count + 1) % visitEvery b = 0
  · exact Or.inl hvisit
  · refine Or.inr ?_
    rw [hleft]
    by_cases hb2 : b = .work2
    · subst hb2
      have hlt := hin t info ht hrun hinfo hbegin
      simp only [leeway, visitEvery, millisecond] at *
      omega
    · have hon := (hp.onTime b t info hb ht hrun hinfo hbegin).resolve_left id
      exact leeway_succ_le hb hb2 hvisit hon

theorem Punctual.step {e : TimedEvent τ} (hp : p.Punctual) (he : e.Orderly p) (hin : e.InTime p)
    (h : e.step p = some p') : p'.Punctual := by
  cases e with
  | write t info =>
    obtain ⟨res, hres, rfl⟩ := Option.map_eq_some_iff.mp h
    obtain ⟨_, _, rfl⟩ := Option.map_eq_some_iff.mp hres
    obtain ⟨hpos, hpend⟩ := Nat.add_eq_zero_iff.mp he
    exact Sched.Punctual.setRes hp hpos hp.once (fun _ h _ => h)
      (fun h => absurd hpend (Nat.ne_of_gt h)) hp.workers
  | maintain locked t =>
    obtain ⟨res, hres, rfl⟩ := Option.map_eq_some_iff.mp h
    rcases ResParam.maintainTimer_cases hres with ⟨_, _, rfl⟩ | ⟨hopen, rfl⟩ | rfl
    · exact Sched.Punctual.close hp (additions_setResourceTask_of_ne (fun _ => by simp) _)
        fun w => not_mem_setResourceTask (hp.workers w) (by simp)
    · obtain ⟨hzero, hfresh⟩ := he hopen
      have hpend : p.res.pending t = additions p.res.queue.entries t := rfl
      have hadd := additions_setResourceTask_le locked t p.res.queue
      refine Sched.Punctual.setRes hp (by omega) (fun u => ?_) (fun u hu hut => ?_)
        (fun _ => hfresh) fun w => not_mem_setResourceTask (hp.workers w) (by simp)
      · have hle := hadd u
        have hone := hp.once u
        by_cases hut : u = t
        · subst hut
          rw [if_pos rfl] at hle
          exact Nat.le_trans (Nat.add_le_add_left hle _) (by omega)
        · rw [if_neg hut] at hle
          exact Nat.le_trans (Nat.add_le_add_left hle _) hone
      · have hle := hadd u
        rw [if_neg hut] at hle
        exact Nat.lt_of_lt_of_le hu hle
    · exact hp
  | tick peeks fuel tickTime =>
    obtain ⟨s, hs, rfl⟩ := Option.map_eq_some_iff.mp h
    have hdrained := drain_invariant Sched.taskProc
      (I := fun tasks (s : Sched τ) => s.Punctual (p.now + millisecond) (p.count + 1)
        (Sched.visited (p.count + 1)) tasks)
      (fun task tasks s hs => hs.taskProc) peeks p.res.queue p.res.sched
      ⟨hp.filed, hp.once, hp.fresh, hp.workers, onTime_advance hp hin⟩
    obtain ⟨hfiled, honTime⟩ := Sched.scheduleTimerAndTicker_onTime hdrained.filed
      hdrained.onTime hs
    have hframe := Sched.scheduleTimerAndTicker_frame hs
    refine ⟨hfiled, fun u => ?_, fun u hu => ?_, hdrained.workers, honTime⟩
    · exact Nat.le_trans (Nat.add_le_add_right (hframe u).1 _) (hdrained.once u)
    · -- A queued timer is not listed yet, so the tick leaves it fresh.
      have hone := hdrained.once u
      have hzero : (p.res.resourceTaskProc peeks).sched.positions u = 0 := by
        have hu :
            0 < additions (drain Sched.taskProc peeks p.res.queue p.res.sched).1.entries u := hu
        have hsched : (p.res.resourceTaskProc peeks).sched =
          (drain Sched.taskProc peeks p.res.queue p.res.sched).2 := rfl
        rw [hsched]
        omega
      unfold TimerRes.Fresh
      rw [(hframe u).2 hzero]
      exact hdrained.fresh u hu

end Clocked

/-- In every orderly run in which the timers of work list 2 have time left until the
next visit of that list, no running timer of a timer work list that has been
triggered is overdue. -/
theorem no_late_timer_of_run {info : τ → TimerInfo} {worker : τ → Nat} {now : Int} {count : Nat}
    {p : Clocked τ}
    (h : Run.Reachable TimedEvent.step (fun e p => e.Orderly p ∧ e.InTime p)
      (Clocked.init info worker now count) p)
    {b : Band} {t : τ} {info' : TimerInfo} (hb : b ≠ .due)
    (ht : t ∈ (p.res.sched.list ⟨.timer, b⟩).contents)
    (hrun : (p.res.sched.timer t).active = .running)
    (hinfo : (p.res.sched.timer t).info = some info') (hbegin : 0 < info'.timer.begin) :
    p.now < info'.timer.begin + info'.period := by
  have hinv : p.Punctual :=
    h.invariant (fun e p p' he hstep hp => hp.step he.1 he.2 hstep)
      (Clocked.init_punctual info worker now count)
  have hleft := (hinv.onTime b t info' hb ht hrun hinfo hbegin).resolve_left id
  have hpos := leeway_pos p.count b
  unfold TimerInfo.left at hleft
  omega

/-- A timer of 10 milliseconds is opened and listed by the tick 16, which visits work
list 2 and triggers it. Ten milliseconds later the list is not visited. -/
def lateRun : List (TimedEvent Nat) := .maintain false 0 :: List.replicate 11 (.tick 2 8 0)

theorem timer_late_in_work_list_two :
    ¬ ∀ (info : Nat → TimerInfo) (worker : Nat → Nat) (now : Int) (count : Nat) (p : Clocked Nat),
      Run.Reachable TimedEvent.step TimedEvent.Orderly (Clocked.init info worker now count) p →
      ∀ b t info', b ≠ .due → t ∈ (p.res.sched.list ⟨.timer, b⟩).contents →
        (p.res.sched.timer t).active = .running → (p.res.sched.timer t).info = some info' →
        0 < info'.timer.begin → p.now < info'.timer.begin + info'.period := by
  intro h
  obtain ⟨p, hrun, hp⟩ := Run.exists_reachable_of_execute TimedEvent.step TimedEvent.Orderly lateRun
    (s := Clocked.init (fun _ => freshTimer 3) (fun _ => 1) 0 15)
    (p := fun p => decide (0 ∈ (p.res.sched.list ⟨.timer, .work2⟩).contents ∧
      (p.res.sched.timer 0).active = .running ∧
      ∃ info ∈ (p.res.sched.timer 0).info,
        0 < info.timer.begin ∧ info.timer.begin + info.period ≤ p.now)) (by decide +kernel)
  obtain ⟨hmem, hact, info, hinfo, hbegin, hlate⟩ := of_decide_eq_true hp
  have hlt := h _ _ _ _ p hrun .work2 0 info (by decide) hmem hact hinfo hbegin
  omega

/-- The same timer with a period of 40 milliseconds, after the tick that triggers it. -/
def slowTimer : TimerInfo := { freshTimer 3 with period := 400000 }

theorem no_late_timer_of_run_slowTimer :
    ∃ p : Clocked Nat, 0 ∈ (p.res.sched.list ⟨.timer, .work3⟩).contents ∧
      ∃ info, (p.res.sched.timer 0).info = some info ∧
        p.now < info.timer.begin + info.period := by
  -- Work list 2 is empty before both events.
  have hin : ∀ (e : TimedEvent Nat) (p : Clocked Nat),
      (p.res.sched.list ⟨.timer, .work2⟩).contents = [] → e.InTime p := by
    intro e p hp
    cases e with
    | write t info => exact trivial
    | maintain locked t => exact trivial
    | tick peeks fuel tickTime =>
      intro t info ht
      rw [hp] at ht
      cases ht
  obtain ⟨p, hrun, hp⟩ := Run.exists_reachable_of_execute TimedEvent.step
    (fun (e : TimedEvent Nat) p => e.Orderly p ∧
      (p.res.sched.list ⟨.timer, .work2⟩).contents = [])
    [.maintain false 0, .tick 2 8 0]
    (s := Clocked.init (fun _ => slowTimer) (fun _ => 1) 0 31)
    (p := fun p => decide (0 ∈ (p.res.sched.list ⟨.timer, .work3⟩).contents ∧
      (p.res.sched.timer 0).active = .running ∧
      ∃ info ∈ (p.res.sched.timer 0).info, 0 < info.timer.begin)) (by decide +kernel)
  obtain ⟨hmem, hact, info, hinfo, hbegin⟩ := of_decide_eq_true hp
  exact ⟨p, hmem, info, hinfo,
    no_late_timer_of_run (hrun.mono fun e p h => ⟨h.1, hin e p h.2⟩) (by decide) hmem hact
      hinfo hbegin⟩

end LMiced
