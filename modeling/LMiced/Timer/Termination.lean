import LMiced.Lib.Sweep
import LMiced.Timer.Schedule

/-!
# Termination of a work list walk

`timer_list_schedule` moves every timer that it finds outside the head array,
also one that belongs to the list it is in: the timer is appended to the list,
first-fit, and the walk looks at the same place again. When the head array is
full the timer lands in the array it was taken from.

As long as no timer of the list has a null info pointer, the walk is a sweep of the
list, with the timer records as records: a timer is kept when it belongs to the list.
`timerListSchedule_returns_iff` says exactly when the function returns.
-/

namespace LMiced

/-! ## Timers that belong to a list -/

/-- A visit at time `now` files the timer in the list `l`. -/
def TimerRes.belongs (now : Int) (l : ListId) (r : TimerRes) : Bool :=
  decide ((timerVerdict now r).dest = .filed l)

/-- The timer belongs to the list `l` however often it is visited at time `now`: it
is running, and it is not due and filed in `l` by its remaining time, or it is
due, has triggers left and is filed in `l` by its period. -/
def TimerRes.Lodges (now : Int) (l : ListId) (r : TimerRes) : Prop :=
  r.active = .running ∧ ∃ info ∈ r.info,
    (0 < info.remaining now ∧ getTlistByRemain (info.remaining now) info = l) ∨
    (info.remaining now ≤ 0 ∧ ¬ (info.fire now).finished ∧ 0 < now ∧ 0 < info.period ∧
      getTlistByRemain info.period info = l)

/-- The list an info block is filed in after a trigger is the one it was filed in at
the trigger. -/
theorem timerVerdict_fired {now : Int} {r : TimerRes} {info : TimerInfo} {l : ListId}
    (h : (timerVerdict now { r with info := some (info.fire now) }).dest = .filed l) :
    getTlistByRemain info.period info = l := by
  rcases timerVerdict_cases now { r with info := some (info.fire now) } with
    ⟨_, _, hv⟩ | ⟨_, _, _, _, _, hv⟩ | ⟨info', hi, _, _, _, hv⟩ | ⟨info', hi, _, hrem, hv⟩ |
    ⟨hi, hv⟩ <;>
    rw [hv] at h
  · cases h
  · cases h
  · cases hi
    exact TimerDest.filed.inj h
  · cases hi
    have hperiod : (info.fire now).remaining now = info.period := by
      simp only [TimerInfo.remaining, TimerInfo.fire] at hrem ⊢
      split_ifs at hrem ⊢
      · omega
      · omega
    rw [hperiod] at h
    exact TimerDest.filed.inj h
  · cases hi

/-- The walk of the list `l` at time `now`, for the timer records. -/
def visitRule (now : Int) (l : ListId) : Sweep.Rule TimerRes where
  next r := (timerVerdict now r).res
  keeps := TimerRes.belongs now l
  stable r h := by
    simp only [TimerRes.belongs, decide_eq_true_eq] at h ⊢
    rcases timerVerdict_cases now r with
      ⟨_, _, hv⟩ | ⟨_, _, _, _, _, hv⟩ | ⟨info, hi, _, _, _, hv⟩ | ⟨info, hi, _, _, hv⟩ | ⟨_, hv⟩
    · -- A timer that was dropped is not running.
      rw [hv] at h
      exact absurd h (by simp [timerVerdict]; split <;> simp)
    · rw [hv] at h
      exact absurd h (by simp [timerVerdict])
    · rw [hv] at h ⊢
      exact congrArg TimerDest.filed (timerVerdict_fired h)
    · rw [hv] at h
      exact h
    · rw [hv] at h
      exact h

variable {now : Int} {l : ListId} {r : TimerRes} {info : TimerInfo}

theorem timerVerdict_of_not_due (hrun : r.active = .running) (hinfo : r.info = some info)
    (hrem : 0 < info.remaining now) :
    timerVerdict now r = ⟨r, .filed (getTlistByRemain (info.remaining now) info)⟩ := by
  simp [timerVerdict, hrun, hinfo, Int.not_le.mpr hrem]

theorem timerVerdict_of_due (hrun : r.active = .running) (hinfo : r.info = some info)
    (hrem : info.remaining now ≤ 0) (hfin : ¬ (info.fire now).finished) :
    timerVerdict now r =
      ⟨{ r with info := some (info.fire now) }, .filed (getTlistByRemain info.period info)⟩ := by
  simp [timerVerdict, hrun, hinfo, hrem, hfin]

/-- A timer that belongs to a list is running; it is not due and filed by its
remaining time, or due with triggers left and filed by its period. -/
theorem belongs_iff : r.belongs now l = true ↔ r.active = .running ∧ ∃ info ∈ r.info,
    (0 < info.remaining now ∧ getTlistByRemain (info.remaining now) info = l) ∨
    (info.remaining now ≤ 0 ∧ ¬ (info.fire now).finished ∧
      getTlistByRemain info.period info = l) := by
  rw [TimerRes.belongs, decide_eq_true_eq]
  constructor
  · intro h
    rcases timerVerdict_cases now r with
      ⟨_, _, hv⟩ | ⟨_, _, _, _, _, hv⟩ | ⟨info, hi, hrun, hrem, hfin, hv⟩ |
      ⟨info, hi, hrun, hrem, hv⟩ | ⟨_, hv⟩ <;>
      rw [hv] at h
    · cases h
    · cases h
    · exact ⟨hrun, info, hi, Or.inr ⟨hrem, hfin, TimerDest.filed.inj h⟩⟩
    · exact ⟨hrun, info, hi, Or.inl ⟨hrem, TimerDest.filed.inj h⟩⟩
    · cases h
  · rintro ⟨hrun, info, hi, ⟨hrem, rfl⟩ | ⟨hrem, hfin, rfl⟩⟩
    · rw [timerVerdict_of_not_due hrun hi hrem]
    · rw [timerVerdict_of_due hrun hi hrem hfin]

theorem next_of_due (hrun : r.active = .running) (hinfo : r.info = some info)
    (hrem : info.remaining now ≤ 0) (hfin : ¬ (info.fire now).finished) :
    (visitRule now l).next r = { r with info := some (info.fire now) } :=
  congrArg Verdict.res (timerVerdict_of_due hrun hinfo hrem hfin)

/-- A timer that is due again after every trigger runs out of triggers. -/
theorem not_lodges_of_refires {n : Nat} (hrun : r.active = .running) (hinfo : r.info = some info)
    (hrem : info.remaining now ≤ 0) (hfires : now ≤ 0 ∨ info.period ≤ 0)
    (hcount : info.timer.count.toNat < info.size.toNat)
    (hn : info.size.toNat - info.timer.count.toNat ≤ n) :
    ¬ Sweep.Lodges (visitRule now l) r := by
  induction n generalizing r info with
  | zero => omega
  | succ n ih =>
    intro hlodges
    obtain ⟨_, info', hi, hcases⟩ := belongs_iff.mp (hlodges 0)
    obtain rfl : info' = info := Option.some.inj (hi.symm.trans hinfo)
    rcases hcases with ⟨hpos, _⟩ | ⟨_, hfin, _⟩
    · omega
    · have hnext := next_of_due (l := l) hrun hinfo hrem hfin
      have hadd := toNat_count_add_one hcount
      refine ih (r := { r with info := some (info'.fire now) }) hrun rfl
        ?_ hfires (TimerInfo.not_finished_iff.mp hfin) ?_
        (hnext ▸ (Sweep.lodges_next r).mpr hlodges)
      · simp only [TimerInfo.remaining, TimerInfo.fire]
        split_ifs <;> omega
      · simp only [TimerInfo.fire]
        omega

/-- The timers that are kept for ever. -/
theorem lodges_iff : Sweep.Lodges (visitRule now l) r ↔ r.Lodges now l := by
  -- A timer that is not due is left as it is.
  have hnotdue : ∀ {r : TimerRes} {info : TimerInfo}, r.active = .running → r.info = some info →
      0 < info.remaining now → getTlistByRemain (info.remaining now) info = l →
      Sweep.Lodges (visitRule now l) r := by
    intro r info hrun hi hrem hl n
    have hfix : (visitRule now l).next r = r :=
      congrArg Verdict.res (timerVerdict_of_not_due hrun hi hrem)
    rw [Function.iterate_fixed hfix n]
    exact belongs_iff.mpr ⟨hrun, info, hi, Or.inl ⟨hrem, hl⟩⟩
  constructor
  · intro hlodges
    obtain ⟨hrun, info, hi, hcases⟩ := belongs_iff.mp (hlodges 0)
    refine ⟨hrun, info, hi, hcases.imp_right fun hdue => ?_⟩
    obtain ⟨hrem, hfin, hl⟩ := hdue
    -- Otherwise it is due at every look, and one of its triggers is the last.
    have hpos : 0 < now ∧ 0 < info.period := by
      by_contra hnot
      have hnext := next_of_due (l := l) (r := r) hrun hi hrem hfin
      refine not_lodges_of_refires (r := { r with info := some (info.fire now) })
        hrun rfl ?_ (by simp only [TimerInfo.fire]; omega)
        (TimerInfo.not_finished_iff.mp hfin) (Nat.le_refl _)
        (hnext ▸ (Sweep.lodges_next r).mpr hlodges)
      simp only [TimerInfo.remaining, TimerInfo.fire]
      split_ifs <;> omega
    exact ⟨hrem, hfin, hpos.1, hpos.2, hl⟩
  · rintro ⟨hrun, info, hi, ⟨hrem, hl⟩ | ⟨hrem, hfin, hnow, hperiod, hl⟩⟩
    · exact hnotdue hrun hi hrem hl
    · -- After its trigger it is not due, and filed here by its period.
      refine (Sweep.lodges_next r).mp ?_
      have hnext := next_of_due (l := l) (r := r) hrun hi hrem hfin
      have hleft : (info.fire now).remaining now = info.period := by
        simp only [TimerInfo.remaining, TimerInfo.fire]
        split_ifs <;> omega
      rw [hnext]
      exact hnotdue hrun rfl (by rw [hleft]; exact hperiod)
        (by rw [hleft]; exact hl)

/-! ## The walk as a sweep -/

namespace Sched

variable {τ : Type} [DecidableEq τ]

/-- The part of the state that the walk of the list `l` depends on. -/
def sweepOf (l : ListId) (x : Cursor × Sched τ) : Sweep.State timerListCap τ TimerRes :=
  ⟨x.1.arr, x.1.pos, x.2.list l, x.2.timer⟩

/-- No timer of the list has a null info pointer. -/
def InfoSet (l : ListId) (s : Sched τ) : Prop :=
  ∀ t ∈ (s.list l).contents, (s.timer t).info ≠ none

/-- A visit of a work list sets no info pointer to null, and moves timers only. -/
theorem InfoSet.timerVisit {now : Int} {l : ListId} {c : Cursor} {t : τ} {s : Sched τ}
    (hs : s.InfoSet l) (ht : (s.list l).entryAt c.arr c.pos = some t) :
    (timerVisit now l c t s).1.InfoSet l := by
  intro u hu
  have hmem : u ∈ (s.list l).contents := by
    rcases timerVisit_mem hu with hu | ⟨rfl, _⟩
    · exact hu
    · exact Chain.mem_of_entryAt ht
  rw [timerVisit_timer]
  by_cases hut : u = t
  · subst hut
    rw [Function.update_self]
    exact timerVerdict_info_ne_none (hs u hmem)
  · rw [Function.update_of_ne hut]
    exact hs u hmem

/-- A turn of the walk is a step of the sweep. -/
theorem step_sweepOf (now : Int) (l : ListId) (x : Cursor × Sched τ) (hinfo : x.2.InfoSet l) :
    Sweep.step (visitRule now l) (sweepOf l x) =
      (walkStep (timerVisit now l) l x).map (sweepOf l) := by
  obtain ⟨c, s⟩ := x
  by_cases harr : c.arr < (s.list l).length
  · rw [walkStep, if_pos harr]
    cases hentry : (s.list l).entryAt c.arr c.pos with
    | none => exact Sweep.step_of_none harr hentry
    | some t =>
      have hrec : (timerVisit now l c t s).1.timer =
          Function.update s.timer t ((visitRule now l).next (s.timer t)) := timerVisit_timer
      have hkeeps : (visitRule now l).keeps (s.timer t) = true ↔
          (timerVerdict now (s.timer t)).dest = .filed l := decide_eq_true_iff
      simp only [Option.map_some, sweepOf, hrec]
      cases hdest : (timerVerdict now (s.timer t)).dest with
      | fault =>
        have hnull := timerVerdict_dest_eq_fault_iff.mp hdest
        exact absurd hnull (hinfo t (Chain.mem_of_entryAt hentry))
      | removed =>
        obtain ⟨hlist, hflow⟩ := timerVisit_of_removed (l := l) (c := c) hdest
        rw [Sweep.step_of_dropped harr hentry (by rw [hkeeps, hdest]; simp), hlist, hflow]
        simp [Flow.advance]
      | filed newlist =>
        by_cases hl : newlist = l
        · subst hl
          by_cases hc : c.arr = 0
          · -- In the head array a timer that belongs to the list is left in its place.
            obtain ⟨hlist, hflow⟩ := timerVisit_of_stays (l := newlist) hdest hc
            rw [Sweep.step_of_stays harr hentry (hkeeps.mpr hdest) hc, hlist, hflow]
            simp [Flow.advance]
          · -- In an overflow array it is appended to the list it is in, and removed.
            obtain ⟨hlist, hflow⟩ := timerVisit_of_moves (c := c) hdest fun h => hc h.2
            rw [Sweep.step_of_moves harr hentry (hkeeps.mpr hdest) hc, hlist, hflow]
            simp [Flow.advance]
        · obtain ⟨hlist, hflow⟩ := timerVisit_of_moves (c := c) hdest fun h => hl h.1
          rw [Sweep.step_of_dropped harr hentry (by rw [hkeeps, hdest]; simpa using hl), hlist,
            hflow]
          simp [Flow.advance, Ne.symm hl]
  · rw [walkStep, if_neg harr]
    exact if_neg harr

/-- The list `l` has an overflow array with a timer that belongs to the list for
good, and of the timers before it at least 31 belong to the list, each looked at
once and in order. It is not the first timer of a full array. -/
def Stuck (now : Int) (l : ListId) (s : Sched τ) : Prop :=
  ∃ a₀ a₁ rest, s.list l = a₀ :: a₁ :: rest ∧
    ∃ i t, a₁.entries[i]? = some t ∧ (s.timer t).Lodges now l ∧
      timerListCap ≤ Sweep.kept (visitRule now l) s.timer (a₀.entries ++ a₁.entries.take i) ∧
      ¬ (i = 0 ∧ a₁.entries.length = timerListCap)

theorem stuck_iff (s : Sched τ) :
    Sweep.Stuck (visitRule now l) s.timer (s.list l) ↔ s.Stuck now l := by
  unfold Stuck
  match h : s.list l with
  | [] => simp [Sweep.Stuck]
  | [a₀] => simp [Sweep.Stuck]
  | a₀ :: a₁ :: rest =>
    simp only [Sweep.Stuck, lodges_iff]
    constructor
    · exact fun hstuck => ⟨a₀, a₁, rest, rfl, hstuck⟩
    · rintro ⟨_, _, _, ⟨⟩, hstuck⟩
      exact hstuck

theorem walk_halts_iff (s : Sched τ) (hinfo : s.InfoSet l) :
    Loop.Halts (walkStep (timerVisit now l) l) (⟨0, 0⟩, s) ↔ ¬ s.Stuck now l := by
  have hstep : ∀ x x' : Cursor × Sched τ, x.2.InfoSet l →
      walkStep (timerVisit now l) l x = some x' → x'.2.InfoSet l :=
    walkStep_invariant fun _ _ _ ht hs => hs.timerVisit ht
  rw [Loop.halts_iff_of_map (sweepOf l) hstep (step_sweepOf now l) hinfo, ← stuck_iff]
  exact Sweep.halts_iff (s.list l) s.timer

theorem returns_iff_halts (s : Sched τ) :
    (∃ fuel s', timerListSchedule fuel now l s = some s') ↔
      Loop.Halts (walkStep (timerVisit now l) l) (⟨0, 0⟩, s) := by
  constructor
  · rintro ⟨fuel, s', h⟩
    obtain ⟨x, hx, _⟩ := Option.map_eq_some_iff.mp h
    exact ⟨fuel, x, hx⟩
  · rintro ⟨fuel, x, hx⟩
    exact ⟨fuel, x.2, by rw [timerListSchedule, walk, hx]; rfl⟩

/-- `timer_list_schedule` returns if and only if no timer of the list has a null info
pointer, which the trace of the first branch would dereference, and the list is not
stuck. -/
theorem timerListSchedule_returns_iff (now : Int) (l : ListId) (s : Sched τ) :
    (∃ fuel s', timerListSchedule fuel now l s = some s') ↔
      (∀ t ∈ (s.list l).contents, (s.timer t).info ≠ none) ∧ ¬ s.Stuck now l := by
  constructor
  · intro hreturns
    have hinfo : ∀ t ∈ (s.list l).contents, (s.timer t).info ≠ none := by
      obtain ⟨fuel, s', h⟩ := hreturns
      exact fun t ht => info_ne_none_of_timerListSchedule h ht
    exact ⟨hinfo, (walk_halts_iff s hinfo).mp ((returns_iff_halts s).mp hreturns)⟩
  · rintro ⟨hinfo, hstuck⟩
    exact (returns_iff_halts s).mpr ((walk_halts_iff s hinfo).mpr hstuck)

/-- 32 timers of 10 milliseconds in work list 2, all triggered at time 1. -/
def overfull : Sched Nat where
  timer _ := ⟨.running, some { freshTimer 5 with timer := ⟨1, 1, ⟨fun _ => 0⟩⟩ }, [], 1⟩
  list := Function.update (fun _ => initTmlistResource) ⟨.timer, .work2⟩
    [⟨List.range 31, by decide⟩, ⟨[31], by decide⟩]
  action _ := ⟨fun _ => 0⟩
  touched := []
  awakened := []

theorem timerListSchedule_diverges :
    ¬ ∀ (s : Sched Nat) (now : Int) (l : ListId), l.band ≠ .due →
      ∃ fuel s', timerListSchedule fuel now l s = some s' := by
  intro h
  have hreturns := h overfull 2 ⟨.timer, .work2⟩ (by decide)
  have hinfo : overfull.InfoSet ⟨.timer, .work2⟩ := fun _ _ => nofun
  rw [returns_iff_halts, walk_halts_iff overfull hinfo] at hreturns
  refine hreturns ⟨⟨List.range 31, by decide⟩, ⟨[31], by decide⟩, [], rfl, 0, 31, rfl, ?_, ?_, ?_⟩
  · exact ⟨rfl, _, rfl, Or.inl ⟨by decide, by decide⟩⟩
  · decide +kernel
  · decide

end Sched

end LMiced
