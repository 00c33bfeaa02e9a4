import LMiced.Timer.Trigger

/-!
# What a walk of a work list does

`timer_list_schedule` deletes, moves and appends timers while it indexes the arrays it
walks. Still, a call that returns treats each timer of the list as if it were alone: the
walk gets to it, does what `timerVerdict` says, and when it meets the timer again it does
the same again.

* `timerVerdict_idem`: a second visit at the same time changes nothing;
* `Awaits.step`: a timer of the list is ahead of the walk and untouched, or it was
  treated;
* `timer_list_schedule_treats`: what a call does to the timers of the list and to the
  others.
-/

namespace LMiced

/-- A trigger leaves the whole period. -/
theorem TimerInfo.remaining_fire {now : Int} {info : TimerInfo} (hnow : 0 < now) :
    (info.fire now).remaining now = info.period := by
  have hbegin : ¬ (info.fire now).timer.begin ≤ 0 := Int.not_le.mpr hnow
  rw [remaining, if_neg hbegin]
  simp only [fire]
  omega

/-- Visiting a timer once more at the same time leaves it as it is. -/
theorem timerVerdict_idem {now : Int} {r : TimerRes} (hnow : 0 < now)
    (hperiod : ∀ info, r.info = some info → 0 < info.period)
    (h : (timerVerdict now r).dest ≠ .removed) :
    timerVerdict now (timerVerdict now r).res = timerVerdict now r := by
  rcases timerVerdict_cases now r with
    ⟨_, _, hv⟩ | ⟨_, _, _, _, _, hv⟩ | ⟨info, hinfo, hrun, _, _, hv⟩ | ⟨_, _, _, _, hv⟩ | ⟨_, hv⟩
  · exact absurd (congrArg Verdict.dest hv) h
  · exact absurd (congrArg Verdict.dest hv) h
  · -- The timer was triggered just now, and has its whole period left.
    have hrem := info.remaining_fire hnow
    have hpos := hperiod info hinfo
    rw [hv]
    simp only [timerVerdict, hrun, hrem, ne_eq, not_true_eq_false, if_false,
      if_neg (Int.not_le.mpr hpos)]
    rfl
  · rw [hv, hv]
  · rw [hv, hv]

namespace Sched

variable {τ : Type} [DecidableEq τ] {now : Int} {l : ListId} {c : Cursor} {t u : τ} {s : Sched τ}

/-! ## Treated timers -/

/-- The timer has the record and the place that a verdict gives it. -/
structure Treated (v : Verdict) (t : τ) (s : Sched τ) : Prop where
  res : s.timer t = v.res
  removed : v.dest = .removed → s.positions t = 0
  filed : ∀ l, v.dest = .filed l → t ∈ (s.list l).contents

theorem timerVisit_mem_of_ne (ht : (s.list l).entryAt c.arr c.pos = some t) (hne : u ≠ t)
    (l' : ListId) :
    u ∈ ((timerVisit now l c t s).1.list l').contents ↔ u ∈ (s.list l').contents := by
  have hocc := timerVisit_occ_of_ne now ht hne l'
  rw [← List.count_pos_iff, ← List.count_pos_iff]
  exact Eq.to_iff (congrArg (0 < ·) hocc)

theorem Treated.visit_of_ne {v : Verdict} (hu : Treated v u s)
    (ht : (s.list l).entryAt c.arr c.pos = some t) (hne : u ≠ t) :
    Treated v u (timerVisit now l c t s).1 where
  res := by
    rw [timerVisit_timer, Function.update_of_ne hne]
    exact hu.res
  removed hdest := by
    have hpos := timerVisit_positions now ht u
    have hzero := hu.removed hdest
    omega
  filed l' hdest := (timerVisit_mem_of_ne ht hne l').mpr (hu.filed l' hdest)

variable (now) in
/-- The visit of a timer treats it. -/
theorem treated_visit (hs : s.WellListed) (ht : (s.list l).entryAt c.arr c.pos = some t) :
    Treated (timerVerdict now (s.timer t)) t (timerVisit now l c t s).1 where
  res := by rw [timerVisit_timer, Function.update_self]
  removed hdest := by
    have hpos := timerVisit_positions now ht t
    have hle := hs.once t
    rw [if_pos ⟨rfl, hdest⟩] at hpos
    omega
  filed l' hdest := mem_timerVisit_of_dest ht hdest

/-! ## The walk -/

/-- A timer with the record `r` at the beginning: the walk has not reached it yet, or it
was treated. -/
def Awaits (now : Int) (l : ListId) (r : TimerRes) (t : τ) (x : Cursor × Sched τ) : Prop :=
  (x.2.timer t = r ∧ (x.2.list l).Ahead x.1.arr x.1.pos t) ∨
    Treated (timerVerdict now r) t x.2

theorem Awaits.step {r : TimerRes} {x : Cursor × Sched τ} (hnow : 0 < now)
    (hperiod : ∀ info, r.info = some info → 0 < info.period) (hs : s.WellListed)
    (hu : Awaits now l r u (c, s)) (h : walkStep (timerVisit now l) l (c, s) = some x) :
    Awaits now l r u x := by
  rcases walkStep_cases h with ⟨hend, rfl⟩ | ⟨t, ht, rfl⟩
  · exact hu.imp_left fun ⟨hres, hahead⟩ => ⟨hres, hahead.nextArray hend⟩
  · by_cases hne : u = t
    · -- The verdict on a timer that was treated is the one it was treated by.
      subst hne
      right
      have hvisit := treated_visit now hs ht
      rcases hu with ⟨hres, _⟩ | htreated
      · rwa [hres] at hvisit
      · have hdest : (timerVerdict now r).dest ≠ .removed := by
          intro hremoved
          have hzero : s.positions u = 0 := htreated.removed hremoved
          have hpos := positions_pos_iff.mpr ⟨l, Chain.mem_of_entryAt ht⟩
          omega
        rwa [htreated.res, timerVerdict_idem hnow hperiod hdest] at hvisit
    · refine hu.imp ?_ fun htreated => htreated.visit_of_ne ht hne
      rintro ⟨hres, hahead⟩
      refine ⟨?_, ahead_timerVisit hahead ht hne⟩
      rw [timerVisit_timer, Function.update_of_ne hne]
      exact hres

/-- A call that returns has treated every timer of the list. -/
theorem treated_of_timerListSchedule {fuel : Nat} {s' : Sched τ} (hs : s.WellListed)
    (hnow : 0 < now) (hperiod : ∀ info, (s.timer t).info = some info → 0 < info.period)
    (h : timerListSchedule fuel now l s = some s') (ht : t ∈ (s.list l).contents) :
    Treated (timerVerdict now (s.timer t)) t s' := by
  obtain ⟨⟨c', s₁⟩, hrun, rfl⟩ := Option.map_eq_some_iff.mp h
  obtain ⟨k, i, hentry⟩ := Chain.exists_entryAt_of_mem ht
  have hahead : (s.list l).Ahead 0 0 t := ⟨k, i, hentry, by omega⟩
  have hend := Loop.run_invariant
    (I := fun x : Cursor × Sched τ => x.2.WellListed ∧ Awaits now l (s.timer t) t x)
    (fun x x' hx hstep => ⟨walkStep_invariant
      (fun c t s ht hs => WellListed.timerVisit hs ht) x x' hx.1 hstep,
      hx.2.step hnow hperiod hx.1 hstep⟩)
    hrun ⟨hs, Or.inl ⟨rfl, hahead⟩⟩
  exact hend.1.2.resolve_left fun hahead =>
    Chain.not_ahead_of_length_le (walkStep_eq_none hend.2) hahead.2

/-- A call leaves the timers of the other lists alone. -/
theorem timerListSchedule_of_not_mem {fuel : Nat} {s' : Sched τ}
    (h : timerListSchedule fuel now l s = some s') (ht : t ∉ (s.list l).contents) :
    s'.timer t = s.timer t ∧ ∀ l', s'.occ l' t = s.occ l' t := by
  have hocc : ∀ {s₁ : Sched τ}, s₁.occ l t = s.occ l t → t ∉ (s₁.list l).contents := by
    intro s₁ hsame hmem
    exact ht (List.count_pos_iff.mp (Nat.lt_of_lt_of_eq (List.count_pos_iff.mpr hmem) hsame))
  refine walk_invariant (I := fun s₁ => s₁.timer t = s.timer t ∧ ∀ l', s₁.occ l' t = s.occ l' t)
    ?_ h ⟨rfl, fun _ => rfl⟩
  rintro c u s₁ hu ⟨hres, hsame⟩
  have hne : t ≠ u := by
    rintro rfl
    exact hocc (hsame l) (Chain.mem_of_entryAt hu)
  refine ⟨?_, fun l' => (timerVisit_occ_of_ne now hu hne l').trans (hsame l')⟩
  rw [timerVisit_timer, Function.update_of_ne hne]
  exact hres

end Sched

/-- The timer is to be triggered in a work list. -/
def TimerInfo.expired (now : Int) (info : TimerInfo) : Prop :=
  info.timer.begin ≤ 0 ∨ info.timer.begin + info.period ≤ now

instance (now : Int) (info : TimerInfo) : Decidable (info.expired now) := by
  unfold TimerInfo.expired
  infer_instance

theorem TimerInfo.remaining_le_zero_iff {now : Int} {info : TimerInfo} :
    info.remaining now ≤ 0 ↔ info.expired now := by
  unfold remaining expired
  split_ifs <;> omega

theorem TimerInfo.finished_iff {info : TimerInfo} :
    info.finished ↔ info.size.toNat ≤ info.timer.count.toNat := by
  rw [← not_iff_not, not_finished_iff, Nat.not_le]

namespace Sched

variable {τ : Type} [DecidableEq τ] {now : Int} {l : ListId} {t : τ} {s : Sched τ}

theorem Treated.positions_eq_one {v : Verdict} {l : ListId} (ht : Treated v t s)
    (hs : s.WellListed) (hdest : v.dest = .filed l) : s.positions t = 1 := by
  have hle := hs.once t
  have hpos := positions_pos_iff.mpr ⟨l, ht.filed l hdest⟩
  omega

theorem Treated.of_not_running {r : TimerRes} (ht : Treated (timerVerdict now r) t s)
    (hinfo : r.info ≠ none) (hrun : r.active ≠ .running) :
    s.positions t = 0 ∧ (s.timer t).active = .notUse := by
  have hdest : (timerVerdict now r).dest = .removed := by
    rcases timerVerdict_cases now r with
      ⟨_, _, hv⟩ | ⟨_, _, _, _, _, hv⟩ | ⟨_, _, hrun', _⟩ | ⟨_, _, hrun', _⟩ | ⟨hnull, _⟩
    · exact congrArg Verdict.dest hv
    · exact congrArg Verdict.dest hv
    · exact absurd hrun' hrun
    · exact absurd hrun' hrun
    · exact absurd hnull hinfo
  refine ⟨ht.removed hdest, ?_⟩
  rw [ht.res]
  exact timerVerdict_active.1 hdest

theorem Treated.of_running {r : TimerRes} {info : TimerInfo} (hnow : 0 < now)
    (hs : s.WellListed) (ht : Treated (timerVerdict now r) t s) (hrun : r.active = .running)
    (hinfo : r.info = some info) :
    let info' := if info.expired now then info.fire now else info
    (s.timer t).info = some info' ∧
      if info.expired now ∧ info'.size.toNat ≤ info'.timer.count.toNat then
        s.positions t = 0 ∧ (s.timer t).active = .notUse
      else
        s.positions t = 1 ∧ (s.timer t).active = .running ∧
          t ∈ (s.list (getTlistByRemain (info'.remaining now) info')).contents := by
  intro info'
  rcases timerVerdict_cases now r with
    ⟨_, hdrop, _⟩ | ⟨_, hi, _, hrem, hfin, hv⟩ | ⟨_, hi, _, hrem, hfin, hv⟩ |
    ⟨_, hi, _, hrem, hv⟩ | ⟨hnull, _⟩
  · exact absurd hrun hdrop
  rotate_right
  · exact absurd (hnull.symm.trans hinfo) nofun
  -- The other three verdicts are on a running timer with this info block.
  all_goals
    obtain rfl := Option.some.inj (hinfo.symm.trans hi)
    have hres := ht.res
    rw [hv] at hres ht
  · have hexp := TimerInfo.remaining_le_zero_iff.mp hrem
    have hinfo' : info' = info.fire now := if_pos hexp
    rw [hinfo', if_pos ⟨hexp, TimerInfo.finished_iff.mp hfin⟩, hres]
    exact ⟨rfl, ht.removed rfl, rfl⟩
  · have hexp := TimerInfo.remaining_le_zero_iff.mp hrem
    have hinfo' : info' = info.fire now := if_pos hexp
    rw [hinfo', if_neg fun h => hfin (TimerInfo.finished_iff.mpr h.2), hres,
      TimerInfo.remaining_fire hnow]
    exact ⟨rfl, ht.positions_eq_one hs rfl, hrun, ht.filed _ rfl⟩
  · have hexp : ¬ info.expired now := by
      rw [← TimerInfo.remaining_le_zero_iff]
      omega
    have hinfo' : info' = info := if_neg hexp
    rw [hinfo', if_neg fun h => hexp h.1, hres]
    exact ⟨hinfo, ht.positions_eq_one hs rfl, hrun, ht.filed _ rfl⟩

/-- A timer of 10 milliseconds with one trigger, which it has had at time 10000. It is
running: it was opened once more afterwards. -/
def reopenedTimer : TimerInfo :=
  { freshTimer 1 with timer := ⟨1, 10000, ⟨fun _ => 0⟩⟩ }

end Sched

end LMiced
