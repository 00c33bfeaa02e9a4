import LMiced.Timer.Schedule

/-!
# What a walk of a due list does

`due_list_schedule` triggers the timers whose due time has passed and hands those with
triggers left over to a work list. The hand-over looks at the due time again, so it files
such a timer in the due list once more, and then the timer is marked as unused, as if it
had been removed for good: the walk meets it again and deletes it. And a running timer
without an info block ends the walk of its array.

* `dueVisit_res`: a visit leaves the record of a timer alone or marks it as unused, so no
  timer that was triggered is running afterwards;
* `NoneContinues` says that no timer has triggers left; then nothing is handed over, and
  the walk only removes timers (`Quiet`);
* `due_list_schedule_hands_over_iff`: when a call treats the timers of a due list as it
  should.
-/

namespace LMiced

/-- The timer runs and its due time has passed. -/
def TimerRes.ripe (now : Int) (r : TimerRes) (info : TimerInfo) : Prop :=
  r.active = .running ∧ r.info = some info ∧ info.due ≤ now

/-- The timer runs and has no info block. -/
def TimerRes.stops (r : TimerRes) : Prop := r.active = .running ∧ r.info = none

/-- A triggered timer that is marked as unused. -/
def TimerRes.spent (now : Int) (r : TimerRes) (info : TimerInfo) : TimerRes :=
  { r with active := .notUse, info := some (info.fire now) }

theorem TimerInfo.fire_ne (now : Int) (info : TimerInfo) : info.fire now ≠ info := by
  intro h
  have hcount : info.timer.count + 1 = info.timer.count :=
    congrArg (fun i : TimerInfo => i.timer.count) h
  have hval := congrArg UInt64.toNat hcount
  have hlt := info.timer.count.toNat_lt
  rw [UInt64.toNat_add, UInt64.toNat_one] at hval
  omega

namespace Sched

variable {τ : Type} [DecidableEq τ] {now : Int} {l : ListId} {c : Cursor} {t u : τ}
  {s s₀ : Sched τ} {info : TimerInfo}

/-! ## Records -/

variable (now l c t s) in
theorem dueVisit_res (u : τ) : (dueVisit now l c t s).1.timer u = s.timer u ∨
    ((dueVisit now l c t s).1.timer u).active = .notUse := by
  by_cases hut : u = t
  · subst hut
    rcases dueVisit_cases now l c u s with
      ⟨_, h⟩ | ⟨_, _, h⟩ | ⟨_, _, _, _, h⟩ | ⟨_, _, _, _, h, _⟩
    · exact Or.inr (by simp [h])
    · exact Or.inl (by simp [h])
    · exact Or.inl (by simp [h])
    · exact Or.inr (by simp [h])
  · exact Or.inl (dueVisit_timer_of_ne hut)

/-- The record of a timer is the old one, or the timer is marked as unused. -/
def Kept (s₀ : Sched τ) (u : τ) (s : Sched τ) : Prop :=
  s.timer u = s₀.timer u ∨ (s.timer u).active = .notUse

theorem Kept.dueVisit (h : Kept s₀ u s) : Kept s₀ u (dueVisit now l c t s).1 := by
  rcases dueVisit_res now l c t s u with hsame | hunused
  · rwa [Kept, hsame]
  · exact Or.inr hunused

omit [DecidableEq τ] in
/-- A running timer has its old record. -/
theorem Kept.eq_of_running (h : Kept s₀ u s) (hrun : (s.timer u).active = .running) :
    s.timer u = s₀.timer u := by
  rcases h with hsame | hunused
  · exact hsame
  · rw [hrun] at hunused
    cases hunused

/-- No timer that was triggered is running after the call. -/
theorem not_running_of_fired {fuel : Nat} {s' : Sched τ}
    (h : dueListSchedule fuel now l s = some s') (ht : (s.timer t).info = some info)
    (hfired : (s'.timer t).info = some (info.fire now)) : (s'.timer t).active ≠ .running := by
  intro hrun
  have hkept : Kept s t s' := walk_invariant (fun _ _ _ _ h => h.dueVisit) h (Or.inl rfl)
  rw [hkept.eq_of_running hrun, ht] at hfired
  exact info.fire_ne now (Option.some.inj hfired).symm

/-! ## Walks that hand nothing over -/

/-- No timer of the list whose due time has passed has triggers left. -/
def NoneContinues (now : Int) (l : ListId) (s : Sched τ) : Prop :=
  ∀ t ∈ (s.list l).contents, ∀ info, (s.timer t).ripe now info → ¬ (info.fire now).continues

/-- A visit removes the timer, leaves the array or passes over the timer. -/
theorem NoneContinues.visit_cases (hs : NoneContinues now l s)
    (ht : (s.list l).entryAt c.arr c.pos = some t) :
    (((s.timer t).active ≠ .running ∨ ∃ info, (s.timer t).ripe now info) ∧
      (dueVisit now l c t s).1.list = (s.removeAt l c.arr c.pos).list ∧
      (dueVisit now l c t s).2 = .again) ∨
    ((s.timer t).stops ∧ dueVisit now l c t s = (s, .stop)) ∨
    (∃ info, (s.timer t).active = .running ∧ (s.timer t).info = some info ∧ now < info.due ∧
      dueVisit now l c t s = (s.touch t, .next)) := by
  rcases dueVisit_cases now l c t s with
    ⟨hrun, h⟩ | ⟨hrun, hinfo, h⟩ | hwait | ⟨info, hrun, hinfo, hdue, _, hlist, _, hflow⟩
  · left
    rw [h]
    exact ⟨Or.inl hrun, rfl, rfl⟩
  · exact Or.inr (Or.inl ⟨⟨hrun, hinfo⟩, h⟩)
  · exact Or.inr (Or.inr hwait)
  · have hripe : (s.timer t).ripe now info := ⟨hrun, hinfo, hdue⟩
    rw [if_neg (hs t (Chain.mem_of_entryAt ht) info hripe)] at hlist
    exact Or.inl ⟨Or.inr ⟨info, hripe⟩, hlist, hflow⟩

theorem NoneContinues.visit_list (hs : NoneContinues now l s)
    (ht : (s.list l).entryAt c.arr c.pos = some t) :
    (dueVisit now l c t s).1.list = (s.removeAt l c.arr c.pos).list ∨
      (dueVisit now l c t s).1.list = s.list := by
  rcases hs.visit_cases ht with ⟨_, hlist, _⟩ | ⟨_, h⟩ | ⟨_, _, _, _, h⟩
  · exact Or.inl hlist
  · exact Or.inr (by rw [h])
  · exact Or.inr (by rw [h]; rfl)

theorem NoneContinues.dueVisit (hs : NoneContinues now l s)
    (ht : (s.list l).entryAt c.arr c.pos = some t) :
    NoneContinues now l (dueVisit now l c t s).1 := by
  intro u hu info hripe
  have hmem : u ∈ (s.list l).contents := by
    rcases hs.visit_list ht with hlist | hlist
    · rw [hlist] at hu
      exact mem_of_mem_removeAt hu
    · rwa [hlist] at hu
  have hsame : (Sched.dueVisit now l c t s).1.timer u = s.timer u :=
    Kept.eq_of_running (dueVisit_res now l c t s u) hripe.1
  rw [hsame] at hripe
  exact hs u hmem info hripe

/-- The state of a walk from `s₀` on that has handed nothing over. -/
structure Quiet (now : Int) (l : ListId) (s₀ s : Sched τ) : Prop where
  none : NoneContinues now l s
  shrunk : Chain.Shrunk (s.list l) (s₀.list l)
  others : ∀ l', l' ≠ l → s.list l' = s₀.list l'
  kept : ∀ u, Kept s₀ u s

omit [DecidableEq τ] in
theorem Quiet.refl (h : NoneContinues now l s) : Quiet now l s s :=
  ⟨h, Chain.Shrunk.refl _, fun _ _ => rfl, fun _ => Or.inl rfl⟩

theorem Quiet.dueVisit (hs : Quiet now l s₀ s) (ht : (s.list l).entryAt c.arr c.pos = some t) :
    Quiet now l s₀ (dueVisit now l c t s).1 where
  none := hs.none.dueVisit ht
  shrunk := by
    rcases hs.none.visit_list ht with hlist | hlist
    · rw [hlist, removeAt_list, Function.update_self]
      exact hs.shrunk.removeAt _ _
    · rw [hlist]
      exact hs.shrunk
  others l' hne := by
    rcases hs.none.visit_list ht with hlist | hlist
    · rw [hlist, removeAt_list, Function.update_of_ne hne]
      exact hs.others l' hne
    · rw [hlist]
      exact hs.others l' hne
  kept u := (hs.kept u).dueVisit

theorem Quiet.walkStep {x x' : Cursor × Sched τ} (hs : Quiet now l s₀ x.2)
    (h : walkStep (Sched.dueVisit now l) l x = some x') : Quiet now l s₀ x'.2 :=
  walkStep_invariant (fun _ _ _ ht hs => hs.dueVisit ht) x x' hs h

/-! ## Termination -/

/-- What is left to do for a walk: the places that it has not looked at, and the timers that
it may remove. -/
def workLeft (l : ListId) (x : Cursor × Sched τ) : Nat :=
  ((x.2.list l).length - x.1.arr) * (timerListCap + 2) - x.1.pos + (x.2.list l).contents.length

theorem Quiet.workLeft_lt {x : Cursor × Sched τ} (hs : Quiet now l s₀ s)
    (hpos : c.pos ≤ timerListCap) (h : Sched.walkStep (Sched.dueVisit now l) l (c, s) = some x) :
    x.1.pos ≤ timerListCap ∧ workLeft l x < workLeft l (c, s) := by
  have harr := arr_lt_of_walkStep h
  -- Leaving an array takes off the places that are left there.
  have hleave : ((s.list l).length - (c.arr + 1)) * (timerListCap + 2) + (timerListCap + 2) =
      ((s.list l).length - c.arr) * (timerListCap + 2) := by
    rw [← Nat.succ_mul]
    congr 1
    omega
  rcases walkStep_cases h with ⟨_, rfl⟩ | ⟨t, ht, rfl⟩
  · simp only [workLeft]
    omega
  · have hlt := (Chain.lt_of_entryAt ht).2
    rcases hs.none.visit_cases ht with ⟨_, hlist, hflow⟩ | ⟨_, hv⟩ | ⟨_, _, _, _, hv⟩
    · have hlength := (Chain.contents_removeAt_perm ht).length_eq
      rw [hflow]
      simp only [workLeft, Flow.advance, hlist, removeAt_list, Function.update_self,
        Chain.length_removeAt, List.length_cons] at hlength ⊢
      omega
    · rw [hv]
      simp only [workLeft, Flow.advance]
      omega
    · rw [hv]
      simp only [workLeft, Flow.advance, touch_list]
      omega

/-- The walk returns. -/
theorem NoneContinues.returns (hs : NoneContinues now l s) :
    ∃ fuel s', dueListSchedule fuel now l s = some s' := by
  have hhalts : Loop.Halts (Sched.walkStep (Sched.dueVisit now l) l) (⟨0, 0⟩, s) := by
    refine Loop.halts_of_measure
      (I := fun x : Cursor × Sched τ => Quiet now l s x.2 ∧ x.1.pos ≤ timerListCap)
      (workLeft l) ?_ ⟨Quiet.refl hs, Nat.zero_le _⟩
    rintro ⟨c, s₁⟩ x ⟨hq, hpos⟩ hstep
    obtain ⟨hpos', hless⟩ := hq.workLeft_lt hpos hstep
    exact Or.inr ⟨⟨hq.walkStep hstep, hpos'⟩, hless⟩
  obtain ⟨fuel, x, hrun⟩ := hhalts
  exact ⟨fuel, x.2, Option.map_eq_some_iff.mpr ⟨x, hrun, rfl⟩⟩

/-! ## Timers that are not due -/

/-- A timer that is not due stays as it is. -/
theorem Quiet.waiting_step (hs : Quiet now l s₀ s)
    (ht : (s.list l).entryAt c.arr c.pos = some t) (hrun : (s₀.timer u).active = .running)
    (hinfo : (s₀.timer u).info = some info) (hdue : now < info.due)
    (hu : s.timer u = s₀.timer u ∧ u ∈ (s.list l).contents) :
    (Sched.dueVisit now l c t s).1.timer u = s₀.timer u ∧
      u ∈ ((Sched.dueVisit now l c t s).1.list l).contents := by
  by_cases hne : u = t
  · subst hne
    rcases hs.none.visit_cases ht with ⟨hgone, _⟩ | ⟨hstop, _⟩ | ⟨_, _, _, _, hv⟩
    · rw [hu.1] at hgone
      rcases hgone with hgone | ⟨info', _, hinfo', hdue'⟩
      · exact absurd hrun hgone
      · obtain rfl := Option.some.inj (hinfo.symm.trans hinfo')
        omega
    · rw [hu.1, TimerRes.stops, hinfo] at hstop
      cases hstop.2
    · rw [hv]
      exact hu
  · refine ⟨(dueVisit_timer_of_ne hne).trans hu.1, ?_⟩
    rcases hs.none.visit_list ht with hlist | hlist
    · rw [hlist, removeAt_list, Function.update_self]
      exact Chain.mem_removeAt_of_ne ht hne hu.2
    · rw [hlist]
      exact hu.2

/-! ## Timers that are due -/

/-- No running timer without an info block stands before the timer in its array. -/
def Unhindered (l : ListId) (t : τ) (s : Sched τ) : Prop :=
  ∀ a ∈ s.list l, ∀ u, (s.timer u).stops → ¬ [u, t].Sublist a.entries

/-- A due timer whose places are all ahead of the walk: it was not triggered yet, or it is
spent. -/
structure Clearing (now : Int) (l : ListId) (s₀ : Sched τ) (t : τ) (info : TimerInfo)
    (x : Cursor × Sched τ) : Prop where
  ahead : (x.2.list l).AllAhead x.1.arr x.1.pos t
  res : (x.2.timer t = s₀.timer t ∧ t ∈ (x.2.list l).contents) ∨
    x.2.timer t = (s₀.timer t).spent now info

omit [DecidableEq τ] in
/-- A due timer is removed when it is visited. -/
theorem Clearing.gone_or_ripe (ht : Clearing now l s₀ t info (c, s))
    (hripe : (s₀.timer t).ripe now info) :
    (s.timer t).active ≠ .running ∨ (s.timer t).ripe now info := by
  rcases ht.res with ⟨hres, _⟩ | hres
  · rw [show s.timer t = s₀.timer t from hres]
    exact Or.inr hripe
  · left
    rw [show s.timer t = (s₀.timer t).spent now info from hres]
    exact nofun

/-- A visit of a due timer leaves it spent. -/
theorem Clearing.visit_res (ht : Clearing now l s₀ t info (c, s))
    (hripe : (s₀.timer t).ripe now info) :
    (Sched.dueVisit now l c t s).1.timer t = (s₀.timer t).spent now info := by
  obtain ⟨hrun, hinfo, hdue⟩ := hripe
  rcases ht.res with ⟨hres, _⟩ | hres
  · replace hres : s.timer t = s₀.timer t := hres
    rcases dueVisit_cases now l c t s with
      ⟨hgone, _⟩ | ⟨_, hnull, _⟩ | ⟨info', _, hi, hwait, _⟩ | ⟨info', _, hi, _, htimer, _⟩
    · exact absurd (hres ▸ hrun) hgone
    · rw [hres, hinfo] at hnull
      cases hnull
    · rw [hres, hinfo] at hi
      obtain rfl := Option.some.inj hi
      omega
    · rw [hres, hinfo] at hi
      obtain rfl := Option.some.inj hi
      rw [htimer, Function.update_self, hres]
      rfl
  · replace hres : s.timer t = (s₀.timer t).spent now info := hres
    have hgone : (s.timer t).active ≠ .running := by
      rw [hres]
      exact nofun
    rw [Sched.dueVisit, if_pos hgone, deleteTimerByPos_timer, Function.update_self, hres]
    rfl

omit [DecidableEq τ] in
/-- The walk leaves an array early only when no place of the timer is behind it there. -/
theorem Quiet.not_behind (hs : Quiet now l s₀ s) (hfree : Unhindered l t s₀)
    (hu : (s.list l).entryAt c.arr c.pos = some u) (hstop : (s.timer u).stops) (hne : u ≠ t)
    {i : Nat} (hi : c.pos ≤ i) : (s.list l).entryAt c.arr i ≠ some t := by
  intro ht
  have hlt : c.pos < i := by
    rcases Nat.lt_or_eq_of_le hi with hlt | rfl
    · exact hlt
    · exact absurd (Option.some.inj (hu.symm.trans ht)) hne
  obtain ⟨a', ha', _⟩ := Option.bind_eq_some_iff.mp hu
  have hpair := Chain.pair_sublist_of_entryAt ha' hu ht hlt
  obtain ⟨a, ha, hsub⟩ := hs.shrunk.exists_sublist ha'
  rw [(hs.kept u).eq_of_running hstop.1] at hstop
  exact hfree a ha u hstop (hpair.trans hsub)

theorem Clearing.step {x : Cursor × Sched τ} (hs : Quiet now l s₀ s)
    (hfree : Unhindered l t s₀) (hripe : (s₀.timer t).ripe now info)
    (ht : Clearing now l s₀ t info (c, s))
    (h : Sched.walkStep (Sched.dueVisit now l) l (c, s) = some x) :
    Clearing now l s₀ t info x := by
  have hahead : (s.list l).AllAhead c.arr c.pos t := ht.ahead
  have hgone := ht.gone_or_ripe hripe
  rcases walkStep_cases h with ⟨hend, rfl⟩ | ⟨u, hu, rfl⟩
  · refine ⟨hahead.nextArray fun i hi hentry => ?_, ht.res⟩
    rw [Chain.entryAt_eq_none_of_le hend hi] at hentry
    cases hentry
  · refine ⟨?_, ?_⟩
    · rcases hs.none.visit_cases hu with
        ⟨_, hlist, hflow⟩ | ⟨hstop, hv⟩ | ⟨_, hrun, hinfo, hdue, hv⟩
      · rw [hflow, hlist, removeAt_list, Function.update_self]
        exact hahead.removeAt
      · -- The timer that ends the walk of this array is another one.
        have hne : u ≠ t := by
          rintro rfl
          rcases hgone with hgone | ⟨_, hinfo, _⟩
          · exact hgone hstop.1
          · rw [hstop.2] at hinfo
            cases hinfo
        rw [hv]
        exact hahead.nextArray fun i hi => hs.not_behind hfree hu hstop hne hi
      · have hne : u ≠ t := by
          rintro rfl
          rcases hgone with hgone | ⟨_, hinfo', hdue'⟩
          · exact hgone hrun
          · obtain rfl := Option.some.inj (hinfo.symm.trans hinfo')
            omega
        rw [hv]
        exact hahead.next fun hentry => hne (Option.some.inj (hu.symm.trans hentry))
    · by_cases hne : t = u
      · subst hne
        exact Or.inr (ht.visit_res hripe)
      · rw [dueVisit_timer_of_ne hne]
        refine ht.res.imp_left fun ⟨hres, hmem⟩ => ⟨hres, ?_⟩
        rcases hs.none.visit_list hu with hlist | hlist
        · rw [hlist, removeAt_list, Function.update_self]
          exact Chain.mem_removeAt_of_ne hu hne hmem
        · rw [hlist]
          exact hmem

/-- A due timer that nothing hinders is spent when the walk is over, and no longer in the
list. -/
theorem spent_of_dueListSchedule {fuel : Nat} {s' : Sched τ} (hs : NoneContinues now l s)
    (hfree : Unhindered l t s) (hripe : (s.timer t).ripe now info)
    (ht : t ∈ (s.list l).contents) (h : dueListSchedule fuel now l s = some s') :
    s'.timer t = (s.timer t).spent now info ∧ t ∉ (s'.list l).contents := by
  obtain ⟨⟨c, s₁⟩, hrun, rfl⟩ := Option.map_eq_some_iff.mp h
  have hinit : Clearing now l s t info (⟨0, 0⟩, s) :=
    ⟨fun k _ _ => (Nat.eq_zero_or_pos k).symm.imp_right fun hk => ⟨hk.symm, Nat.zero_le _⟩,
      Or.inl ⟨rfl, ht⟩⟩
  have hend := Loop.run_invariant
    (I := fun x : Cursor × Sched τ => Quiet now l s x.2 ∧ Clearing now l s t info x)
    (fun x x' hx hstep => ⟨hx.1.walkStep hstep, hx.2.step hx.1 hfree hripe hstep⟩)
    hrun ⟨Quiet.refl hs, hinit⟩
  have hgone := Chain.not_mem_of_allAhead hend.1.2.ahead (walkStep_eq_none hend.2)
  exact ⟨hend.1.2.res.resolve_left fun hres => hgone hres.2, hgone⟩

/-! ## Timers behind a timer without an info block -/

/-- In array `k` the timer `t` stands behind `u`, which the walk has not passed. -/
def Guarded (l : ListId) (k : Nat) (u t : τ) (x : Cursor × Sched τ) : Prop :=
  (x.2.timer u).stops ∧ ∃ (a : BArray timerListCap τ) (before after : List τ),
    (x.2.list l)[k]? = some a ∧ a.entries = before ++ u :: after ∧ t ∈ after ∧
      (x.1.arr = k → x.1.pos ≤ before.length)

/-- A running timer without an info block is left alone. -/
theorem dueVisit_of_stops (h : (s.timer t).stops) :
    Sched.dueVisit now l c t s = (s, .stop) := by
  rcases dueVisit_cases now l c t s with
    ⟨hgone, _⟩ | ⟨_, _, hv⟩ | ⟨_, _, hinfo, _⟩ | ⟨_, _, hinfo, _⟩
  · exact absurd h.1 hgone
  · exact hv
  · rw [h.2] at hinfo
    cases hinfo
  · rw [h.2] at hinfo
    cases hinfo

theorem Guarded.step {x : Cursor × Sched τ} {k : Nat} (hs : Quiet now l s₀ s)
    (hg : Guarded l k u t (c, s))
    (h : Sched.walkStep (Sched.dueVisit now l) l (c, s) = some x) : Guarded l k u t x := by
  obtain ⟨hstop, a, before, after, ha, hsplit, ht, hpos⟩ := hg
  replace ha : (s.list l)[k]? = some a := ha
  replace hpos : c.arr = k → c.pos ≤ before.length := hpos
  rcases walkStep_cases h with ⟨_, rfl⟩ | ⟨w, hw, rfl⟩
  · exact ⟨hstop, a, before, after, ha, hsplit, ht, fun _ => Nat.zero_le _⟩
  by_cases hne : u = w
  · subst hne
    rw [dueVisit_of_stops hstop]
    exact ⟨hstop, a, before, after, ha, hsplit, ht, fun _ => Nat.zero_le _⟩
  -- In this array another timer is looked at before the walk gets to `u`.
  have hbefore : c.arr = k → c.pos < before.length := by
    intro hk
    refine Nat.lt_of_le_of_ne (hpos hk) fun hlength => hne ?_
    rw [Chain.entryAt, hk, ha, hlength, Option.bind_some, hsplit] at hw
    simpa using hw
  have hstop' : ((Sched.dueVisit now l c w s).1.timer u).stops := by
    rw [dueVisit_timer_of_ne hne]
    exact hstop
  refine ⟨hstop', ?_⟩
  rcases hs.none.visit_cases hw with ⟨_, hlist, hflow⟩ | ⟨_, hv⟩ | ⟨_, _, _, _, hv⟩
  · rw [hflow, hlist, removeAt_list, Function.update_self]
    by_cases hk : c.arr = k
    · have hlt := hbefore hk
      refine ⟨a.eraseIdx c.pos, before.eraseIdx c.pos, after, ?_, ?_, ht, fun _ => ?_⟩
      · rw [Chain.getElem?_removeAt, if_pos hk, ha, Option.map_some]
      · rw [BArray.entries_eraseIdx, hsplit, List.eraseIdx_append_of_lt_length hlt]
      · rw [List.length_eraseIdx_of_lt hlt]
        exact Nat.le_pred_of_lt hlt
    · refine ⟨a, before, after, ?_, hsplit, ht, fun hk' => absurd hk' hk⟩
      rw [Chain.getElem?_removeAt, if_neg hk, ha]
  · rw [hv]
    exact ⟨a, before, after, ha, hsplit, ht, fun _ => Nat.zero_le _⟩
  · rw [hv]
    exact ⟨a, before, after, ha, hsplit, ht, fun hk => hbefore hk⟩

/-- A timer behind a timer without an info block stays in the list. -/
theorem mem_of_hindered {fuel : Nat} {s' : Sched τ} {a : BArray timerListCap τ}
    (hs : NoneContinues now l s) (ha : a ∈ s.list l) (hstop : (s.timer u).stops)
    (hpair : [u, t].Sublist a.entries) (h : dueListSchedule fuel now l s = some s') :
    t ∈ (s'.list l).contents := by
  obtain ⟨⟨c, s₁⟩, hrun, rfl⟩ := Option.map_eq_some_iff.mp h
  obtain ⟨k, hk⟩ := List.mem_iff_getElem?.mp ha
  have hinit : Guarded l k u t (⟨0, 0⟩, s) := by
    obtain ⟨front, rest, hsplit, hu, hrest⟩ := List.cons_sublist_iff.mp hpair
    obtain ⟨before, after, rfl⟩ := List.append_of_mem hu
    refine ⟨hstop, a, before, after ++ rest, hk, by simpa using hsplit, ?_,
      fun _ => Nat.zero_le _⟩
    exact List.mem_append_right _ (List.singleton_sublist.mp hrest)
  have hend := Loop.run_invariant
    (I := fun x : Cursor × Sched τ => Quiet now l s x.2 ∧ Guarded l k u t x)
    (fun x x' hx hstep => ⟨hx.1.walkStep hstep, hx.2.step hx.1 hstep⟩)
    hrun ⟨Quiet.refl hs, hinit⟩
  obtain ⟨_, a', before, after, ha', hsplit, ht, _⟩ := hend.1.2
  refine List.mem_flatMap.mpr ⟨a', List.mem_of_getElem? ha', ?_⟩
  rw [hsplit]
  exact List.mem_append_right _ (List.mem_cons_of_mem _ ht)

/-! ## The call -/

/-- What a call is meant to do to a running timer of the due list `l` with the info block
`info`. -/
def DueTreated (now : Int) (l : ListId) (t : τ) (info : TimerInfo) (s s' : Sched τ) : Prop :=
  if info.due ≤ now then
    (s'.timer t).info = some (info.fire now) ∧
      if (info.fire now).continues then
        s'.positions t = 1 ∧ (s'.timer t).active = .running ∧
          t ∈ (s'.list ⟨info.family, workBand info.period⟩).contents
      else s'.positions t = 0 ∧ (s'.timer t).active = .notUse
  else s'.timer t = s.timer t ∧ t ∈ (s'.list l).contents

/-- The timers of the list whose due time has passed have no triggers left, are in no other
list, and do not stand behind a running timer without an info block. -/
def DueLast (now : Int) (l : ListId) (s : Sched τ) : Prop :=
  ∀ t ∈ (s.list l).contents, ∀ info, (s.timer t).ripe now info →
    ¬ (info.fire now).continues ∧ (∀ l', l' ≠ l → t ∉ (s.list l').contents) ∧
      Unhindered l t s

/-- After a call every running timer of the list is treated as it should be. -/
def AllTreated (now : Int) (l : ListId) (s s' : Sched τ) : Prop :=
  ∀ t ∈ (s.list l).contents, ∀ info, (s.timer t).active = .running →
    (s.timer t).info = some info → DueTreated now l t info s s'

section Call

variable {fuel : Nat} {s' : Sched τ} (h : dueListSchedule fuel now l s = some s')
include h

theorem Quiet.of_dueListSchedule (hs : NoneContinues now l s) : Quiet now l s s' :=
  walk_invariant (fun _ _ _ ht hs => hs.dueVisit ht) h (Quiet.refl hs)

theorem AllTreated.noneContinues (hspec : AllTreated now l s s') : NoneContinues now l s := by
  intro t ht info hripe hcont
  have htreated := hspec t ht info hripe.1 hripe.2.1
  rw [DueTreated, if_pos hripe.2.2, if_pos hcont] at htreated
  exact not_running_of_fired h hripe.2.1 htreated.1 htreated.2.2.1

theorem AllTreated.dueLast (hspec : AllTreated now l s s') : DueLast now l s := by
  have hnone := hspec.noneContinues h
  intro t ht info hripe
  have hcont := hnone t ht info hripe
  have htreated := hspec t ht info hripe.1 hripe.2.1
  rw [DueTreated, if_pos hripe.2.2, if_neg hcont] at htreated
  have hunlisted : ∀ l', t ∉ (s'.list l').contents := by
    intro l' hmem
    have hpos := positions_pos_iff.mpr ⟨l', hmem⟩
    omega
  refine ⟨hcont, fun l' hne hmem => hunlisted l' ?_, fun a ha u hstop hpair => hunlisted l ?_⟩
  · rw [(Quiet.of_dueListSchedule h hnone).others l' hne]
    exact hmem
  · exact mem_of_hindered hnone ha hstop hpair h

theorem dueTreated_of_ripe (hlast : DueLast now l s) (hnone : NoneContinues now l s)
    (ht : t ∈ (s.list l).contents) (hripe : (s.timer t).ripe now info) :
    DueTreated now l t info s s' := by
  obtain ⟨hcont, hothers, hfree⟩ := hlast t ht info hripe
  obtain ⟨hres, hgone⟩ := spent_of_dueListSchedule hnone hfree hripe ht h
  rw [DueTreated, if_pos hripe.2.2, if_neg hcont, hres]
  refine ⟨rfl, Nat.eq_zero_of_not_pos fun hpos => ?_, rfl⟩
  obtain ⟨l', hmem⟩ := positions_pos_iff.mp hpos
  by_cases hl : l' = l
  · exact hgone (hl ▸ hmem)
  · rw [(Quiet.of_dueListSchedule h hnone).others l' hl] at hmem
    exact hothers l' hl hmem

theorem dueTreated_of_waiting (hnone : NoneContinues now l s) (ht : t ∈ (s.list l).contents)
    (hrun : (s.timer t).active = .running) (hinfo : (s.timer t).info = some info)
    (hdue : ¬ info.due ≤ now) : DueTreated now l t info s s' := by
  have hwait : Quiet now l s s' ∧ s'.timer t = s.timer t ∧ t ∈ (s'.list l).contents :=
    walk_invariant (I := fun s₁ => Quiet now l s s₁ ∧ s₁.timer t = s.timer t ∧
        t ∈ (s₁.list l).contents)
      (fun _ _ _ hu hs => ⟨hs.1.dueVisit hu,
        hs.1.waiting_step hu hrun hinfo (Int.not_le.mp hdue) hs.2⟩)
      h ⟨Quiet.refl hnone, rfl, ht⟩
  rw [DueTreated, if_neg hdue]
  exact hwait.2

end Call

/-- `due_list_schedule` treats the running timers of the list as it should if and only if
each of them that is due has had its last trigger with this one, is in no other list and
does not stand behind a running timer without an info block. -/
theorem due_list_schedule_hands_over_iff (now : Int) (l : ListId) (s : Sched τ) :
    (∃ fuel s', dueListSchedule fuel now l s = some s' ∧ AllTreated now l s s') ↔
      DueLast now l s := by
  constructor
  · rintro ⟨fuel, s', h, hspec⟩
    exact hspec.dueLast h
  · intro hlast
    have hnone : NoneContinues now l s := fun t ht info hripe => (hlast t ht info hripe).1
    obtain ⟨fuel, s', h⟩ := hnone.returns
    refine ⟨fuel, s', h, fun t ht info hrun hinfo => ?_⟩
    by_cases hdue : info.due ≤ now
    · exact dueTreated_of_ripe h hlast hnone ht ⟨hrun, hinfo, hdue⟩
    · exact dueTreated_of_waiting h hnone ht hrun hinfo hdue

/-- A timer of two triggers that is due: it is triggered, filed in the due list once more
and deleted. -/
theorem due_timer_is_lost :
    let info := { freshTimer 2 with due := 5 }
    let s := ofOne ⟨.timer, .due⟩ ⟨.running, some info, [], 1⟩
    ¬∃ fuel s', dueListSchedule fuel 10 ⟨.timer, .due⟩ s = some s' ∧
      AllTreated 10 ⟨.timer, .due⟩ s s' := by
  intro info s
  rintro ⟨fuel, s', h, hspec⟩
  exact hspec.noneContinues h () (by decide) info ⟨rfl, rfl, by decide⟩ (by decide)

end Sched

end LMiced
