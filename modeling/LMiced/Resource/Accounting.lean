import LMiced.Resource.Tasks

/-!
# Every running timer is listed once

A running timer should stand in the ten lists exactly once, or wait in the
queue for being listed. The state word of the timer, the queue and the lists are
written at different times by two threads, so this is an invariant of whole
runs. Two things break it:

* `open_timer_resource` sets the state before it queues the task and leaves it
  set when the queue is full;
* `due_list_schedule` hands a timer with triggers left over to the lists and
  then marks it as not in use, so that the next maintenance pass opens it once
  more while it is listed.

`listed_or_pending_of_run` says that nothing else does.
-/

namespace LMiced

variable {τ : Type} [DecidableEq τ]

/-! ## The condition -/

namespace Sched

/-- Every timer that a walk of the due list of `f` hands over stands in the head
array, and is filed in the same due list again. The walk then meets it again and
drops it. -/
def SafeHandOver (now : Int) (f : Family) (s : Sched τ) : Prop :=
  ∀ k i t info, (s.list ⟨f, .due⟩).entryAt k i = some t → (s.timer t).active = .running →
    (s.timer t).info = some info → info.due ≤ now → (info.fire now).continues →
    k = 0 ∧ getTimerResList info = ⟨f, .due⟩

end Sched

/-- A timer is opened only when its task can be queued, and no walk leaves a timer
behind that it has handed over. -/
def ResEvent.Accommodated : ResEvent τ → ResParam τ → Prop
  | .write _ _, _ => True
  | .maintain locked t, p => (p.sched.timer t).Opens →
      locked = false ∧ p.queue.entries.length < resTasklistSize
  | .tasks _, _ => True
  | .schedule _ now tick _, p => ∀ f, p.sched.SafeHandOver (clock now tick f) f

/-! ## The invariant -/

namespace Sched

/-- The state word of every timer agrees with the lists and with the number of
additions that are queued for it. `late` are the timers that are not in use and
that a walk has still to drop. -/
structure Accounted (pending : τ → Nat) (late : τ → Prop) (s : Sched τ) : Prop where
  once : ∀ t, s.positions t + pending t ≤ 1
  running : ∀ t, (s.timer t).active = .running → s.positions t + pending t = 1
  notUse : ∀ t, (s.timer t).active = .notUse → ¬ late t → s.positions t + pending t = 0
  info : ∀ t, (s.timer t).info ≠ none

variable {pending : τ → Nat} {late late' : τ → Prop} {s s' : Sched τ} {t : τ}

/-- A change of the record and of the listing of one timer. -/
theorem Accounted.update (hs : s.Accounted pending late) {pending' : τ → Nat}
    (hother : ∀ u, u ≠ t → s'.timer u = s.timer u ∧
      s'.positions u + pending' u = s.positions u + pending u)
    (hlate : ∀ u, u ≠ t → late u → late' u)
    (honce : s'.positions t + pending' t ≤ 1)
    (hrun : (s'.timer t).active = .running → s'.positions t + pending' t = 1)
    (hnot : (s'.timer t).active = .notUse → ¬ late' t → s'.positions t + pending' t = 0)
    (hinfo : (s'.timer t).info ≠ none) : s'.Accounted pending' late' where
  once u := by
    by_cases hu : u = t
    · exact hu ▸ honce
    · rw [(hother u hu).2]
      exact hs.once u
  running u := by
    by_cases hu : u = t
    · exact hu ▸ hrun
    · rw [(hother u hu).1, (hother u hu).2]
      exact hs.running u
  notUse u := by
    by_cases hu : u = t
    · exact hu ▸ hnot
    · rw [(hother u hu).1, (hother u hu).2]
      exact fun hact hl => hs.notUse u hact fun h => hl (hlate u hu h)
  info u := by
    by_cases hu : u = t
    · exact hu ▸ hinfo
    · rw [(hother u hu).1]
      exact hs.info u

/-- A timer that is listed and one that is queued count the same. -/
theorem Accounted.congr (hs : s.Accounted pending late) {pending' : τ → Nat}
    (htimer : s'.timer = s.timer)
    (hsum : ∀ u, s'.positions u + pending' u = s.positions u + pending u) :
    s'.Accounted pending' late where
  once u := (hsum u).symm ▸ hs.once u
  running u := by
    rw [htimer, hsum]
    exact hs.running u
  notUse u := by
    rw [htimer, hsum]
    exact hs.notUse u
  info u := by
    rw [htimer]
    exact hs.info u

theorem Accounted.mono (hs : s.Accounted pending late) (h : ∀ u, late u → late' u) :
    s.Accounted pending late' where
  once := hs.once
  running := hs.running
  notUse u hact hl := hs.notUse u hact fun hu => hl (h u hu)
  info := hs.info

/-- A listed timer is listed once and not queued. -/
theorem Accounted.of_entry (hs : s.Accounted pending late) {l : ListId} {c : Cursor}
    (ht : (s.list l).entryAt c.arr c.pos = some t) : s.positions t = 1 ∧ pending t = 0 := by
  have hpos : 0 < s.positions t := positions_pos_iff.mpr ⟨l, Chain.mem_of_entryAt ht⟩
  have hle := hs.once t
  omega

/-! ## Work lists -/

variable {now : Int} {l : ListId} {c : Cursor} {f : Family}

theorem Accounted.timerVisit (hs : s.Accounted pending fun _ => False)
    (ht : (s.list l).entryAt c.arr c.pos = some t) :
    (timerVisit now l c t s).1.Accounted pending fun _ => False := by
  obtain ⟨hone, hpend⟩ := hs.of_entry ht
  have hpos := timerVisit_positions now ht t
  have hrec : (Sched.timerVisit now l c t s).1.timer t = (timerVerdict now (s.timer t)).res := by
    rw [timerVisit_timer, Function.update_self]
  refine hs.update (t := t) (fun u hu => ⟨?_, ?_⟩) (fun _ _ h => h) (by omega) ?_ ?_ ?_
  · rw [timerVisit_timer, Function.update_of_ne hu]
  · have hposu := timerVisit_positions now ht u
    simp only [hu, false_and, if_false] at hposu
    omega
  · rw [hrec]
    intro hrun
    -- It is running after the visit, so the visit has not removed it.
    have hdest : (timerVerdict now (s.timer t)).dest ≠ .removed := fun h => by
      rw [timerVerdict_active.1 h] at hrun
      cases hrun
    simp only [hdest, and_false, if_false] at hpos
    omega
  · rw [hrec]
    intro hnot _
    have hdest : (timerVerdict now (s.timer t)).dest = .removed := by
      cases h : (timerVerdict now (s.timer t)).dest with
      | removed => rfl
      | filed l' =>
        rw [timerVerdict_active.2 l' h] at hnot
        cases hnot
      | fault => exact absurd (timerVerdict_dest_eq_fault_iff.mp h) (hs.info t)
    simp only [hdest, and_self, if_true] at hpos
    omega
  · rw [hrec]
    exact timerVerdict_info_ne_none (hs.info t)

theorem timerVisit_due_list {b : Band} (hb : b ≠ .due) (f' : Family) :
    (timerVisit now ⟨f, b⟩ c t s).1.list ⟨f', .due⟩ = s.list ⟨f', .due⟩ := by
  have hne : (⟨f', .due⟩ : ListId) ≠ ⟨f, b⟩ := fun h => hb (ListId.mk.inj h).2.symm
  rcases timerVisit_cases now ⟨f, b⟩ c t s with
    ⟨_, hlist, _⟩ | ⟨_, _, hlist, _⟩ | ⟨newlist, hdest, hlist, _⟩ | ⟨_, hlist, _⟩
  · rw [hlist, removeAt_list, Function.update_of_ne hne]
  · rw [hlist]
  · obtain ⟨_, _, _, hband⟩ := timerVerdict_dest hdest
    have hne' : (⟨f', .due⟩ : ListId) ≠ newlist := fun h => hband (h ▸ rfl)
    rw [hlist, removeAt_list, Function.update_of_ne hne, appendTimerToTlist_list,
      Function.update_of_ne hne']
  · rw [hlist]

omit [DecidableEq τ] in
/-- The condition carries over to a state whose due list holds no other running
timers, each in its old array and with its old record. -/
theorem SafeHandOver.of_entries (hs : s.SafeHandOver now f)
    (h : ∀ k i u, (s'.list ⟨f, .due⟩).entryAt k i = some u → (s'.timer u).active = .running →
      s'.timer u = s.timer u ∧ ∃ i', (s.list ⟨f, .due⟩).entryAt k i' = some u) :
    s'.SafeHandOver now f := by
  intro k i u info hu hrun hinfo hdue hcont
  obtain ⟨hrec, i', hu'⟩ := h k i u hu hrun
  rw [hrec] at hrun hinfo
  exact hs k i' u info hu' hrun hinfo hdue hcont

theorem SafeHandOver.timerVisit {clk : Int} {b : Band} {f' : Family} (hs : s.SafeHandOver clk f')
    (hacc : s.Accounted pending fun _ => False) (hb : b ≠ .due)
    (ht : (s.list ⟨f, b⟩).entryAt c.arr c.pos = some t) :
    (timerVisit now ⟨f, b⟩ c t s).1.SafeHandOver clk f' := by
  refine hs.of_entries fun k i u hu _ => ?_
  rw [timerVisit_due_list hb] at hu
  refine ⟨?_, i, hu⟩
  rw [timerVisit_timer, Function.update_of_ne]
  rintro rfl
  have hone : s.positions u ≤ 1 := Nat.le_of_eq (hacc.of_entry ht).1
  have heq := eq_of_positions_le_one hone (Chain.mem_of_entryAt ht) (Chain.mem_of_entryAt hu)
  exact hb (ListId.mk.inj heq).2

/-! ## Due lists -/

/-- A due list visit keeps every running timer in its array and its record. -/
theorem dueVisit_entries (hsafe : s.SafeHandOver now f)
    (ht : (s.list ⟨f, .due⟩).entryAt c.arr c.pos = some t) {f' : Family} {k i : Nat} {u : τ}
    (hu : ((dueVisit now ⟨f, .due⟩ c t s).1.list ⟨f', .due⟩).entryAt k i = some u)
    (hrun : ((dueVisit now ⟨f, .due⟩ c t s).1.timer u).active = .running) :
    (dueVisit now ⟨f, .due⟩ c t s).1.timer u = s.timer u ∧
      ∃ i', (s.list ⟨f', .due⟩).entryAt k i' = some u := by
  -- An entry of the list after a removal is an entry of its array before.
  have hremove : ∀ {s' : Sched τ},
      ((s'.removeAt ⟨f, .due⟩ c.arr c.pos).list ⟨f', .due⟩).entryAt k i = some u →
      ∃ i', (s'.list ⟨f', .due⟩).entryAt k i' = some u := by
    intro s' h
    rw [removeAt_list] at h
    by_cases hf : f' = f
    · subst hf
      rw [Function.update_self] at h
      exact Chain.exists_entryAt_of_removeAt h
    · rw [Function.update_of_ne (by simp [hf])] at h
      exact ⟨i, h⟩
  rcases dueVisit_cases now ⟨f, .due⟩ c t s with
    ⟨_, hv⟩ | ⟨_, _, hv⟩ | ⟨_, _, _, _, hv⟩ | ⟨info, hact, hinfo, hdue, htimer, hlist, _⟩
  · have hne : u ≠ t := by
      rintro rfl
      simp [hv] at hrun
    rw [hv] at hu
    exact ⟨dueVisit_timer_of_ne hne, hremove hu⟩
  · rw [hv] at hu
    exact ⟨by rw [hv], i, hu⟩
  · rw [hv] at hu
    exact ⟨by rw [hv]; rfl, i, hu⟩
  · have hne : u ≠ t := by
      rintro rfl
      simp [htimer] at hrun
    refine ⟨dueVisit_timer_of_ne hne, ?_⟩
    rw [hlist] at hu
    split_ifs at hu with hcont
    · obtain ⟨i', hu'⟩ := hremove hu
      obtain ⟨_, hdest⟩ := hsafe c.arr c.pos t info ht hact hinfo hdue hcont
      refine ⟨i', ?_⟩
      rw [hdest, appendTimerToTlist_list] at hu'
      by_cases hf : f' = f
      · subst hf
        rw [Function.update_self] at hu'
        exact (Chain.entryAt_append_inv hu').resolve_right hne
      · rwa [Function.update_of_ne (by simp [hf])] at hu'
    · exact hremove hu

/-- The invariant of a walk of the due list of `f` that stands at `c`. -/
structure DueWalk (pending : τ → Nat) (now tick : Int) (f : Family) (c : Cursor) (s : Sched τ) :
    Prop where
  accounted : s.Accounted pending fun t => (s.list ⟨f, .due⟩).Ahead c.arr c.pos t
  safe : ∀ f', s.SafeHandOver (clock now tick f') f'

variable {tick : Int}

theorem DueWalk.visit (hs : DueWalk pending now tick f c s)
    (ht : (s.list ⟨f, .due⟩).entryAt c.arr c.pos = some t) :
    DueWalk pending now tick f
      ((dueVisit (clock now tick f) ⟨f, .due⟩ c t s).2.advance c)
      (dueVisit (clock now tick f) ⟨f, .due⟩ c t s).1 where
  safe f' := (hs.safe f').of_entries fun _ _ _ hu hrun => dueVisit_entries (hs.safe f) ht hu hrun
  accounted := by
    obtain ⟨hone, hpend⟩ := hs.accounted.of_entry ht
    have hrem := positions_removeAt ht t
    rw [if_pos rfl] at hrem
    have hother : ∀ u, u ≠ t →
        (dueVisit (clock now tick f) ⟨f, .due⟩ c t s).1.timer u = s.timer u ∧
        (dueVisit (clock now tick f) ⟨f, .due⟩ c t s).1.positions u + pending u =
          s.positions u + pending u := fun u hu =>
      ⟨dueVisit_timer_of_ne hu, by rw [dueVisit_positions_of_ne ht hu]⟩
    rcases dueVisit_cases (clock now tick f) ⟨f, .due⟩ c t s with
      ⟨_, hv⟩ | ⟨_, hnone, _⟩ | ⟨_, hrun, _, _, hv⟩ |
      ⟨info, hrun, hinfo, hdue, htimer, hlist, _, hflow⟩
    · rw [hv] at hother ⊢
      dsimp only at hother ⊢
      -- A timer that is not running is deleted from its only place.
      have hpos : (s.deleteTimerByPos ⟨f, .due⟩ c t).positions t = 0 := by
        have hcongr : (s.deleteTimerByPos ⟨f, .due⟩ c t).positions t =
          (s.removeAt ⟨f, .due⟩ c.arr c.pos).positions t := rfl
        omega
      refine hs.accounted.update hother (fun u hu hahead => ?_) (by omega) (by simp)
        (fun _ _ => by omega) (by simpa using hs.accounted.info t)
      simpa [Flow.advance] using hahead.removeAt ht hu
    · exact absurd hnone (hs.accounted.info t)
    · rw [hv] at hother ⊢
      dsimp only at hother ⊢
      -- A timer that is not due stays where it is.
      have hpos : (s.touch t).positions t = s.positions t := rfl
      refine hs.accounted.update hother (fun u hu hahead => ?_) (by omega) (fun _ => by omega)
        (fun hnot => ?_) (hs.accounted.info t)
      · simpa [Flow.advance] using hahead.next ht hu
      · rw [touch_timer, hrun] at hnot
        cases hnot
    · -- A timer that is due is marked free, whether it is filed again or not.
      have hact : ((dueVisit (clock now tick f) ⟨f, .due⟩ c t s).1.timer t).active = .notUse := by
        simp [htimer]
      have hahead : ∀ u, u ≠ t → (s.list ⟨f, .due⟩).Ahead c.arr c.pos u →
          ((dueVisit (clock now tick f) ⟨f, .due⟩ c t s).1.list ⟨f, .due⟩).Ahead c.arr c.pos u := by
        intro u hu hahead
        rw [hlist]
        split_ifs with hcont
        · obtain ⟨_, hdest⟩ := hs.safe f c.arr c.pos t info ht hrun hinfo hdue hcont
          simpa [hdest] using (hahead.append t).removeAt (Chain.entryAt_append_of_some ht) hu
        · simpa using hahead.removeAt ht hu
      rw [hflow]
      refine hs.accounted.update hother hahead ?_ (fun h => ?_) (fun _ hlate => ?_)
        (by simp [htimer])
      · have hle := dueVisit_positions_le (clock now tick f) ht t
        omega
      · rw [hact] at h
        cases h
      · rw [positions_congr hlist]
        -- A timer with triggers left is filed ahead; any other is gone.
        split_ifs with hcont
        · obtain ⟨hhead, hdest⟩ := hs.safe f c.arr c.pos t info ht hrun hinfo hdue hcont
          refine absurd ?_ hlate
          rw [hlist, if_pos hcont, hdest, hhead]
          rw [hhead] at ht
          simpa [Flow.advance, hhead] using Chain.ahead_move_head ht t
        · omega

/-- A walk of a due list keeps the books. -/
theorem dueListSchedule_accounted {fuel : Nat} (hs : s.Accounted pending fun _ => False)
    (hsafe : ∀ f', s.SafeHandOver (clock now tick f') f')
    (h : dueListSchedule fuel (clock now tick f) ⟨f, .due⟩ s = some s') :
    s'.Accounted pending (fun _ => False) ∧ ∀ f', s'.SafeHandOver (clock now tick f') f' := by
  obtain ⟨⟨c', s₁⟩, hrun, rfl⟩ := Option.map_eq_some_iff.mp h
  have hinv := Loop.run_invariant (I := fun x => DueWalk pending now tick f x.1 x.2) ?_ hrun
    ⟨hs.mono fun _ h => h.elim, hsafe⟩
  · obtain ⟨hwalk, hexit⟩ := hinv
    refine ⟨hwalk.accounted.mono fun u hu => ?_, hwalk.safe⟩
    exact Chain.not_ahead_of_length_le (walkStep_eq_none hexit) hu
  · rintro ⟨c, s⟩ x hwalk hstep
    rcases walkStep_cases hstep with ⟨hend, rfl⟩ | ⟨t, ht, rfl⟩
    · exact ⟨hwalk.accounted.mono fun u hu => hu.nextArray hend, hwalk.safe⟩
    · exact hwalk.visit ht

theorem scheduleTimerAndTicker_accounted {fuel count : Nat}
    (hs : s.Accounted pending fun _ => False)
    (hsafe : ∀ f', s.SafeHandOver (clock now tick f') f')
    (h : scheduleTimerAndTicker fuel now tick count s = some s') :
    s'.Accounted pending fun _ => False := by
  refine (scheduleTimerAndTicker_invariant_of_walks
    (I := fun s => s.Accounted pending (fun _ => False) ∧
      ∀ f', s.SafeHandOver (clock now tick f') f') ?_ ?_ h ⟨hs, hsafe⟩).1
  · intro f s s' h hs
    exact dueListSchedule_accounted hs.1 hs.2 h
  · intro f b c t s hb ht hs
    exact ⟨hs.1.timerVisit ht, fun f' => (hs.2 f').timerVisit hs.1 hb ht⟩

/-! ## Tasks -/

/-- Handling a task keeps the books, unless it is the removal of a worker. -/
theorem Accounted.taskProc {task : ResTask τ} {tasks : List (ResTask τ)}
    (hs : s.Accounted (additions (task :: tasks)) fun _ => False)
    (htask : ∀ w, task ≠ .delWorker w) :
    (taskProc task s).Accounted (additions tasks) fun _ => False := by
  cases task with
  | addTimer u =>
    obtain ⟨info, hinfo⟩ := Option.ne_none_iff_exists'.mp (hs.info u)
    -- The addition moves from the queue to a list.
    have hsum : ∀ v, (s.appendTimerToRes u).positions v + additions tasks v =
        s.positions v + additions (.addTimer u :: tasks) v := by
      intro v
      rw [positions_congr (appendTimerToRes_list hinfo), positions_appendTimerToTlist,
        additions_cons_addTimer]
      omega
    exact hs.congr (appendTimerToRes_timer s u) hsum
  | delTimer u =>
    rw [additions_cons_of_ne _ (fun _ => by simp)] at hs
    rcases removeTimerFromRes_cases s u with ⟨htimer, hlist⟩ | ⟨l, c, hrem, htimer, hlist⟩
    · exact hs.congr htimer fun v => congrArg (· + additions tasks v) (positions_congr hlist v)
    · have hpos := positions_of_removeFirst hrem hlist
      have hu := hpos u
      have hle := hs.once u
      rw [if_pos rfl] at hu
      refine hs.update (t := u) (fun v hv => ⟨removeTimerFromRes_timer_of_ne hv, ?_⟩)
        (fun _ _ h => h) ?_ ?_ ?_ ?_
      · have hposv := hpos v
        rw [if_neg hv, Nat.add_zero] at hposv
        rw [Sched.taskProc, hposv]
      · simp only [Sched.taskProc]
        omega
      · intro hrun
        rw [Sched.taskProc, htimer, Function.update_self] at hrun
        cases hrun
      · intro _ _
        simp only [Sched.taskProc]
        omega
      · rw [Sched.taskProc, htimer, Function.update_self]
        exact hs.info u
  | addWorker w =>
    rwa [additions_cons_of_ne _ (fun _ => by simp)] at hs
  | delWorker w => exact absurd rfl (htask w)

end Sched

/-! ## Runs -/

namespace ResParam

/-- The books of the daemon. Workers are not closed in these runs. -/
structure Accounted (p : ResParam τ) : Prop where
  sched : p.sched.Accounted p.pending fun _ => False
  tasks : ∀ w, ResTask.delWorker w ∉ p.queue.entries

theorem init_accounted (info : τ → TimerInfo) (worker : τ → Nat) :
    (init info worker).Accounted := by
  have htotal : ∀ t, (init info worker).sched.positions t + (init info worker).pending t = 0 := by
    intro t
    rw [positions_init]
    rfl
  refine ⟨⟨fun t => ?_, fun t h => ?_, fun t _ _ => htotal t, fun t h => ?_⟩, fun w h => ?_⟩
  · rw [htotal]
    exact Nat.zero_le 1
  · cases h
  · cases h
  · cases h

variable {p p' : ResParam τ} {t : τ}

theorem Accounted.open_ (hp : p.Accounted) (hnot : (p.sched.timer t).active = .notUse)
    (hroom : p.queue.entries.length < resTasklistSize) :
    (p.openTimerResource false t).Accounted where
  sched := by
    have hqueue :
        (p.openTimerResource false t).queue.entries = p.queue.entries ++ [.addTimer t] := by
      simp [openTimerResource, setResourceTask, hroom]
    have hpend : ∀ u, (p.openTimerResource false t).pending u =
        p.pending u + if u = t then 1 else 0 := by
      intro u
      rw [pending, hqueue, additions_append_addTimer]
      rfl
    -- A free timer is neither listed nor queued, so the new task is the only one.
    have hzero := hp.sched.notUse t hnot id
    have hpos : ∀ u, (p.openTimerResource false t).sched.positions u = p.sched.positions u :=
      fun _ => rfl
    refine hp.sched.update (t := t) (fun u hu => ⟨?_, ?_⟩) (fun _ _ h => h) ?_ (fun _ => ?_)
      (fun h => ?_) ?_
    · exact Function.update_of_ne hu _ _
    · rw [hpos, hpend, if_neg hu, Nat.add_zero]
    · rw [hpos, hpend, if_pos rfl]
      omega
    · rw [hpos, hpend, if_pos rfl]
      omega
    · simp [openTimerResource] at h
    · simpa [openTimerResource] using hp.sched.info t
  tasks w := not_mem_setResourceTask (hp.tasks w) (by simp)

theorem Accounted.close {locked : Bool} (hp : p.Accounted) :
    (p.closeTimerResource locked t).Accounted where
  sched := by
    have hpend : (p.closeTimerResource locked t).pending = p.pending :=
      additions_setResourceTask_of_ne (fun _ => by simp) p.queue
    rw [hpend]
    refine hp.sched.update (t := t) (fun u hu => ⟨?_, rfl⟩) (fun _ _ h => h) (hp.sched.once t)
      (fun h => ?_) (fun h => ?_) ?_
    · exact Function.update_of_ne hu _ _
    · simp [closeTimerResource] at h
    · simp [closeTimerResource] at h
    · simpa [closeTimerResource] using hp.sched.info t
  tasks w := not_mem_setResourceTask (hp.tasks w) (by simp)

theorem Accounted.step {e : ResEvent τ} (hp : p.Accounted) (he : e.Accommodated p)
    (h : e.step p = some p') : p'.Accounted := by
  cases e with
  | write u info =>
    obtain ⟨_, _, rfl⟩ := Option.map_eq_some_iff.mp h
    refine ⟨hp.sched.update (t := u) (fun v hv => ⟨Function.update_of_ne hv _ _, rfl⟩)
      (fun _ _ h => h) (hp.sched.once u) (fun hrun => ?_) (fun hnot => ?_) (by simp), hp.tasks⟩
    · exact hp.sched.running u (by simpa using hrun)
    · exact hp.sched.notUse u (by simpa using hnot)
  | maintain locked u =>
    rcases maintainTimer_cases h with ⟨_, _, rfl⟩ | ⟨hopen, rfl⟩ | rfl
    · exact hp.close
    · obtain ⟨rfl, hroom⟩ := he hopen
      exact hp.open_ hopen.1 hroom
    · exact hp
  | tasks peeks =>
    cases h
    have hinv := drain_invariant Sched.taskProc
      (I := fun tasks (s : Sched τ) => s.Accounted (additions tasks) (fun _ => False) ∧
        ∀ w, ResTask.delWorker w ∉ tasks)
      (fun task tasks s hs => ⟨hs.1.taskProc fun w hw => hs.2 w (by simp [hw]),
        fun w hw => hs.2 w (List.mem_cons_of_mem _ hw)⟩) peeks p.queue p.sched ⟨hp.sched, hp.tasks⟩
    exact ⟨hinv.1, hinv.2⟩
  | schedule fuel now tick count =>
    obtain ⟨s, hs, rfl⟩ := Option.map_eq_some_iff.mp h
    exact ⟨Sched.scheduleTimerAndTicker_accounted hp.sched he hs, hp.tasks⟩

end ResParam

/-- In every run in which timers are opened with room in the queue and no timer is
left behind by the walk that hands it over, every running timer stands in the
lists exactly once or has exactly one addition queued, and not both. -/
theorem listed_or_pending_of_run {info : τ → TimerInfo} {worker : τ → Nat} {p : ResParam τ}
    (h : Run.Reachable ResEvent.step ResEvent.Accommodated (ResParam.init info worker) p)
    (t : τ) (hrun : (p.sched.timer t).active = .running) :
    (p.sched.positions t = 1 ∧ p.pending t = 0) ∨ (p.sched.positions t = 0 ∧ p.pending t = 1) := by
  have hinv : p.Accounted :=
    h.invariant (fun e p p' he hstep hp => ResParam.Accounted.step hp he hstep)
      (ResParam.init_accounted info worker)
  have hsum := hinv.sched.running t hrun
  omega

/-- 129 timers of one worker, opened in one maintenance pass. -/
def burst : List (ResEvent Nat) := (List.range 129).map (.maintain false)

theorem running_timer_lost_by_full_queue :
    ¬ ∀ (info : Nat → TimerInfo) (worker : Nat → Nat) (p : ResParam Nat),
      Run.Reachable ResEvent.step (fun _ _ => True) (ResParam.init info worker) p →
      ∀ t, (p.sched.timer t).active = .running →
        (p.sched.positions t = 1 ∧ p.pending t = 0) ∨
          (p.sched.positions t = 0 ∧ p.pending t = 1) := by
  intro h
  obtain ⟨p, hrun, hp⟩ := Run.exists_reachable_of_execute ResEvent.step
    (fun _ _ => True) burst (s := ResParam.init (fun _ => freshTimer 1) fun _ => 1)
    (p := fun p => decide ((p.sched.timer 128).active = .running ∧ p.sched.positions 128 = 0 ∧
      p.pending 128 = 0)) (by decide +kernel)
  obtain ⟨hact, hpos, hpend⟩ := of_decide_eq_true hp
  rcases h _ _ p hrun 128 hact with ⟨h1, _⟩ | ⟨_, h1⟩ <;> omega

/-- The daemon after one timer was opened. -/
def openedOne : ResParam Nat :=
  (ResParam.init (fun _ => freshTimer 2) fun _ => 1).openTimerResource false 0

theorem listed_or_pending_of_run_openedOne :
    (openedOne.sched.positions 0 = 1 ∧ openedOne.pending 0 = 0) ∨
      (openedOne.sched.positions 0 = 0 ∧ openedOne.pending 0 = 1) := by
  have hrun : Run.Reachable ResEvent.step ResEvent.Accommodated
      (ResParam.init (fun _ => freshTimer 2) fun _ => 1) openedOne := by
    refine Relation.ReflTransGen.single ⟨.maintain false 0, fun _ => ⟨rfl, by decide⟩, ?_⟩
    simp [ResEvent.step, ResParam.maintainTimer, ResParam.init, freshTimer, openedOne]
  exact listed_or_pending_of_run hrun 0 rfl

end LMiced
