import Mathlib

/-!
# The thread of a timer

`eal_timer_thread` of `eal/lmice_eal_time.c` calls the handler of a timer once per interval,
until the quit flag is set. The version for macOS sleeps until a target time; the two versions
for Windows poll a clock.

* `nextWait_toNat`: the unsigned delay behind the handler, with its wrap corrected, is the
  truncated difference;
* `timer_thread_spacing`: the targets on macOS lie at least one interval apart, and no call
  leaves the slot between two targets. On Windows the calls themselves lie more than one
  interval apart;
* `late_wake_comes_too_close`: on macOS a call that wakes up late has its successor at the
  next target all the same, within less than one interval.
-/

namespace LMiced.TimerThread

/-! ## macOS -/

/-- What one turn of the loop reads: the flag and the clock at its head, the clock when
`mach_wait_until` returns and the handler is called, and the clock behind the handler. -/
structure Turn where
  quitFlag : Int64
  head : UInt64
  woken : UInt64
  done : UInt64
deriving DecidableEq, Repr

/-- A turn with the target it waits for. -/
structure Wake where
  turn : Turn
  now : UInt64
deriving DecidableEq, Repr

/-- `time_to_wait` behind the handler. -/
def nextWait (interval now done : UInt64) : UInt64 :=
  let timeToWait := now + interval - done
  if interval < timeToWait then 0 else timeToWait

/-- The `for` loop. -/
def machLoop (interval : UInt64) : UInt64 → List Turn → List Wake
  | _, [] => []
  | timeToWait, turn :: turns =>
    if turn.quitFlag = 1 then []
    else
      let now := turn.head + timeToWait
      ⟨turn, now⟩ :: machLoop interval (nextWait interval now turn.done) turns

/-- `interval * 100llu * factor`. -/
def machInterval (interval factor : UInt64) : UInt64 := interval * 100 * factor

/-- `eal_timer_thread` on macOS, for the interval of the context in units of 100
nanoseconds and the factor of `eal_time_factor`. -/
def machTimerThread (interval factor : UInt64) (turns : List Turn) : List Wake :=
  machLoop (machInterval interval factor) (machInterval interval factor) turns

/-! ## Windows -/

/-- What one turn of the loop reads: the flag and the clock, `none` when
`QueryPerformanceCounter` fails. -/
structure Poll where
  quitFlag : Int64
  now : Option Int
deriving DecidableEq, Repr

/-- What one turn of the loop does. -/
inductive Act where
  | handler (now : Int)
  | sleep (ms : UInt32)
deriving DecidableEq, Repr

/-- The `for` loop of both versions. -/
def pollLoop (interval countPerMs : Int) : Int → List Poll → List Act
  | _, [] => []
  | timeToWait, poll :: polls =>
    if poll.quitFlag = 1 then []
    else
      match poll.now with
      | none => []
      | some now =>
        if timeToWait < now then
          .handler now :: pollLoop interval countPerMs (now + interval) polls
        else if now + countPerMs < timeToWait then
          .sleep (UInt32.ofInt ((timeToWait - now).tdiv countPerMs)) ::
            pollLoop interval countPerMs timeToWait polls
        else .sleep 0 :: pollLoop interval countPerMs timeToWait polls

/-- `eal_timer_thread` with `USE_QUERY_PERFORMANCE_COUNTER`. `interval` and `countPerMs` are in
counts, as they come out of the conversion by way of `double`. -/
def counterTimerThread (interval countPerMs start : Int) (polls : List Poll) : List Act :=
  pollLoop interval countPerMs (start + interval) polls

/-- `eal_timer_thread` with `GetSystemTimeAsFileTime`, which does not fail. -/
def fileTimeTimerThread (interval start : Int) (polls : List (Int64 × Int)) : List Act :=
  pollLoop interval 10000 (start + interval) (polls.map fun poll => ⟨poll.1, some poll.2⟩)

/-- The readings of the clock that lead to a call of the handler. -/
def calls (acts : List Act) : List Int :=
  acts.filterMap fun
    | .handler now => some now
    | .sleep _ => none

/-! ## The clock -/

/-- The clock in one turn does not go back, the wait ends no earlier than its target, and
neither `mach_absolute_time() + time_to_wait` nor `now + interval` wraps. -/
structure Timely (interval : UInt64) (wake : Wake) : Prop where
  head_le_now : wake.turn.head ≤ wake.now
  now_le_woken : wake.now ≤ wake.turn.woken
  woken_le_done : wake.turn.woken ≤ wake.turn.done
  target_lt : wake.now.toNat + interval.toNat < 2 ^ 64

/-- The clock goes back in no turn and between no two turns. -/
def Clocked (interval : UInt64) (wakes : List Wake) : Prop :=
  (∀ wake ∈ wakes, Timely interval wake) ∧
    wakes.IsChain fun wake wake' => wake.turn.done ≤ wake'.turn.head

/-! ## The delay behind the handler -/

/-- A handler that overruns makes the difference wrap to a value above the interval, and only
such a handler does. -/
theorem nextWait_toNat {interval now done : UInt64} (hnow : now ≤ done)
    (htarget : now.toNat + interval.toNat < 2 ^ 64) :
    (nextWait interval now done).toNat = now.toNat + interval.toNat - done.toNat := by
  have hle : now.toNat ≤ done.toNat := hnow
  have hdone := done.toNat_lt
  have hsub : (now + interval - done).toNat =
      (2 ^ 64 - done.toNat + (now.toNat + interval.toNat)) % 2 ^ 64 := by
    rw [UInt64.toNat_sub, UInt64.toNat_add, Nat.mod_eq_of_lt htarget]
  show (if interval < now + interval - done then (0 : UInt64) else _).toNat = _
  split
  · next h =>
    have hlt : interval.toNat < (now + interval - done).toNat := h
    show 0 = _
    omega
  · next h =>
    have hge : (now + interval - done).toNat ≤ interval.toNat := UInt64.not_lt.mp h
    omega

theorem toNat_add_of_le {a b : UInt64} (h : a ≤ a + b) : (a + b).toNat = a.toNat + b.toNat := by
  have hle : a.toNat ≤ (a + b).toNat := h
  have ha := a.toNat_lt
  have hb := b.toNat_lt
  rw [UInt64.toNat_add] at hle ⊢
  omega

/-! ## Two turns in succession -/

/-- Two turns in succession: the second target lies one interval behind the first or later,
exactly one interval when the handler is done by then and the two readings around the end of
the loop are the same. The first call lies between the targets, and the second comes too
early by no more than the first was late. -/
structure Spaced (interval : UInt64) (wake wake' : Wake) : Prop where
  target : wake.now.toNat + interval.toNat ≤ wake'.now.toNat
  no_drift : wake.turn.done.toNat ≤ wake.now.toNat + interval.toNat →
    wake'.turn.head = wake.turn.done → wake'.now.toNat = wake.now.toNat + interval.toNat
  slot : wake.now ≤ wake.turn.woken ∧ wake.turn.woken ≤ wake'.now
  start : wake.turn.woken.toNat + interval.toNat ≤
    wake'.turn.woken.toNat + (wake.turn.woken.toNat - wake.now.toNat)

/-- The target of a turn, from the wait that the turn before it leaves. -/
def Follows (interval : UInt64) (wake wake' : Wake) : Prop :=
  wake'.now = wake'.turn.head + nextWait interval wake.now wake.turn.done

theorem spaced_of_follows {interval : UInt64} {wake wake' : Wake} (h : Timely interval wake)
    (h' : Timely interval wake') (hclock : wake.turn.done ≤ wake'.turn.head)
    (hfollows : Follows interval wake wake') : Spaced interval wake wake' := by
  have hwait := nextWait_toNat (UInt64.le_trans h.now_le_woken h.woken_le_done) h.target_lt
  have hnow : wake'.now.toNat = wake'.turn.head.toNat +
      (wake.now.toNat + interval.toNat - wake.turn.done.toNat) := by
    have hle := h'.head_le_now
    rw [hfollows] at hle ⊢
    rw [toNat_add_of_le hle, hwait]
  have hwoken : wake.now.toNat ≤ wake.turn.woken.toNat := h.now_le_woken
  have hdone : wake.turn.woken.toNat ≤ wake.turn.done.toNat := h.woken_le_done
  have hhead : wake.turn.done.toNat ≤ wake'.turn.head.toNat := hclock
  have hwoken' : wake'.now.toNat ≤ wake'.turn.woken.toNat := h'.now_le_woken
  refine ⟨by omega, ?_, ⟨h.now_le_woken, ?_⟩, by omega⟩
  · intro hin heq
    rw [heq] at hnow
    omega
  · show wake.turn.woken.toNat ≤ wake'.now.toNat
    omega

/-! ## Whole runs -/

theorem now_of_mem_head? {interval timeToWait : UInt64} {turns : List Turn} {wake : Wake}
    (h : wake ∈ (machLoop interval timeToWait turns).head?) :
    wake.now = wake.turn.head + timeToWait := by
  cases turns with
  | nil => cases h
  | cons turn turns =>
    unfold machLoop at h
    split at h
    · cases h
    · obtain rfl := Option.mem_some_iff.mp h
      rfl

theorem machLoop_follows (interval timeToWait : UInt64) (turns : List Turn) :
    (machLoop interval timeToWait turns).IsChain (Follows interval) := by
  induction turns generalizing timeToWait with
  | nil => exact .nil
  | cons turn turns ih =>
    unfold machLoop
    split
    · exact .nil
    · exact List.isChain_cons.mpr ⟨fun _ h => now_of_mem_head? h, ih _⟩

theorem machTimerThread_spaced {interval factor : UInt64} {turns : List Turn}
    (h : Clocked (machInterval interval factor) (machTimerThread interval factor turns)) :
    (machTimerThread interval factor turns).IsChain (Spaced (machInterval interval factor)) := by
  have hfollows : (machTimerThread interval factor turns).IsChain _ :=
    machLoop_follows (machInterval interval factor) (machInterval interval factor) turns
  refine (List.isChain_isInfix _).imp fun wake wake' hin => ?_
  have hmem : wake ∈ [wake, wake'] := List.mem_cons_self
  have hmem' : wake' ∈ [wake, wake'] := List.mem_cons_of_mem _ List.mem_cons_self
  have hclock := List.IsChain.infix h.2 hin
  have hnext := List.IsChain.infix hfollows hin
  rw [List.isChain_pair] at hclock hnext
  exact spaced_of_follows (h.1 wake (hin.subset hmem)) (h.1 wake' (hin.subset hmem')) hclock hnext

/-- A call and the one after the next are one interval apart: a target lies between them. -/
theorem Spaced.trans {interval : UInt64} {wake wake' wake'' : Wake}
    (h : Spaced interval wake wake') (h' : Spaced interval wake' wake'')
    (hwoken : wake''.now ≤ wake''.turn.woken) :
    wake.turn.woken.toNat + interval.toNat ≤ wake''.turn.woken.toNat := by
  have hslot : wake.turn.woken.toNat ≤ wake'.now.toNat := h.slot.2
  have htarget := h'.target
  have hle : wake''.now.toNat ≤ wake''.turn.woken.toNat := hwoken
  omega

/-- The reading behind a call is compared with `now + interval` of that call. -/
theorem pollLoop_calls (interval countPerMs timeToWait : Int) (polls : List Poll) :
    ((timeToWait - interval) :: calls (pollLoop interval countPerMs timeToWait polls)).IsChain
      fun now now' => now + interval < now' := by
  induction polls generalizing timeToWait with
  | nil => exact .singleton _
  | cons poll polls ih =>
    unfold pollLoop
    split
    · exact .singleton _
    · split
      · exact .singleton _
      · next now _ =>
        split
        · next hlt =>
          have htail := ih (now + interval)
          rw [Int.add_sub_cancel] at htail
          refine List.isChain_cons_cons.mpr ⟨?_, htail⟩
          rwa [Int.sub_add_cancel]
        · split
          · exact ih timeToWait
          · exact ih timeToWait

/-- **The targets on macOS lie one interval apart or more, without a drift as long as the
handler is in time. A call lies in the slot between its target and the next one, so it comes
too close to its successor by no more than it is late, and is one interval away from the call
after that. On Windows the readings that lead to two calls in succession lie more than one
interval apart.** -/
theorem timer_thread_spacing {interval factor : UInt64} {turns : List Turn}
    (h : Clocked (machInterval interval factor) (machTimerThread interval factor turns)) :
    (machTimerThread interval factor turns).IsChain (Spaced (machInterval interval factor)) ∧
      (∀ wake wake' wake'', [wake, wake', wake''] <:+: machTimerThread interval factor turns →
        wake.turn.woken.toNat + (machInterval interval factor).toNat ≤
          wake''.turn.woken.toNat) ∧
      (∀ (interval countPerMs start : Int) (polls : List Poll),
        (calls (counterTimerThread interval countPerMs start polls)).IsChain
          fun now now' => now + interval < now') ∧
      ∀ (interval start : Int) (polls : List (Int64 × Int)),
        (calls (fileTimeTimerThread interval start polls)).IsChain
          fun now now' => now + interval < now' := by
  have hspaced := machTimerThread_spaced h
  refine ⟨hspaced, ?_, ?_, ?_⟩
  · intro wake wake' wake'' hin
    obtain ⟨hfirst, hrest⟩ := List.isChain_cons_cons.mp <| List.IsChain.infix hspaced hin
    have hmem : wake'' ∈ [wake, wake', wake''] := by simp
    exact hfirst.trans (List.isChain_pair.mp hrest) (h.1 wake'' (hin.subset hmem)).now_le_woken
  · intro interval countPerMs start polls
    exact (pollLoop_calls interval countPerMs (start + interval) polls).tail
  · intro interval start polls
    exact (pollLoop_calls interval 10000 (start + interval) _).tail

/-- An interval of 100 ticks, and a first call that wakes up 50 ticks late. -/
def lateTurns : List Turn := [⟨0, 0, 150, 150⟩, ⟨0, 150, 200, 200⟩]

theorem lateTurns_clocked : Clocked (machInterval 1 1) (machTimerThread 1 1 lateTurns) := by
  have hwakes : machTimerThread 1 1 lateTurns = lateTurns.zipWith Wake.mk [100, 200] := by decide
  rw [hwakes]
  refine ⟨?_, by decide⟩
  intro wake hmem
  obtain rfl | rfl := List.mem_pair.mp hmem
  · exact ⟨by decide, by decide, by decide, by decide⟩
  · exact ⟨by decide, by decide, by decide, by decide⟩

theorem timer_thread_spacing_late :
    (machTimerThread 1 1 lateTurns).IsChain (Spaced (machInterval 1 1)) :=
  (timer_thread_spacing lateTurns_clocked).1

/-- The second call comes 50 ticks behind the first. -/
theorem late_wake_comes_too_close :
    ¬ ∀ (interval factor : UInt64) (turns : List Turn),
      Clocked (machInterval interval factor) (machTimerThread interval factor turns) →
      ∀ wake wake', [wake, wake'] <:+: machTimerThread interval factor turns →
        wake.turn.woken.toNat + (machInterval interval factor).toNat ≤
          wake'.turn.woken.toNat := by
  intro h
  have hle := h 1 1 lateTurns lateTurns_clocked ⟨⟨0, 0, 150, 150⟩, 100⟩ ⟨⟨0, 150, 200, 200⟩, 200⟩
    (by decide)
  revert hle
  decide

end LMiced.TimerThread
