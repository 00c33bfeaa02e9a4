import Mathlib

/-!
# System time and tick time

`update_time_and_tick` of `timer/timer_system_time.c` is called once per tick. On every
32nd tick it takes the system time from the operating system, and on the others it adds
the delay of the timer to it. The tick time is the simulation time; it runs at
`tick_rate` ten-thousandths of the system time once `tick_zero_time` is set.

Times are in units of 100 nanoseconds. They are integers here: a 64-bit overflow of a
signed time is not defined in C.

* `systemTime_succ`: what one tick does to the system time, by the number of the tick;
* `system_time_monotone_iff`: the runs in which the system time never goes back. The
  delay is in units of 100 nanoseconds, and the code adds it as if it were in
  milliseconds, so the second resynchronisation of a run sets the time back;
* `tick_time_proportional_iff`: the runs in which the tick time keeps its rate. A
  resynchronising tick leaves the division by 10000 out.
-/

namespace LMiced

/-! ## The code -/

/-- `lm_time_t`. -/
structure LmTime where
  systemTime : Int
  tickRate : Int
  tickTime : Int
  tickZeroTime : Int
deriving DecidableEq, Repr

/-- `lm_time_param_t`, as far as a tick reads and writes it. -/
structure TimeParam where
  pt : LmTime
  wTimerDelay : UInt64
  count : UInt64
deriving DecidableEq, Repr

/-- `(pm->count & 0x1f) == 0`: the system time is read from the operating system. -/
def TimeParam.resyncs (pm : TimeParam) : Bool := pm.count &&& 0x1f = 0

/-- `update_time_and_tick`. `reading` is what `get_system_time` stores. -/
def updateTimeAndTick (reading : Int) (pm : TimeParam) : TimeParam :=
  let pt := pm.pt
  let pt' :=
    if pm.resyncs then
      let btime := pt.systemTime
      { pt with
        systemTime := reading
        tickTime :=
          if pt.tickZeroTime ≠ 0 then pt.tickTime + pt.tickRate * (reading - btime)
          else pt.tickTime }
    else
      let delay := pm.wTimerDelay.toInt64.toInt
      { pt with
        systemTime := pt.systemTime + 10000 * delay
        tickTime :=
          if pt.tickZeroTime ≠ 0 then pt.tickTime + pt.tickRate * delay else pt.tickTime }
  { pm with pt := pt', count := pm.count + 1 }

/-- The systems with a `create_time_thread` that starts the timer with
`eal_timer_create2`. -/
inductive TimePlatform
  | windows
  | apple
deriving DecidableEq, Repr

/-- The delay that `create_time_thread` sets. It is also the interval that is handed to
`eal_timer_create2`, in units of 100 nanoseconds. -/
def createTimeThread : TimePlatform → UInt64
  | .windows => 20000
  | .apple => 10000

/-- The ticks of a run, with what `get_system_time` stores in each of them. -/
def ticks (readings : List Int) (pm : TimeParam) : TimeParam :=
  readings.foldl (fun pm reading => updateTimeAndTick reading pm) pm

/-- The readings of a clock that shows `first` at the first of `n` ticks and goes on by
the interval from tick to tick. -/
def steadyReadings (first interval : Int) (n : Nat) : List Int :=
  (List.range n).map fun k => first + k * interval

/-! ## One tick -/

theorem resyncs_iff (pm : TimeParam) : pm.resyncs = true ↔ pm.count.toNat % 32 = 0 := by
  have hand : (pm.count &&& 0x1f).toNat = pm.count.toNat % 32 := by
    have hmod : pm.count.toNat &&& (2 ^ 5 - 1) = pm.count.toNat % 2 ^ 5 :=
      Nat.and_two_pow_sub_one_eq_mod _ 5
    simpa [UInt64.toNat_and] using hmod
  rw [TimeParam.resyncs, decide_eq_true_eq, ← hand, ← UInt64.toNat_inj]
  rfl

@[simp] theorem updateTimeAndTick_count (reading : Int) (pm : TimeParam) :
    (updateTimeAndTick reading pm).count = pm.count + 1 := rfl

@[simp] theorem updateTimeAndTick_wTimerDelay (reading : Int) (pm : TimeParam) :
    (updateTimeAndTick reading pm).wTimerDelay = pm.wTimerDelay := rfl

theorem updateTimeAndTick_systemTime (reading : Int) (pm : TimeParam) :
    (updateTimeAndTick reading pm).pt.systemTime =
      if pm.resyncs then reading else pm.pt.systemTime + 10000 * pm.wTimerDelay.toInt64.toInt := by
  unfold updateTimeAndTick
  split <;> rfl

@[simp] theorem updateTimeAndTick_tickRate (reading : Int) (pm : TimeParam) :
    (updateTimeAndTick reading pm).pt.tickRate = pm.pt.tickRate := by
  unfold updateTimeAndTick
  split <;> rfl

@[simp] theorem updateTimeAndTick_tickZeroTime (reading : Int) (pm : TimeParam) :
    (updateTimeAndTick reading pm).pt.tickZeroTime = pm.pt.tickZeroTime := by
  unfold updateTimeAndTick
  split <;> rfl

/-- The tick time gains the rate times the delay, and the rate times the whole change of
the system time when that is read from the operating system. -/
theorem updateTimeAndTick_tickTime (reading : Int) {pm : TimeParam}
    (hzero : pm.pt.tickZeroTime ≠ 0) :
    (updateTimeAndTick reading pm).pt.tickTime = pm.pt.tickTime + pm.pt.tickRate *
      if pm.resyncs then reading - pm.pt.systemTime else pm.wTimerDelay.toInt64.toInt := by
  unfold updateTimeAndTick
  split <;> simp [hzero]

/-! ## The system time of a run -/

/-- The ticks before the first one that resynchronises. -/
def untilResync (count : UInt64) : Nat := (32 - count.toNat % 32) % 32

theorem ticks_steadyReadings_succ (first interval : Int) (k : Nat) (pm : TimeParam) :
    ticks (steadyReadings first interval (k + 1)) pm =
      updateTimeAndTick (first + k * interval) (ticks (steadyReadings first interval k) pm) := by
  simp [ticks, steadyReadings, List.range_succ]

theorem ticks_wTimerDelay (readings : List Int) (pm : TimeParam) :
    (ticks readings pm).wTimerDelay = pm.wTimerDelay := by
  induction readings generalizing pm with
  | nil => rfl
  | cons reading readings ih => exact ih (updateTimeAndTick reading pm)

/-- The counter counts the ticks, also when it overflows: its range is a multiple of 32. -/
theorem ticks_count_mod (first interval : Int) (k : Nat) (pm : TimeParam) :
    (ticks (steadyReadings first interval k) pm).count.toNat % 32 =
      (pm.count.toNat + k) % 32 := by
  induction k with
  | zero => rfl
  | succ k ih =>
    rw [ticks_steadyReadings_succ, updateTimeAndTick_count, UInt64.toNat_add,
      Nat.mod_mod_of_dvd _ (by decide : 32 ∣ 2 ^ 64), UInt64.toNat_one]
    omega

section SystemTime

variable (first interval : Int) (pm : TimeParam)

/-- The system time before tick `k`. -/
def systemTimeAt (k : Nat) : Int := (ticks (steadyReadings first interval k) pm).pt.systemTime

theorem systemTime_succ (k : Nat) :
    systemTimeAt first interval pm (k + 1) =
      if (pm.count.toNat + k) % 32 = 0 then first + k * interval
      else systemTimeAt first interval pm k + 10000 * pm.wTimerDelay.toInt64.toInt := by
  have hresyncs := resyncs_iff (ticks (steadyReadings first interval k) pm)
  rw [ticks_count_mod] at hresyncs
  rw [systemTimeAt, ticks_steadyReadings_succ, updateTimeAndTick_systemTime, ticks_wTimerDelay]
  exact if_congr hresyncs rfl rfl

/-- Up to the first resynchronisation the delays add up. -/
theorem systemTime_of_le {k : Nat} (hk : k ≤ untilResync pm.count) :
    systemTimeAt first interval pm k =
      pm.pt.systemTime + k * (10000 * pm.wTimerDelay.toInt64.toInt) := by
  induction k with
  | zero => simp [systemTimeAt, ticks, steadyReadings]
  | succ k ih =>
    have hne : (pm.count.toNat + k) % 32 ≠ 0 := by
      unfold untilResync at hk
      omega
    rw [systemTime_succ, if_neg hne, ih (by omega)]
    push_cast
    ring

/-- From the first resynchronisation to the second they add up to its reading. -/
theorem systemTime_after {j : Nat} (hj : j < 32) :
    systemTimeAt first interval pm (untilResync pm.count + 1 + j) =
      first + untilResync pm.count * interval + j * (10000 * pm.wTimerDelay.toInt64.toInt) := by
  induction j with
  | zero =>
    have hzero : (pm.count.toNat + untilResync pm.count) % 32 = 0 := by
      unfold untilResync
      omega
    rw [Nat.add_zero, systemTime_succ, if_pos hzero]
    simp
  | succ j ih =>
    have hne : (pm.count.toNat + (untilResync pm.count + 1 + j)) % 32 ≠ 0 := by
      unfold untilResync
      omega
    rw [← Nat.add_assoc, systemTime_succ, if_neg hne, ih (by omega)]
    push_cast
    ring

/-- A tick sets the time back only when it resynchronises. -/
theorem systemTime_le_succ_iff (hdelay : 0 < pm.wTimerDelay.toInt64.toInt) (k : Nat) :
    systemTimeAt first interval pm k ≤ systemTimeAt first interval pm (k + 1) ↔
      ((pm.count.toNat + k) % 32 = 0 →
        systemTimeAt first interval pm k ≤ first + k * interval) := by
  rw [systemTime_succ]
  split_ifs with hresync
  · exact ⟨fun h _ => h, fun h => h hresync⟩
  · exact iff_of_true (by omega) (absurd · hresync)

/-- The second resynchronisation sets the time back: 31 delays of 10000 intervals are more
than 32 intervals. -/
theorem systemTime_before_second_resync (hpos : 0 < interval)
    (hdelay : pm.wTimerDelay.toInt64.toInt = interval) :
    first + (untilResync pm.count + 32 : Nat) * interval <
      systemTimeAt first interval pm (untilResync pm.count + 32) := by
  have hafter := systemTime_after first interval pm (j := 31) (by decide)
  rw [Nat.add_assoc] at hafter
  rw [hafter, hdelay]
  push_cast
  linarith

end SystemTime

/-- The system time does not go back in a run of `n` ticks with a steady clock, if and only
if the run ends before its first resynchronisation, or it ends before the second one
and the first one does not set the time back. -/
theorem system_time_monotone_iff (platform : TimePlatform) (pt : LmTime) (count : UInt64)
    (first : Int) (n : Nat) :
    let delay := createTimeThread platform
    let interval := delay.toInt64.toInt
    (∀ k < n, systemTimeAt first interval ⟨pt, delay, count⟩ k ≤
      systemTimeAt first interval ⟨pt, delay, count⟩ (k + 1)) ↔
      n ≤ untilResync count ∨
        (n ≤ untilResync count + 32 ∧
          pt.systemTime + untilResync count * (10000 * interval) ≤
            first + untilResync count * interval) := by
  intro delay interval
  have hpos : 0 < interval := by
    subst interval delay
    cases platform <;> decide
  have hzero : (count.toNat + untilResync count) % 32 = 0 := by
    unfold untilResync
    omega
  have hbefore := systemTime_of_le first interval ⟨pt, delay, count⟩ (Nat.le_refl _)
  have hlater := systemTime_before_second_resync first interval ⟨pt, delay, count⟩ hpos rfl
  have hticks := systemTime_le_succ_iff first interval ⟨pt, delay, count⟩ hpos
  constructor
  · intro h
    by_cases hn : n ≤ untilResync count
    · exact Or.inl hn
    · have hfirst := (hticks _).mp (h (untilResync count) (by omega)) hzero
      rw [hbefore] at hfirst
      refine Or.inr ⟨?_, hfirst⟩
      by_contra hlong
      have hagain : (count.toNat + (untilResync count + 32)) % 32 = 0 := by omega
      have hsecond := (hticks _).mp (h (untilResync count + 32) (by omega)) hagain
      exact absurd hsecond (Int.not_le.mpr hlater)
  · intro h k hk
    refine (hticks k).mpr fun hresync => ?_
    have hle : n ≤ untilResync count + 32 := by omega
    have hresync' : (count.toNat + k) % 32 = 0 := hresync
    obtain rfl : k = untilResync count := by
      unfold untilResync at hle ⊢
      omega
    rw [hbefore]
    exact (h.resolve_left (by omega)).2

/-- From a start with the counter 0, the 33rd tick sets the time back. -/
theorem system_time_goes_back :
    ¬ ∀ (platform : TimePlatform) (pt : LmTime) (count : UInt64) (first : Int) (n : Nat),
      let delay := createTimeThread platform
      let interval := delay.toInt64.toInt
      ∀ k < n, systemTimeAt first interval ⟨pt, delay, count⟩ k ≤
        systemTimeAt first interval ⟨pt, delay, count⟩ (k + 1) := by
  intro h
  exact absurd (h .apple ⟨0, 10000, 0, 0⟩ 0 1 33 32 (by decide)) (by decide +kernel)

/-! ## The tick time of a run -/

/-- The tick time has gained `tick_rate` ten-thousandths of what the system time has. -/
def Proportional (pm pm' : TimeParam) : Prop :=
  10000 * (pm'.pt.tickTime - pm.pt.tickTime) =
    pm.pt.tickRate * (pm'.pt.systemTime - pm.pt.systemTime)

/-- Every reading that is taken finds the system time where it is. -/
def InStep : List Int → TimeParam → Prop
  | [], _ => True
  | reading :: readings, pm =>
    (pm.resyncs = true → reading = pm.pt.systemTime) ∧
      InStep readings (updateTimeAndTick reading pm)

/-- One tick keeps the rate, unless it resynchronises and the rate and the change of the
system time are not zero. -/
theorem proportional_updateTimeAndTick_iff (reading : Int) {pm : TimeParam}
    (hzero : pm.pt.tickZeroTime ≠ 0) :
    Proportional pm (updateTimeAndTick reading pm) ↔
      pm.pt.tickRate = 0 ∨ (pm.resyncs = true → reading = pm.pt.systemTime) := by
  unfold Proportional
  rw [updateTimeAndTick_tickTime reading hzero, updateTimeAndTick_systemTime]
  cases hresyncs : pm.resyncs with
  | false =>
    simp only [Bool.false_eq_true, if_false, false_implies, or_true, iff_true]
    ring
  | true =>
    simp only [if_true, true_implies]
    have hgain : 10000 * (pm.pt.tickTime + pm.pt.tickRate * (reading - pm.pt.systemTime) -
        pm.pt.tickTime) = pm.pt.tickRate * (reading - pm.pt.systemTime) +
          9999 * (pm.pt.tickRate * (reading - pm.pt.systemTime)) := by ring
    rw [hgain, add_eq_left, mul_eq_zero, mul_eq_zero, sub_eq_zero]
    simp

theorem Proportional.refl (pm : TimeParam) : Proportional pm pm := by
  simp [Proportional]

/-- Behind a tick that keeps the rate, the run keeps the rate if its rest does. -/
theorem proportional_iff_of_tick {reading : Int} {pm pm' : TimeParam}
    (h : Proportional pm (updateTimeAndTick reading pm)) :
    Proportional pm pm' ↔ Proportional (updateTimeAndTick reading pm) pm' := by
  unfold Proportional at h ⊢
  rw [updateTimeAndTick_tickRate]
  constructor
  · intro h'
    linarith
  · intro h'
    linarith

/-- The tick time keeps its rate all through a run, if and only if the rate is zero or
every resynchronisation finds the system time where it is. -/
theorem tick_time_proportional_iff {pm : TimeParam} (hzero : pm.pt.tickZeroTime ≠ 0)
    (readings : List Int) :
    (∀ passed, passed <+: readings → Proportional pm (ticks passed pm)) ↔
      pm.pt.tickRate = 0 ∨ InStep readings pm := by
  induction readings generalizing pm with
  | nil =>
    refine iff_of_true (fun passed hpassed => ?_) (Or.inr trivial)
    obtain rfl := List.prefix_nil.mp hpassed
    exact Proportional.refl pm
  | cons reading readings ih =>
    have hrest := @ih (updateTimeAndTick reading pm) (by simpa using hzero)
    rw [updateTimeAndTick_tickRate] at hrest
    have htick := proportional_updateTimeAndTick_iff reading hzero
    constructor
    · intro h
      have hfirst : Proportional pm (updateTimeAndTick reading pm) :=
        h [reading] (by simp)
      have hlater := hrest.mp fun passed hpassed =>
        (proportional_iff_of_tick hfirst).mp (h (reading :: passed) (by simpa using hpassed))
      rcases htick.mp hfirst with hrate | hstep
      · exact Or.inl hrate
      · exact hlater.imp_right fun hlater => ⟨hstep, hlater⟩
    · intro h passed hpassed
      have hfirst := htick.mpr (h.imp_right And.left)
      have hlater := hrest.mpr (h.imp_right And.right)
      cases passed with
      | nil => exact Proportional.refl pm
      | cons reading' passed =>
        obtain ⟨rfl, htail⟩ := List.cons_prefix_cons.mp hpassed
        exact (proportional_iff_of_tick hfirst).mpr (hlater passed htail)

/-- A run of two ticks, of which the first reads the system time that is already there. -/
theorem tick_time_proportional_iff_inStep :
    Proportional ⟨⟨5, 20000, 0, 1⟩, 10, 0⟩ (ticks [5, 15] ⟨⟨5, 20000, 0, 1⟩, 10, 0⟩) := by
  have hstep : InStep [5, 15] ⟨⟨5, 20000, 0, 1⟩, 10, 0⟩ :=
    ⟨fun _ => rfl, by simp [InStep, resyncs_iff]⟩
  exact (tick_time_proportional_iff (by decide) [5, 15]).mpr (Or.inr hstep) [5, 15]
    List.prefix_rfl

/-- At the rate 1:1 a resynchronisation by one unit moves the tick time by 10000 units. -/
theorem tick_time_jumps :
    ¬ ∀ (pm : TimeParam) (readings : List Int), pm.pt.tickZeroTime ≠ 0 →
      ∀ passed, passed <+: readings → Proportional pm (ticks passed pm) := by
  intro h
  have hone := h ⟨⟨0, 10000, 0, 1⟩, 10000, 0⟩ [1] (by decide) [1] (by simp)
  exact absurd hone (by unfold Proportional; decide)

end LMiced
