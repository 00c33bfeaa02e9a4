import LMiced.Lib.Critical

/-!
# The spin lock

The lock of `eal/lmice_eal_spinlock.c`, a word of 64 bits that is 0 when it is free. All
functions with a critical section take it, `eal_spin_lock` until it succeeds and
`eal_spin_trylock` for a limited number of times.

* `trylock_returns_iff`: whatever the other threads do, `eal_spin_trylock` returns, with 0 if
  and only if one of its first 200000000 attempts finds the lock free;
* `spinCode` is the code of a critical section under this lock.
-/

namespace LMiced

/-! ## The word -/

/-- `eal_compare_and_swap64`: the value before, and the value after. -/
def ealCompareAndSwap64 (lock oldval newval : Int64) : Int64 × Int64 :=
  (lock, if lock = oldval then newval else lock)

/-- `eal_spin_unlock`, which is an `eal_fetch_and_sub64`. -/
def ealSpinUnlock (lock : Int64) : Int64 := lock - 1

/-- The lock as a word that is free or taken. -/
def spinWord : Critical.LockWord Int64 where
  free := 0
  taken := (ealCompareAndSwap64 0 0 1).2
  release := ealSpinUnlock
  taken_ne_free := by decide
  release_taken := by decide

/-! ## Waiting -/

/-- `LOCK_LOOP_COUNT`. -/
def lockLoopCount : UInt64 := 20000000

/-- `cnt` and `sleep_times` of `eal_spin_trylock`. -/
structure SpinCounters where
  cnt : UInt64
  sleepTimes : Nat
deriving DecidableEq, Repr

namespace SpinCounters

/-- Before the first attempt. -/
def zero : SpinCounters := ⟨0, 0⟩

/-- The end of a turn that has not got the lock, `none` where the loop is left. -/
def failed (counters : SpinCounters) : Option SpinCounters :=
  let cnt := counters.cnt + 1
  let counters : SpinCounters :=
    if cnt ≥ lockLoopCount then ⟨0, counters.sleepTimes + 1⟩ else ⟨cnt, counters.sleepTimes⟩
  if counters.sleepTimes < 10 then some counters else none

/-- The number of attempts so far. -/
def attempts (counters : SpinCounters) : Nat :=
  counters.sleepTimes * 20000000 + counters.cnt.toNat

/-- The counters within the loop. -/
def Counting (counters : SpinCounters) : Prop :=
  counters.cnt.toNat < 20000000 ∧ counters.sleepTimes < 10

/-- All attempts that `eal_spin_trylock` makes. -/
def limit : Nat := 200000000

theorem Counting.lt_limit {counters : SpinCounters} (h : counters.Counting) :
    counters.attempts < limit := by
  obtain ⟨hcnt, hsleep⟩ := h
  rw [attempts, limit]
  omega

/-- One more attempt, which is the last one at the limit. -/
theorem Counting.failed {counters : SpinCounters} (h : counters.Counting) :
    (counters.failed = none ∧ counters.attempts + 1 = limit) ∨
      ∃ counters', counters.failed = some counters' ∧ counters'.Counting ∧
        counters'.attempts = counters.attempts + 1 := by
  obtain ⟨hcnt, hsleep⟩ := h
  have hsucc : (counters.cnt + 1).toNat = counters.cnt.toNat + 1 := by
    rw [UInt64.toNat_add]
    exact Nat.mod_eq_of_lt (by show counters.cnt.toNat + 1 < 2 ^ 64; omega)
  have hle : counters.cnt + 1 ≥ lockLoopCount ↔ 20000000 ≤ counters.cnt.toNat + 1 := by
    rw [ge_iff_le, UInt64.le_iff_toNat_le, hsucc]
    rfl
  by_cases hsleeps : 20000000 ≤ counters.cnt.toNat + 1
  · by_cases hlast : counters.sleepTimes + 1 < 10
    · refine Or.inr ⟨⟨0, counters.sleepTimes + 1⟩, ?_, ⟨?_, hlast⟩, ?_⟩
      · simp only [SpinCounters.failed, if_pos (hle.mpr hsleeps), if_pos hlast]
      · show (0 : UInt64).toNat < 20000000
        decide
      · show (counters.sleepTimes + 1) * 20000000 + 0 = _
        rw [attempts]
        omega
    · refine Or.inl ⟨?_, ?_⟩
      · simp only [SpinCounters.failed, if_pos (hle.mpr hsleeps), if_neg hlast]
      · rw [attempts, limit]
        omega
  · refine Or.inr ⟨⟨counters.cnt + 1, counters.sleepTimes⟩, ?_, ⟨?_, hsleep⟩, ?_⟩
    · simp only [SpinCounters.failed, if_neg (fun h => hsleeps (hle.mp h)), if_pos hsleep]
    · show (counters.cnt + 1).toNat < 20000000
      rw [hsucc]
      omega
    · show counters.sleepTimes * 20000000 + (counters.cnt + 1).toNat = _
      rw [hsucc, attempts]
      omega

end SpinCounters

/-- The loop of `eal_spin_trylock` from attempt number `k` on, in which attempt `k` finds the
value `seen k` in the word: the return value, and the number of the last attempt. -/
def ealSpinTrylock (seen : Nat → Int64) : Nat → Nat → SpinCounters → Option (Int × Nat)
  | 0, _, _ => none
  | fuel + 1, k, counters =>
    if (ealCompareAndSwap64 (seen k) 0 1).1 = 0 then some (0, k)
    else
      match counters.failed with
      | some counters => ealSpinTrylock seen fuel (k + 1) counters
      | none => some (1, k)

/-- What the function returns from attempt `k` on. -/
theorem ealSpinTrylock_spec (seen : Nat → Int64) {n k : Nat} {counters : SpinCounters}
    (h : counters.Counting) (hk : counters.attempts = k) (hn : k + n = SpinCounters.limit) :
    (∃ j, k ≤ j ∧ j < SpinCounters.limit ∧ seen j = 0 ∧ (∀ i, k ≤ i → i < j → seen i ≠ 0) ∧
        ealSpinTrylock seen n k counters = some (0, j)) ∨
      ((∀ i, k ≤ i → i < SpinCounters.limit → seen i ≠ 0) ∧
        ealSpinTrylock seen n k counters = some (1, SpinCounters.limit - 1)) := by
  have hlt := h.lt_limit
  induction n generalizing k counters with
  | zero => omega
  | succ n ih =>
    by_cases hseen : seen k = 0
    · refine Or.inl ⟨k, le_refl k, by omega, hseen, fun i hi hi' => by omega, ?_⟩
      rw [ealSpinTrylock]
      exact if_pos hseen
    · have hmore : ealSpinTrylock seen (n + 1) k counters =
          match counters.failed with
          | some counters => ealSpinTrylock seen n (k + 1) counters
          | none => some (1, k) := by
        rw [ealSpinTrylock]
        exact if_neg hseen
      rcases h.failed with ⟨hnone, hlast⟩ | ⟨counters', hsome, hcounting, hattempts⟩
      · refine Or.inr ⟨fun i hi hi' => ?_, ?_⟩
        · obtain rfl : i = k := by omega
          exact hseen
        · rw [hmore, hnone]
          show some ((1 : Int), k) = _
          rw [← hlast, hk, Nat.add_sub_cancel]
      · rw [hmore, hsome]
        rcases ih (k := k + 1) hcounting (by omega) (by omega) hcounting.lt_limit with
          ⟨j, hkj, hj, hfree, hbusy, hret⟩ | ⟨hbusy, hret⟩
        · refine Or.inl ⟨j, by omega, hj, hfree, fun i hi hi' => ?_, hret⟩
          rcases eq_or_lt_of_le hi with rfl | hlt'
          · exact hseen
          · exact hbusy i hlt' hi'
        · refine Or.inr ⟨fun i hi hi' => ?_, hret⟩
          rcases eq_or_lt_of_le hi with rfl | hlt'
          · exact hseen
          · exact hbusy i hlt' hi'

section Code

variable {κ τ σ ρ : Type}

/-- A critical section that is entered with `eal_spin_trylock`, or with `eal_spin_lock`, which
never gives up. -/
def spinCode (trylock : κ → Bool) (refused : κ → ρ) (enter : κ → τ)
    (next : τ × σ → Option (τ × σ)) (result : τ → ρ) :
    Critical.Code Int64 κ (Option SpinCounters) τ σ ρ where
  word := spinWord
  wait c := if trylock c then some SpinCounters.zero else none
  failed
    | some counters => counters.failed.map some
    | none => some none
  refused := refused
  enter := enter
  next := next
  result := result

end Code

end LMiced
