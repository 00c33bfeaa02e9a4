import LMiced.Lib.Fifo
import LMiced.Schedule.Ring

/-!
# The task ring as a queue

Here the functions on the task ring are called one after the other: every
`lmice_pick_task` is followed by its `lmice_post_task`, and every `lmice_acquire_task` by
its `lmice_release_task`, before the next call. Then the posted slots are the ones from the
read position to the write position, and the scans find their slot in the first turn.

* `exists_reachable_calls`: the calls are what the atomic operations of `Schedule.Ring` do
  when no call is interrupted;
* `Posted` ties the slots to the positions, also when these overflow;
* `ring_fifo_of_run`: over every sequence of calls the ring is a queue of capacity 32.
-/

namespace LMiced

/-! ## The functions -/

/-- `lmshd_ring_t`. `content` is the part of a task beside its lock. -/
structure LmshdRing (α : Type) where
  readPos : UInt64
  writePos : UInt64
  lock : RingSlot → Int
  content : RingSlot → α

namespace LmshdRing

variable {α : Type}

/-- The first turn in which the loop of a scan finds a slot with the lock it looks for. -/
def scan (ring : LmshdRing α) (curPos : UInt64) (lock : Int) : Option Nat :=
  (List.range taskprocListSize).find? fun i => ring.lock (slotOf (curPos + UInt64.ofNat i)) = lock

/-- The compare-and-swap of a lock. -/
def swapLock (ring : LmshdRing α) (slot : RingSlot) (oldval newval : Int) : LmshdRing α :=
  if ring.lock slot = oldval then { ring with lock := Function.update ring.lock slot newval }
  else ring

/-- `lmice_pick_task`; `none` is the return value 1. -/
def lmicePickTask (ring : LmshdRing α) : Option RingSlot × LmshdRing α :=
  match ring.scan ring.writePos lmRingNotUse with
  | none => (none, ring)
  | some i =>
    let slot := slotOf (ring.writePos + UInt64.ofNat i)
    (some slot, { ring.swapLock slot lmRingNotUse lmRingWriting with
      writePos := ring.writePos + UInt64.ofNat (i + 1) })

/-- `lmice_post_task`. -/
def lmicePostTask (ring : LmshdRing α) (slot : RingSlot) : LmshdRing α :=
  ring.swapLock slot lmRingWriting lmRingWrite

/-- `lmice_acquire_task`; `none` is the return value 1. -/
def lmiceAcquireTask (ring : LmshdRing α) : Option RingSlot × LmshdRing α :=
  match ring.scan ring.readPos lmRingRead with
  | none => (none, ring)
  | some i =>
    let slot := slotOf (ring.readPos + UInt64.ofNat i)
    (some slot, { ring.swapLock slot lmRingRead lmRingReading with
      readPos := ring.readPos + UInt64.ofNat (i + 1) })

/-- `lmice_release_task`. -/
def lmiceReleaseTask (ring : LmshdRing α) (slot : RingSlot) : LmshdRing α :=
  ring.swapLock slot lmRingReading lmRingNotUse

/-- The producer writes its task into the slot it has picked. -/
def write (ring : LmshdRing α) (slot : RingSlot) (task : α) : LmshdRing α :=
  { ring with content := Function.update ring.content slot task }

/-- The ring before the first call. It is zeroed, and the positions have counted up to
`pos` since. -/
def init (pos : UInt64) (content : RingSlot → α) : LmshdRing α :=
  ⟨pos, pos, fun _ => lmRingNotUse, content⟩

end LmshdRing

/-- A producer picks a slot, writes its task and posts it; or a consumer acquires a slot,
reads the task and releases it. -/
inductive RingCall (α : Type)
  | post (task : α)
  | acquire
deriving DecidableEq, Repr

/-- Whether a task was posted, or the task that was acquired, if any. -/
inductive RingAnswer (α : Type)
  | posted (ok : Bool)
  | acquired (task : Option α)
deriving DecidableEq, Repr

namespace RingCall

variable {α : Type}

def step : RingCall α → LmshdRing α → RingAnswer α × LmshdRing α
  | .post task, ring =>
    let picked := ring.lmicePickTask
    match picked.1 with
    | none => (.posted false, picked.2)
    | some slot => (.posted true, (picked.2.write slot task).lmicePostTask slot)
  | .acquire, ring =>
    let taken := ring.lmiceAcquireTask
    match taken.1 with
    | none => (.acquired none, taken.2)
    | some slot => (.acquired (some (taken.2.content slot)), taken.2.lmiceReleaseTask slot)

/-- What it is meant to do to a queue of tasks. -/
def spec : RingCall α → List α → RingAnswer α × List α
  | .post task, queue =>
    let result := Fifo.put taskprocListSize task queue
    (.posted result.1, result.2)
  | .acquire, queue =>
    let result := Fifo.get queue
    (.acquired result.1, result.2)

end RingCall

/-! ## Calls as runs of atomic operations -/

/-- The ring without the parties and the history. -/
def Ring.ring {P α : Type} (s : Ring P α) : LmshdRing α :=
  ⟨s.readPos, s.writePos, s.lock, s.content⟩

@[simp] theorem Ring.ring_lock {P α : Type} (s : Ring P α) : s.ring.lock = s.lock := rfl
@[simp] theorem Ring.ring_readPos {P α : Type} (s : Ring P α) : s.ring.readPos = s.readPos := rfl
@[simp] theorem Ring.ring_writePos {P α : Type} (s : Ring P α) : s.ring.writePos = s.writePos := rfl

theorem LmshdRing.scan_eq_none_iff {α : Type} {ring : LmshdRing α} {curPos : UInt64} {lock : Int} :
    ring.scan curPos lock = none ↔
      ∀ j < taskprocListSize, ring.lock (slotOf (curPos + UInt64.ofNat j)) ≠ lock := by
  simp [scan]

theorem LmshdRing.scan_eq_some_iff {α : Type} {ring : LmshdRing α} {curPos : UInt64} {lock : Int}
    {i : Nat} :
    ring.scan curPos lock = some i ↔ ring.lock (slotOf (curPos + UInt64.ofNat i)) = lock ∧
      i < taskprocListSize ∧ ∀ j < i, ring.lock (slotOf (curPos + UInt64.ofNat j)) ≠ lock := by
  rw [scan, List.find?_range_eq_some]
  simp

section Call

variable {P α : Type} [DecidableEq P] {s : Ring P α} {p : P}

/-- A call of `lmice_pick_task` that has found no free slot in the first `i` turns of its
loop. -/
theorem execute_pickScan (hidle : s.pc p = .idle) {i : Nat} (hi : i < taskprocListSize)
    (hscan : ∀ j < i, s.lock (slotOf (s.writePos + UInt64.ofNat j)) ≠ lmRingNotUse) :
    Run.execute RingEvent.step (fun _ _ => True) (.loadWrite p :: List.replicate i (.casPick p))
      s = some (s.setPc p (.picking i (s.writePos + UInt64.ofNat i))) := by
  induction i with
  | zero => simp [Run.execute, RingEvent.step, hidle]
  | succ i ih =>
    have hprev := ih (by omega) fun j hj => hscan j (by omega)
    have hpos : s.writePos + UInt64.ofNat i + 1 = s.writePos + UInt64.ofNat (i + 1) := by
      rw [UInt64.ofNat_add, UInt64.add_assoc]
      rfl
    have hne := hscan i (Nat.lt_succ_self i)
    rw [List.replicate_succ', ← List.cons_append, Run.execute_append, hprev]
    simp [Run.execute, RingEvent.step, Ring.setPc, Ring.pickNext, hne, hi, hpos]

/-- A producer that is not interrupted does what the call does, and is idle again. -/
theorem exists_execute_post (hidle : s.pc p = .idle) (task : α) :
    ∃ es, (Run.execute RingEvent.step (fun _ _ => True) es s).map
      (fun s' => (s'.pc p, s'.ring)) = some (.idle, ((RingCall.post task).step s.ring).2) := by
  cases hscan : s.ring.scan s.ring.writePos lmRingNotUse with
  | none =>
    have hnone := LmshdRing.scan_eq_none_iff.mp hscan
    have hexec := execute_pickScan (i := 31) hidle (by decide) fun j hj =>
      hnone j (Nat.lt_trans hj (by decide))
    have hlast : s.lock (slotOf (s.writePos + UInt64.ofNat 31)) ≠ lmRingNotUse :=
      hnone 31 (by decide)
    refine ⟨(RingEvent.loadWrite p :: List.replicate 31 (RingEvent.casPick p)) ++
      [RingEvent.casPick p], ?_⟩
    rw [Run.execute_append, hexec]
    simp only [RingCall.step, LmshdRing.lmicePickTask, hscan]
    generalize s.writePos + UInt64.ofNat 31 = curPos at hlast
    simp [Run.execute, RingEvent.step, Ring.setPc, Ring.pickNext, hlast, Ring.ring]
  | some i =>
    obtain ⟨hlock, hi, hbefore⟩ := LmshdRing.scan_eq_some_iff.mp hscan
    have hexec := execute_pickScan hidle hi hbefore
    rw [Ring.ring_lock, Ring.ring_writePos] at hlock
    refine ⟨(RingEvent.loadWrite p :: List.replicate i (RingEvent.casPick p)) ++
      [RingEvent.casPick p, .addWrite p, .fill p task, .casPost p], ?_⟩
    rw [Run.execute_append, hexec]
    simp only [RingCall.step, LmshdRing.lmicePickTask, hscan]
    simp only [Ring.ring_writePos]
    generalize s.writePos + UInt64.ofNat i = curPos at hlock
    simp [Run.execute, RingEvent.step, Ring.setPc, Ring.setLock, hlock, Ring.ring,
      LmshdRing.swapLock, LmshdRing.lmicePostTask, LmshdRing.write, Ring.post]

/-- A consumer that is not interrupted does what the call does, and is idle again. -/
theorem exists_execute_acquire (hidle : s.pc p = .idle) :
    ∃ es, (Run.execute RingEvent.step (fun _ _ => True) es s).map
      (fun s' => (s'.pc p, s'.ring)) = some (.idle, (RingCall.acquire.step s.ring).2) := by
  cases hscan : s.ring.scan s.ring.readPos lmRingRead with
  | none =>
    have hnone := LmshdRing.scan_eq_none_iff.mp hscan
    have hexec := execute_scan (i := 31) hidle (by decide) fun j hj =>
      hnone j (Nat.lt_trans hj (by decide))
    have hlast : s.lock (slotOf (s.readPos + UInt64.ofNat 31)) ≠ lmRingRead :=
      hnone 31 (by decide)
    refine ⟨(RingEvent.loadRead p :: List.replicate 31 (RingEvent.casAcquire p)) ++
      [RingEvent.casAcquire p], ?_⟩
    rw [Run.execute_append, hexec]
    simp only [RingCall.step, LmshdRing.lmiceAcquireTask, hscan]
    generalize s.readPos + UInt64.ofNat 31 = curPos at hlast
    simp [Run.execute, RingEvent.step, Ring.setPc, Ring.acquireNext, hlast, Ring.ring]
  | some i =>
    obtain ⟨hlock, hi, hbefore⟩ := LmshdRing.scan_eq_some_iff.mp hscan
    have hexec := execute_scan hidle hi hbefore
    rw [Ring.ring_lock, Ring.ring_readPos] at hlock
    refine ⟨(RingEvent.loadRead p :: List.replicate i (RingEvent.casAcquire p)) ++
      [RingEvent.casAcquire p, .addRead p, .casRelease p], ?_⟩
    rw [Run.execute_append, hexec]
    simp only [RingCall.step, LmshdRing.lmiceAcquireTask, hscan]
    simp only [Ring.ring_readPos]
    generalize s.readPos + UInt64.ofNat i = curPos at hlock
    simp [Run.execute, RingEvent.step, Ring.setPc, Ring.setLock, hlock, Ring.ring,
      LmshdRing.swapLock, LmshdRing.lmiceReleaseTask, Ring.acquire]

/-- Calls of one party, one after the other, are a run of atomic operations. -/
theorem exists_reachable_calls (hidle : s.pc p = .idle) (calls : List (RingCall α)) :
    ∃ s', Run.Reachable RingEvent.step (fun _ _ => True) s s' ∧ s'.pc p = .idle ∧
      s'.ring = Machine.after RingCall.step calls s.ring := by
  induction calls generalizing s with
  | nil => exact ⟨s, Relation.ReflTransGen.refl, hidle, rfl⟩
  | cons call calls ih =>
    have hcall : ∃ es, (Run.execute RingEvent.step (fun _ _ => True) es s).map
        (fun s' => (s'.pc p, s'.ring)) = some (.idle, (call.step s.ring).2) := by
      cases call with
      | post task => exact exists_execute_post hidle task
      | acquire => exact exists_execute_acquire hidle
    obtain ⟨es, hes⟩ := hcall
    obtain ⟨s₁, hexec, hs₁⟩ := Option.map_eq_some_iff.mp hes
    obtain ⟨hidle₁, hring₁⟩ := Prod.mk.inj hs₁
    obtain ⟨s', hreach, hidle', hring'⟩ := ih hidle₁
    refine ⟨s', (Run.reachable_of_execute hexec).trans hreach, hidle', ?_⟩
    rw [hring', hring₁]
    rfl

end Call

/-! ## Slots and positions -/

/-- The slots of 32 positions in a row are different, also across an overflow. -/
theorem slotOf_add_inj {pos : UInt64} {i j : Nat} (hi : i < 32) (hj : j < 32)
    (h : slotOf (pos + UInt64.ofNat i) = slotOf (pos + UInt64.ofNat j)) : i = j := by
  have hval := congrArg Fin.val h
  have hdvd : 32 ∣ 2 ^ 64 := by decide
  rw [slotOf_val, slotOf_val, UInt64.toNat_add, UInt64.toNat_add, UInt64.toNat_ofNat',
    UInt64.toNat_ofNat', Nat.mod_mod_of_dvd _ hdvd, Nat.mod_mod_of_dvd _ hdvd, Nat.add_mod,
    Nat.add_mod pos.toNat, Nat.mod_mod_of_dvd _ hdvd, Nat.mod_mod_of_dvd _ hdvd] at hval
  omega

theorem slotOf_add_32 (pos : UInt64) : slotOf (pos + 32) = slotOf pos := by
  have hdvd : 32 ∣ 2 ^ 64 := by decide
  apply Fin.ext
  rw [slotOf_val, slotOf_val, UInt64.toNat_add, Nat.mod_mod_of_dvd _ hdvd]
  exact Nat.add_mod_right _ 32

theorem add_ofNat_succ (pos : UInt64) (i : Nat) :
    pos + UInt64.ofNat (i + 1) = pos + 1 + UInt64.ofNat i := by
  rw [Nat.add_comm, UInt64.ofNat_add, ← UInt64.add_assoc]
  rfl

namespace LmshdRing

variable {α : Type} {ring : LmshdRing α} {queue : List α} {task : α}

/-- The task that is posted at the `i`th position from the read position on. -/
def place (ring : LmshdRing α) (i : Nat) : Option α :=
  let slot := slotOf (ring.readPos + UInt64.ofNat i)
  if ring.lock slot = lmRingRead then some (ring.content slot) else none

theorem place_eq {i : Nat} {slot : RingSlot}
    (h : slotOf (ring.readPos + UInt64.ofNat i) = slot) :
    ring.place i = if ring.lock slot = lmRingRead then some (ring.content slot) else none := by
  rw [place, h]

/-- The slots from the read position to the write position are posted and hold the queue,
and the others are not used. -/
structure Posted (ring : LmshdRing α) (queue : List α) : Prop where
  window : Fifo.Window taskprocListSize ring.place queue
  writePos : ring.writePos = ring.readPos + UInt64.ofNat queue.length
  settled : ∀ slot, ring.lock slot = lmRingRead ∨ ring.lock slot = lmRingNotUse

theorem posted_init (pos : UInt64) (content : RingSlot → α) : (init pos content).Posted [] where
  window := .nil fun i _ => by simp [place, init, lmRingNotUse, lmRingRead]
  writePos := by simp [init]
  settled _ := Or.inr rfl

theorem Posted.lock_read_iff (h : ring.Posted queue) {i : Nat} (hi : i < taskprocListSize) :
    ring.lock (slotOf (ring.readPos + UInt64.ofNat i)) = lmRingRead ↔ i < queue.length := by
  have hnone := h.window.eq_none_iff hi
  unfold place at hnone
  dsimp only at hnone
  split_ifs at hnone with hlock
  · simp only [false_iff] at hnone
    exact iff_of_true hlock (by omega)
  · simp only [true_iff] at hnone
    exact iff_of_false hlock (by omega)

theorem Posted.lock_notUse_iff (h : ring.Posted queue) {i : Nat} (hi : i < taskprocListSize) :
    ring.lock (slotOf (ring.readPos + UInt64.ofNat i)) = lmRingNotUse ↔ queue.length ≤ i := by
  have hread := h.lock_read_iff hi
  rcases h.settled (slotOf (ring.readPos + UInt64.ofNat i)) with hlock | hlock
  · exact iff_of_false (by rw [hlock]; decide) (by rw [Nat.not_le]; exact hread.mp hlock)
  · refine iff_of_true hlock (Nat.le_of_not_lt fun hlt => ?_)
    rw [hread.mpr hlt] at hlock
    exact absurd hlock (by decide)

/-! ## One call -/

/-- A scan that finds its slot in the first turn. -/
theorem scan_eq_zero_iff {curPos : UInt64} {lock : Int} :
    ring.scan curPos lock = some 0 ↔ ring.lock (slotOf curPos) = lock := by
  rw [scan_eq_some_iff]
  simp

/-- The scan for a free slot finds the one at the write position. -/
theorem Posted.scan_of_room (h : ring.Posted queue) (hroom : queue.length < taskprocListSize) :
    ring.scan ring.writePos lmRingNotUse = some 0 := by
  rw [scan_eq_zero_iff, h.writePos, h.lock_notUse_iff hroom]

theorem Posted.scan_of_full (h : ring.Posted queue) (hfull : ¬ queue.length < taskprocListSize) :
    ring.scan ring.writePos lmRingNotUse = none := by
  rw [scan_eq_none_iff]
  intro i _
  obtain ⟨j, hj, hslot⟩ :=
    exists_slotOf_add ring.readPos (slotOf (ring.writePos + UInt64.ofNat i))
  rw [ne_eq, ← hslot, h.lock_notUse_iff hj]
  omega

/-- The scan for a posted slot finds the one at the read position. -/
theorem Posted.scan_of_cons (h : ring.Posted (task :: queue)) :
    ring.scan ring.readPos lmRingRead = some 0 := by
  have hread := (h.lock_read_iff (i := 0) (by decide)).mpr (Nat.succ_pos _)
  rw [scan_eq_zero_iff]
  simpa using hread

theorem Posted.scan_of_nil (h : ring.Posted []) : ring.scan ring.readPos lmRingRead = none := by
  rw [scan_eq_none_iff]
  intro i hi
  rw [ne_eq, h.lock_read_iff hi]
  exact Nat.not_lt_zero _

/-- The ring after a task has been written and posted. -/
def posting (ring : LmshdRing α) (task : α) : LmshdRing α where
  readPos := ring.readPos
  writePos := ring.writePos + 1
  lock := Function.update ring.lock (slotOf ring.writePos) lmRingWrite
  content := Function.update ring.content (slotOf ring.writePos) task

theorem step_post_of_scan (h : ring.scan ring.writePos lmRingNotUse = some 0) (task : α) :
    (RingCall.post task).step ring = (.posted true, ring.posting task) := by
  have hfree := scan_eq_zero_iff.mp h
  simp [RingCall.step, lmicePickTask, h, swapLock, hfree, lmicePostTask, write, posting]

/-- The ring after a task has been acquired and released. -/
def taking (ring : LmshdRing α) : LmshdRing α where
  readPos := ring.readPos + 1
  writePos := ring.writePos
  lock := Function.update ring.lock (slotOf ring.readPos) lmRingNotUse
  content := ring.content

theorem step_acquire_of_scan (h : ring.scan ring.readPos lmRingRead = some 0) :
    RingCall.acquire.step ring =
      (.acquired (some (ring.content (slotOf ring.readPos))), ring.taking) := by
  have hread := scan_eq_zero_iff.mp h
  simp [RingCall.step, lmiceAcquireTask, h, swapLock, hread, lmiceReleaseTask, taking]

theorem Posted.posting (h : ring.Posted queue) (hroom : queue.length < taskprocListSize)
    (task : α) : (ring.posting task).Posted (queue ++ [task]) where
  window := by
    refine h.window.put hroom ?_ fun i hi hne => ?_
    · simp [place, LmshdRing.posting, h.writePos, lmRingWrite, lmRingRead]
    · have hslot : slotOf (ring.readPos + UInt64.ofNat i) ≠ slotOf ring.writePos := by
        rw [h.writePos]
        exact fun heq => hne (slotOf_add_inj hi hroom heq)
      simp [place, LmshdRing.posting, hslot]
  writePos := by
    simp only [LmshdRing.posting, h.writePos, List.length_append, List.length_singleton,
      UInt64.ofNat_add, UInt64.add_assoc]
    rfl
  settled slot := by
    rcases eq_or_ne slot (slotOf ring.writePos) with rfl | hne
    · exact Or.inl (Function.update_self _ _ _)
    · simpa [LmshdRing.posting, hne] using h.settled slot

theorem Posted.taking (h : ring.Posted (task :: queue)) : ring.taking.Posted queue where
  window := by
    have hwindow : Fifo.Window (31 + 1) ring.place (task :: queue) := h.window
    refine hwindow.get (fun i hi => ?_) ?_
    · have hslot : slotOf (ring.readPos + UInt64.ofNat (i + 1)) ≠ slotOf ring.readPos := by
        intro heq
        have hzero : slotOf (ring.readPos + UInt64.ofNat (i + 1)) =
            slotOf (ring.readPos + UInt64.ofNat 0) := by simpa using heq
        exact absurd (slotOf_add_inj (Nat.succ_lt_succ hi) (by decide) hzero) (Nat.succ_ne_zero i)
      have hnext : slotOf (ring.taking.readPos + UInt64.ofNat i) =
          slotOf (ring.readPos + UInt64.ofNat (i + 1)) := by rw [add_ofNat_succ]; rfl
      rw [place_eq hnext, place_eq rfl]
      simp only [LmshdRing.taking, Function.update_of_ne hslot]
    · have hslot : slotOf (ring.taking.readPos + UInt64.ofNat 31) = slotOf ring.readPos := by
        rw [LmshdRing.taking, ← add_ofNat_succ]
        exact slotOf_add_32 ring.readPos
      rw [place_eq hslot]
      simp [LmshdRing.taking, lmRingNotUse, lmRingRead]
  writePos := by
    rw [LmshdRing.taking, h.writePos, List.length_cons, add_ofNat_succ]
  settled slot := by
    rcases eq_or_ne slot (slotOf ring.readPos) with rfl | hne
    · exact Or.inr (Function.update_self _ _ _)
    · simpa [LmshdRing.taking, hne] using h.settled slot

/-- The slot at the read position holds the oldest task. -/
theorem Posted.content_eq (h : ring.Posted (task :: queue)) :
    ring.content (slotOf ring.readPos) = task := by
  have hfirst := h.window.entry 0 (by decide)
  have hread := (h.lock_read_iff (i := 0) (by decide)).mpr (Nat.succ_pos _)
  simp only [place, hread, if_true, List.getElem?_cons_zero, Option.some.injEq] at hfirst
  simpa using hfirst

/-- A call answers what the call on the queue answers, and leaves the ring with the queue
that is left. -/
theorem refines :
    Machine.Refines (RingCall.step (α := α)) RingCall.spec (fun _ => True) Posted := by
  have hboth : ∀ (call : RingCall α) ring queue, Posted ring queue →
      (call.step ring).1 = (call.spec queue).1 ∧ Posted (call.step ring).2 (call.spec queue).2 := by
    intro call ring queue h
    cases call with
    | post task =>
      by_cases hroom : queue.length < taskprocListSize
      · rw [step_post_of_scan (h.scan_of_room hroom)]
        simp only [RingCall.spec, Fifo.put, if_pos hroom]
        exact ⟨trivial, h.posting hroom task⟩
      · simp only [RingCall.step, lmicePickTask, h.scan_of_full hroom, RingCall.spec, Fifo.put,
          if_neg hroom]
        exact ⟨trivial, h⟩
    | acquire =>
      cases queue with
      | nil =>
        simp only [RingCall.step, lmiceAcquireTask, h.scan_of_nil, RingCall.spec, Fifo.get]
        exact ⟨rfl, h⟩
      | cons task queue =>
        rw [step_acquire_of_scan h.scan_of_cons, h.content_eq]
        exact ⟨rfl, h.taking⟩
  exact ⟨fun call ring queue _ h => (hboth call ring queue h).1,
    fun call ring queue _ h => (hboth call ring queue h).2⟩

end LmshdRing

/-- Over every sequence of calls that do not overlap, the ring answers as a queue of
capacity 32, from whatever position it starts, and its posted slots hold the queue. -/
theorem ring_fifo_of_run {α : Type} (pos : UInt64) (content : RingSlot → α)
    (calls : List (RingCall α)) :
    Machine.answers RingCall.step calls (.init pos content) =
        Machine.answers RingCall.spec calls [] ∧
      (Machine.after RingCall.step calls (.init pos content)).Posted
        (Machine.after RingCall.spec calls []) :=
  ⟨LmshdRing.refines.answers_eq (fun _ _ => trivial) (LmshdRing.posted_init pos content),
    LmshdRing.refines.after (fun _ _ => trivial) (LmshdRing.posted_init pos content)⟩

end LMiced
