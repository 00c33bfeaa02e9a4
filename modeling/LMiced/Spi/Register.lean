import LMiced.Lib.Run
import LMiced.Resource.Daemon

/-!
# Two register calls at once

The register functions of `spi/main.cpp` look for a free slot of the worker under its
lock, release the lock, and fill the slot after that. Here a call is taken apart into
these steps, and two calls for slots of the same kind run side by side.

* `execute_alone`: the steps of a call that is left alone are the whole call, and
  `WorkerShm.registerMesg_eq` and its siblings say that this is the call of
  `Resource.Daemon`;
* `RegisterInv` is preserved by every step that does not look for a slot while the
  other call has one it has not filled yet;
* `distinct_slots_of_run` is the result for whole runs, and `same_slot_of_overlap` the
  run in which the calls overlap.
-/

namespace LMiced

/-! ## Calls -/

/-- The records of the message, timer and action slots, with their instance id. -/
class SlotRecord (ρ : Type) where
  instId : ρ → Nat

instance : SlotRecord MesgInfo := ⟨MesgInfo.instId⟩
instance : SlotRecord TimerInfo := ⟨TimerInfo.instId⟩

/-- `lm_action_info_t` with the events it refers to and its state. -/
structure ActionRecord extends ActionInfo where
  actIds : Fin 8 → UInt64
  state : LmState

instance : SlotRecord ActionRecord := ⟨fun record => record.instId⟩

/-- A call of a register function: what it writes into the slot it has found. -/
structure RegisterCall (ρ : Type) [SlotRecord ρ] where
  instId : Nat
  fill : ρ → ρ
  fill_instId : ∀ old, SlotRecord.instId (fill old) = instId

/-- `register_publish`. -/
def publishCall (instId typeId size : Nat) : RegisterCall MesgInfo where
  instId := instId
  fill _ := ⟨publishResourceType, size, 0, instId, typeId⟩
  fill_instId _ := rfl

/-- `register_subscribe`. -/
def subscribeCall (instId typeId : Nat) : RegisterCall MesgInfo where
  instId := instId
  fill _ := ⟨subscribeResourceType, defaultShmSize, 0, instId, typeId⟩
  fill_instId _ := rfl

/-- `register_tick_event`. -/
def tickEventCall (instId : Nat) (period : Int) (size : UInt32) (due : Int) :
    RegisterCall TimerInfo where
  instId := instId
  fill old :=
    { type := tickerType, size, period, due, instId
      timer := ⟨0, 0, ⟨Function.update old.timer.state.value timerStatePos 0⟩⟩ }
  fill_instId _ := rfl

/-- `register_timer_event`. -/
def timerEventCall (instId : Nat) (period : Int) (size : UInt32) (due : Int) :
    RegisterCall TimerInfo where
  instId := instId
  fill old := { type := timerType, size, period, due, instId, timer := ⟨0, 0, old.timer.state⟩ }
  fill_instId _ := rfl

/-- `register_custom_event`. It copies the list without looking at its length; a list
of more than 8 events runs over the end of `act_ids`. -/
def customEventCall (instId : Nat) (eventList : List UInt64) (_ : eventList.length ≤ 8) :
    RegisterCall ActionRecord where
  instId := instId
  fill old :=
    { type := customEventType, size := eventList.length, instId
      actIds := fun i => eventList.getD i (old.actIds i)
      state := ⟨fun _ => 0⟩ }
  fill_instId _ := rfl

section Slots

variable {ρ : Type} [SlotRecord ρ]

/-- The scan for a slot with `inst_id == 0`. -/
def scanSlots (slots : ResSlot → ρ) : Option ResSlot :=
  WorkerShm.firstFree fun i => SlotRecord.instId (slots i)

/-- The whole call, as if it were a single step. -/
def RegisterCall.apply (call : RegisterCall ρ) (slots : ResSlot → ρ) : ResSlot → ρ :=
  match scanSlots slots with
  | none => slots
  | some i => Function.update slots i (call.fill (slots i))

theorem instId_of_scanSlots {slots : ResSlot → ρ} {i : ResSlot} (h : scanSlots slots = some i) :
    SlotRecord.instId (slots i) = 0 := by
  simpa using List.find?_some h

end Slots

namespace WorkerShm

/-! The calls are the register functions of the daemon's event system. -/

theorem registerMesg_eq (shm : WorkerShm) (call : RegisterCall MesgInfo) (info : MesgInfo)
    (hfill : ∀ old, call.fill old = info) :
    shm.registerMesg info = { shm with mesg := call.apply shm.mesg } := by
  unfold registerMesg RegisterCall.apply
  rw [show scanSlots shm.mesg = firstFree fun i => (shm.mesg i).instId from rfl]
  cases firstFree fun i => (shm.mesg i).instId with
  | none => rfl
  | some i => simp only [hfill]

theorem registerTimer_eq (shm : WorkerShm) (call : RegisterCall TimerInfo) :
    shm.registerTimer call.fill = { shm with timer := call.apply shm.timer } := by
  unfold registerTimer RegisterCall.apply
  rw [show scanSlots shm.timer = firstFree fun i => (shm.timer i).instId from rfl]
  cases firstFree fun i => (shm.timer i).instId <;> rfl

theorem registerCustomEvent_eq (shm : WorkerShm) (slots : ResSlot → ActionRecord) (instId : Nat)
    (eventList : List UInt64) (hlen : eventList.length ≤ 8)
    (haction : shm.action = fun i => (slots i).toActionInfo) :
    let called := (customEventCall instId eventList hlen).apply slots
    shm.registerCustomEvent instId eventList.length =
      { shm with action := fun i => (called i).toActionInfo } := by
  intro called
  subst called
  unfold registerCustomEvent RegisterCall.apply
  have hscan : (firstFree fun i => (shm.action i).instId) = scanSlots slots := by
    rw [haction]
    rfl
  rw [hscan, haction]
  cases scanSlots slots with
  | none =>
    dsimp only
    rw [← haction]
  | some i =>
    dsimp only
    congr 1
    funext j
    rcases eq_or_ne j i with rfl | hne
    · simp [customEventCall]
    · simp [Function.update_of_ne hne]

end WorkerShm

/-! ## Steps -/

/-- Where a call stands. `found` is between the release of the lock and the filling of
the slot, `done` is the return value 0. -/
inductive RegisterPc
  | start
  | scanned (slot : Option ResSlot)
  | found (slot : ResSlot)
  | done (slot : ResSlot)
  | failed (ret : Int)
deriving DecidableEq, Repr

/-- The slots of one kind, the lock of the worker and the two calls. -/
structure RegisterState (ρ : Type) where
  lock : Bool
  slots : ResSlot → ρ
  pc : Bool → RegisterPc

/-- The steps of the call `p`: lock and scan, give up waiting for the lock, unlock, fill
the slot, or fail to create the shared memory of a message. -/
inductive RegisterEvent
  | scan (p : Bool)
  | giveUp (p : Bool)
  | unlock (p : Bool)
  | fill (p : Bool)
  | fail (p : Bool) (ret : Int)
deriving DecidableEq, Repr

section Steps

variable {ρ : Type} [SlotRecord ρ] (call : Bool → RegisterCall ρ)

namespace RegisterState

def setPc (s : RegisterState ρ) (p : Bool) (pc : RegisterPc) : RegisterState ρ :=
  { s with pc := Function.update s.pc p pc }

/-- Before the calls. -/
def init (slots : ResSlot → ρ) : RegisterState ρ := ⟨false, slots, fun _ => .start⟩

end RegisterState

/-- The steps of the two calls. -/
def RegisterEvent.step : RegisterEvent → RegisterState ρ → Option (RegisterState ρ)
  | .scan p, s =>
    match s.pc p, s.lock with
    | .start, false => some ({ s with lock := true }.setPc p (.scanned (scanSlots s.slots)))
    | _, _ => none
  | .giveUp p, s =>
    match s.pc p, s.lock with
    | .start, true => some (s.setPc p (.failed 1))
    | _, _ => none
  | .unlock p, s =>
    match s.pc p with
    | .scanned none => some ({ s with lock := false }.setPc p (.failed 1))
    | .scanned (some slot) => some ({ s with lock := false }.setPc p (.found slot))
    | _ => none
  | .fill p, s =>
    match s.pc p with
    | .found slot =>
      some ({ s with
        slots := Function.update s.slots slot ((call p).fill (s.slots slot)) }.setPc p (.done slot))
    | _ => none
  | .fail p ret, s =>
    match s.pc p with
    | .found _ => if ret ≠ 0 then some (s.setPc p (.failed ret)) else none
    | _ => none

/-- A call looks for a slot only when the other call has none that it has not filled
yet, and has not filled one with the id 0. -/
def RegisterEvent.Apart : RegisterEvent → RegisterState ρ → Prop
  | .scan p, s => (∀ slot, s.pc (!p) ≠ .found slot) ∧
      ∀ slot, s.pc (!p) = .done slot → (call (!p)).instId ≠ 0
  | _, _ => True

instance RegisterEvent.decidableApart :
    (e : RegisterEvent) → (s : RegisterState ρ) → Decidable (e.Apart call s)
  | .scan p, s =>
    inferInstanceAs (Decidable ((∀ slot, s.pc (!p) ≠ .found slot) ∧
      ∀ slot, s.pc (!p) = .done slot → (call (!p)).instId ≠ 0))
  | .giveUp _, _ => inferInstanceAs (Decidable True)
  | .unlock _, _ => inferInstanceAs (Decidable True)
  | .fill _, _ => inferInstanceAs (Decidable True)
  | .fail _ _, _ => inferInstanceAs (Decidable True)

/-- The slot of a call, from the scan on. -/
def RegisterPc.slot : RegisterPc → Option ResSlot
  | .scanned slot => slot
  | .found slot => some slot
  | .done slot => some slot
  | _ => none

/-- The call has looked for a slot and has not filled it yet. -/
def RegisterPc.pending : RegisterPc → Bool
  | .scanned _ => true
  | .found _ => true
  | _ => false

end Steps

/-! ## The invariant -/

/-- At most one call is between its scan and its filling, the slots of the calls are
different, and only what a call has filled has changed. -/
structure RegisterInv {ρ : Type} [SlotRecord ρ] (call : Bool → RegisterCall ρ)
    (slots₀ : ResSlot → ρ) (s : RegisterState ρ) : Prop where
  locked : ∀ p r, s.pc p = .scanned r → s.lock = true
  alone : ∀ p, (s.pc p).pending = true → (s.pc !p).pending = false
  apart : ∀ p i j, (s.pc p).slot = some i → (s.pc !p).slot = some j → i ≠ j
  done : ∀ p i, s.pc p = .done i → s.slots i = (call p).fill (slots₀ i)
  others : ∀ i, (∀ p, s.pc p ≠ .done i) → s.slots i = slots₀ i

namespace RegisterInv

variable {ρ : Type} [SlotRecord ρ] {call : Bool → RegisterCall ρ} {slots₀ : ResSlot → ρ}
  {s s' : RegisterState ρ} {p : Bool}

theorem init : RegisterInv call slots₀ (RegisterState.init slots₀) where
  locked _ _ h := nomatch h
  alone _ h := nomatch h
  apart _ _ _ h := nomatch h
  done _ _ h := nomatch h
  others _ _ := rfl

/-- A step that fills no slot. -/
theorem setPc (hs : RegisterInv call slots₀ s) {pc : RegisterPc} {lock : Bool}
    (halone : pc.pending = true → (s.pc !p).pending = false)
    (hapart : ∀ i j, pc.slot = some i → (s.pc !p).slot = some j → i ≠ j)
    (hold : ∀ i, s.pc p ≠ .done i) (hnew : ∀ i, pc ≠ .done i)
    (hlock : ∀ r, pc = .scanned r → lock = true)
    (hlock' : ∀ r, s.pc (!p) = .scanned r → lock = true) :
    RegisterInv call slots₀ ({ s with lock := lock }.setPc p pc) := by
  have hself : ({ s with lock := lock }.setPc p pc).pc p = pc := Function.update_self _ _ _
  have hother : ({ s with lock := lock }.setPc p pc).pc (!p) = s.pc !p :=
    Function.update_of_ne (Bool.not_ne_self p) _ _
  constructor
  · intro q r h
    rcases Bool.eq_or_eq_not q p with rfl | rfl
    · exact hlock r (hself.symm.trans h)
    · exact hlock' r (hother.symm.trans h)
  · intro q h
    rcases Bool.eq_or_eq_not q p with rfl | rfl
    · rw [hself] at h
      rw [hother]
      exact halone h
    · rw [hother] at h
      rw [Bool.not_not, hself]
      by_contra hpc
      rw [halone (Bool.not_eq_false _ ▸ hpc)] at h
      cases h
  · intro q i j hi hj
    rcases Bool.eq_or_eq_not q p with rfl | rfl
    · rw [hself] at hi
      rw [hother] at hj
      exact hapart i j hi hj
    · rw [hother] at hi
      rw [Bool.not_not, hself] at hj
      exact (hapart j i hj hi).symm
  · intro q i h
    rcases Bool.eq_or_eq_not q p with rfl | rfl
    · exact absurd (hself.symm.trans h) (hnew i)
    · exact hs.done (!p) i (hother.symm.trans h)
  · intro i h
    refine hs.others i fun q => ?_
    rcases Bool.eq_or_eq_not q p with rfl | rfl
    · exact hold i
    · exact fun hq => h (!p) (hother.trans hq)

/-- A slot that has been found and not filled is as it was at the start. -/
theorem found_eq (hs : RegisterInv call slots₀ s) {slot : ResSlot} (hpc : s.pc p = .found slot) :
    s.slots slot = slots₀ slot := by
  refine hs.others slot fun q hq => ?_
  rcases Bool.eq_or_eq_not q p with rfl | rfl
  · rw [hpc] at hq
    cases hq
  · exact hs.apart p slot slot (by rw [hpc]; rfl) (by rw [hq]; rfl) rfl

/-- The filling of a slot. -/
theorem fill (hs : RegisterInv call slots₀ s) {slot : ResSlot} (hpc : s.pc p = .found slot) :
    RegisterInv call slots₀ ({ s with
      slots := Function.update s.slots slot ((call p).fill (s.slots slot)) }.setPc p
        (.done slot)) := by
  set s' := { s with
    slots := Function.update s.slots slot ((call p).fill (s.slots slot)) }.setPc p (.done slot)
  have hself : s'.pc p = .done slot := Function.update_self _ _ _
  have hother : s'.pc (!p) = s.pc !p := Function.update_of_ne (Bool.not_ne_self p) _ _
  have hslot : s'.slots slot = (call p).fill (slots₀ slot) := by
    rw [← hs.found_eq hpc]
    exact Function.update_self _ _ _
  have hslots : ∀ i, i ≠ slot → s'.slots i = s.slots i :=
    fun i hi => Function.update_of_ne hi _ _
  have hne : ∀ i, (s.pc !p).slot = some i → i ≠ slot := by
    intro i hi
    exact (hs.apart p slot i (by rw [hpc]; rfl) hi).symm
  constructor
  · intro q r h
    rcases Bool.eq_or_eq_not q p with rfl | rfl
    · rw [hself] at h
      cases h
    · exact hs.locked (!p) r (hother.symm.trans h)
  · intro q h
    rcases Bool.eq_or_eq_not q p with rfl | rfl
    · rw [hself] at h
      cases h
    · rw [Bool.not_not, hself]
      rfl
  · intro q i j hi hj
    rcases Bool.eq_or_eq_not q p with rfl | rfl
    · rw [hself] at hi
      rw [hother] at hj
      cases hi
      exact (hne j hj).symm
    · rw [hother] at hi
      rw [Bool.not_not, hself] at hj
      cases hj
      exact hne i hi
  · intro q i h
    rcases Bool.eq_or_eq_not q p with rfl | rfl
    · rw [hself] at h
      cases h
      exact hslot
    · rw [hother] at h
      rw [hslots i (hne i (by rw [h]; rfl))]
      exact hs.done (!p) i h
  · intro i h
    have hi : i ≠ slot := by
      rintro rfl
      exact h p hself
    rw [hslots i hi]
    refine hs.others i fun q hq => ?_
    rcases Bool.eq_or_eq_not q p with rfl | rfl
    · rw [hpc] at hq
      cases hq
    · exact h (!p) (hother.trans hq)

/-- A free slot is not the slot of the other call. -/
theorem scan (hs : RegisterInv call slots₀ s) (hother : (s.pc !p).pending = false)
    (hid : ∀ slot, s.pc (!p) = .done slot → (call !p).instId ≠ 0) {i j : ResSlot}
    (hi : scanSlots s.slots = some i) (hj : (s.pc !p).slot = some j) : i ≠ j := by
  rintro rfl
  have hdone : s.pc (!p) = .done i := by
    cases hpc : s.pc !p with
    | start => rw [hpc] at hj; cases hj
    | scanned r => rw [hpc] at hother; cases hother
    | found k => rw [hpc] at hother; cases hother
    | done k =>
      rw [hpc] at hj
      cases hj
      rfl
    | failed ret => rw [hpc] at hj; cases hj
  have hfree := instId_of_scanSlots hi
  rw [hs.done (!p) i hdone, (call !p).fill_instId] at hfree
  exact hid i hdone hfree

/-- A call that returns without a slot. -/
theorem failed (hs : RegisterInv call slots₀ s) {lock : Bool} {ret : Int}
    (hold : ∀ i, s.pc p ≠ .done i) (hlock : ∀ r, s.pc (!p) = .scanned r → lock = true) :
    RegisterInv call slots₀ ({ s with lock := lock }.setPc p (.failed ret)) := by
  refine hs.setPc ?_ ?_ hold ?_ ?_ hlock
  · intro h
    cases h
  · intro i j hi
    cases hi
  · intro i h
    cases h
  · intro r h
    cases h

/-- While a call holds the lock the other one does not. -/
theorem not_scanned (hs : RegisterInv call slots₀ s) {r r' : Option ResSlot}
    (hpc : s.pc p = .scanned r) : s.pc (!p) ≠ .scanned r' := by
  intro hr
  have hother := hs.alone p (by rw [hpc]; rfl)
  rw [hr] at hother
  cases hother

/-- The invariant is preserved by the steps that keep the calls apart. -/
theorem step (hs : RegisterInv call slots₀ s) {e : RegisterEvent} (hok : e.Apart call s)
    (h : e.step call s = some s') : RegisterInv call slots₀ s' := by
  cases e with
  | scan p =>
    simp only [RegisterEvent.step] at h
    split at h
    · next hpc hlock =>
      cases h
      obtain ⟨hfound, hid⟩ := hok
      have hscanned : ∀ r, s.pc (!p) ≠ .scanned r := by
        intro r hr
        rw [hs.locked _ r hr] at hlock
        cases hlock
      have hother : (s.pc !p).pending = false := by
        cases hq : s.pc !p with
        | scanned r => exact absurd hq (hscanned r)
        | found k => exact absurd hq (hfound k)
        | start | done k | failed ret => rfl
      refine hs.setPc (fun _ => hother) (fun i j hi hj => hs.scan hother hid hi hj) ?_ ?_ ?_ ?_
      · simp [hpc]
      · simp
      · simp
      · exact fun r hr => absurd hr (hscanned r)
    · cases h
  | giveUp p =>
    simp only [RegisterEvent.step] at h
    split at h
    · next hpc hlock =>
      cases h
      exact hs.failed (by simp [hpc]) (fun _ _ => hlock)
    · cases h
  | unlock p =>
    simp only [RegisterEvent.step] at h
    split at h
    · next hpc =>
      cases h
      exact hs.failed (by simp [hpc]) (fun r hr => absurd hr (hs.not_scanned hpc))
    · next slot hpc =>
      cases h
      have hpending : (s.pc p).pending = true := by rw [hpc]; rfl
      have hslot : (s.pc p).slot = some slot := by rw [hpc]; rfl
      refine hs.setPc (fun _ => hs.alone p hpending) (fun i j hi hj => ?_) ?_ ?_ ?_ ?_
      · exact hs.apart p i j (hslot.trans hi) hj
      · simp [hpc]
      · simp
      · simp
      · exact fun r hr => absurd hr (hs.not_scanned hpc)
    · cases h
  | fill p =>
    simp only [RegisterEvent.step] at h
    split at h
    · next slot hpc =>
      cases h
      exact hs.fill hpc
    · cases h
  | fail p ret =>
    simp only [RegisterEvent.step] at h
    split at h
    · next slot hpc =>
      split at h
      · cases h
        exact hs.failed (by simp [hpc]) (hs.locked !p)
      · cases h
    · cases h

end RegisterInv

/-! ## Runs -/

section Runs

variable {ρ : Type} [SlotRecord ρ] {call : Bool → RegisterCall ρ} {slots₀ : ResSlot → ρ}
  {s : RegisterState ρ}

/-- A call that is left alone between its scan and its filling is the whole call. -/
theorem execute_alone {p : Bool} {i : ResSlot} (hpc : s.pc p = .start) (hlock : s.lock = false)
    (hscan : scanSlots s.slots = some i) :
    (Run.execute (RegisterEvent.step call) (fun _ _ => True) [.scan p, .unlock p, .fill p] s).map
      RegisterState.slots = some ((call p).apply s.slots) := by
  simp [Run.execute, RegisterEvent.step, RegisterState.setPc, RegisterCall.apply, hpc, hlock, hscan]

/-- In every run in which no call looks for a slot while the other has one that it has
not filled, two calls that return 0 have filled two slots, and both records are
intact. -/
theorem distinct_slots_of_run
    (h : Run.Reachable (RegisterEvent.step call) (RegisterEvent.Apart call)
      (RegisterState.init slots₀) s)
    {i j : ResSlot} (hi : s.pc false = .done i) (hj : s.pc true = .done j) :
    i ≠ j ∧ s.slots i = (call false).fill (slots₀ i) ∧
      s.slots j = (call true).fill (slots₀ j) := by
  have hs : RegisterInv call slots₀ s :=
    h.invariant (fun _ _ _ hok hstep hs => hs.step hok hstep) .init
  refine ⟨hs.apart false i j ?_ ?_, hs.done false i hi, hs.done true j hj⟩
  · rw [hi]
    rfl
  · rw [Bool.not_false, hj]
    rfl

end Runs

/-! ## Two timers -/

/-- Two timers of different periods. -/
def twoTimers : Bool → RegisterCall TimerInfo
  | false => timerEventCall 1 10 0 0
  | true => timerEventCall 2 20 0 0

/-- One call after the other on a worker that has registered no timer. -/
theorem distinct_slots_of_run_serial :
    ∃ s : RegisterState TimerInfo, (s.pc false = .done 0 ∧ s.pc true = .done 1) ∧
      (0 : ResSlot) ≠ 1 ∧
      s.slots 0 = (twoTimers false).fill (WorkerShm.zero.timer 0) ∧
      s.slots 1 = (twoTimers true).fill (WorkerShm.zero.timer 1) := by
  obtain ⟨s, hreach, hs⟩ := Run.exists_reachable_of_execute (RegisterEvent.step twoTimers)
    (RegisterEvent.Apart twoTimers)
    [.scan false, .unlock false, .fill false, .scan true, .unlock true, .fill true]
    (s := RegisterState.init WorkerShm.zero.timer)
    (p := fun s => s.pc false = .done 0 ∧ s.pc true = .done 1) (by decide +kernel)
  have hpc := of_decide_eq_true hs
  exact ⟨s, hpc, distinct_slots_of_run hreach hpc.1 hpc.2⟩

/-- Both calls look for a slot before one of them fills its slot: they find the same one,
and the second record is written over the first. -/
theorem same_slot_of_overlap :
    ¬ ∀ (call : Bool → RegisterCall TimerInfo) (slots₀ : ResSlot → TimerInfo)
        (s : RegisterState TimerInfo),
      (∃ i j, i ≠ j ∧ (slots₀ i).instId = 0 ∧ (slots₀ j).instId = 0) →
      Run.Reachable (RegisterEvent.step call) (fun _ _ => True) (RegisterState.init slots₀) s →
      ∀ i j, s.pc false = .done i → s.pc true = .done j →
        i ≠ j ∧ s.slots i = (call false).fill (slots₀ i) ∧
          s.slots j = (call true).fill (slots₀ j) := by
  intro h
  obtain ⟨s, hreach, hs⟩ := Run.exists_reachable_of_execute (RegisterEvent.step twoTimers)
    (fun _ _ => True)
    [.scan false, .unlock false, .scan true, .unlock true, .fill false, .fill true]
    (s := RegisterState.init WorkerShm.zero.timer)
    (p := fun s => s.pc false = .done 0 ∧ s.pc true = .done 0) (by decide +kernel)
  have hpc := of_decide_eq_true hs
  have hfree : ∃ i j : ResSlot, i ≠ j ∧ (WorkerShm.zero.timer i).instId = 0 ∧
      (WorkerShm.zero.timer j).instId = 0 := ⟨0, 1, by decide, rfl, rfl⟩
  exact (h twoTimers WorkerShm.zero.timer s hfree hreach 0 0 hpc.1 hpc.2).1 rfl

end LMiced
