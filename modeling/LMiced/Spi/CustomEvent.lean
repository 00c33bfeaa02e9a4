import LMiced.Eal.Hash
import LMiced.Spi.Register

/-!
# Custom events in memory

`lmice_spi::register_custom_event` of `spi/main.cpp` copies a list of event ids into the
record of an action, which has room for 8 of them. Here the records are in memory, 11 words
each: the type and the size, the instance id, the event ids and the state. Words are counted
from the first record on.

* `actionAt_registerCustomEvent`: for a list that fits, this is the call of `Spi.Register`;
* `custom_event_writes_slot_iff`: when a call writes the slot it has found and nothing else.
-/

namespace LMiced

namespace CustomEvent

/-! ## The call -/

/-- `CUSTOM_TYPE`. -/
def customType : Int32 := 3

/-- The word `k` of an action record. -/
def actionWord (i : ResSlot) (k : Nat) : Nat := 11 * i.val + k

/-- Write some words from an address on. -/
def writeWords : Nat → List UInt64 → (Nat → UInt64) → Nat → UInt64
  | _, [], memory => memory
  | a, x :: xs, memory => writeWords (a + 1) xs (Function.update memory a x)

/-- The instance id of a custom event: a hash of the session, the process, the type, the
number of the events and their ids. -/
def customEventId (build : Build) (sessionId : UInt64) (processId : Int32)
    (eventList : List UInt64) : UInt64 :=
  let instId := ealHash64Fnv1a build (bytes64 sessionId)
  let instId := ealHash64MoreFnv1a build (bytes32 processId) instId
  let instId := ealHash64MoreFnv1a build (bytes32 customType) instId
  let instId := ealHash64MoreFnv1a build (bytes64 (UInt64.ofNat eventList.length)) instId
  eventList.foldl (fun instId event => ealHash64MoreFnv1a build (bytes64 event) instId) instId

/-- The type and the size share a word; the size is cut off to 32 bits. -/
def typeSizeWord (size : Nat) : UInt64 := UInt64.ofNat (customEventType + size % 2 ^ 32 * 2 ^ 32)

/-- The writes to the slot that was found. -/
def fillAction (i : ResSlot) (instId : UInt64) (eventList : List UInt64)
    (memory : Nat → UInt64) : Nat → UInt64 :=
  let memory := Function.update memory (actionWord i 0) (typeSizeWord eventList.length)
  let memory := Function.update memory (actionWord i 1) instId
  let memory := writeWords (actionWord i 2) eventList memory
  Function.update memory (actionWord i 10) 0

/-- `lmice_spi::register_custom_event`. `trylock` is what `eal_spin_trylock` returns. -/
def registerCustomEvent (build : Build) (sessionId : UInt64) (processId : Int32) (trylock : Int)
    (eventList : List UInt64) (memory : Nat → UInt64) : Int × Option UInt64 × (Nat → UInt64) :=
  let instId := customEventId build sessionId processId eventList
  if trylock ≠ 0 then (trylock, none, memory)
  else
    match WorkerShm.firstFree fun i => (memory (actionWord i 1)).toNat with
    | none => (1, none, memory)
    | some i => (0, some instId, fillAction i instId eventList memory)

/-! ## Memory -/

section Memory

variable {a b : Nat} {xs : List UInt64} {memory : Nat → UInt64}

theorem writeWords_of_lt (h : b < a) : writeWords a xs memory b = memory b := by
  induction xs generalizing a memory with
  | nil => rfl
  | cons x xs ih => rw [writeWords, ih (Nat.lt_succ_of_lt h), Function.update_of_ne h.ne]

theorem writeWords_of_ge (h : a + xs.length ≤ b) : writeWords a xs memory b = memory b := by
  induction xs generalizing a memory with
  | nil => rfl
  | cons x xs ih =>
    rw [List.length_cons] at h
    have hne : b ≠ a := by omega
    rw [writeWords, ih (by omega), Function.update_of_ne hne]

theorem writeWords_add {k : Nat} {x : UInt64} (h : xs[k]? = some x) :
    writeWords a xs memory (a + k) = x := by
  induction xs generalizing a k memory with
  | nil => cases h
  | cons y ys ih =>
    rw [writeWords]
    cases k with
    | zero =>
      change writeWords (a + 1) ys (Function.update memory a y) a = x
      rw [writeWords_of_lt (Nat.lt_add_one a), Function.update_self]
      exact Option.some.inj h
    | succ k =>
      rw [show a + (k + 1) = a + 1 + k by omega]
      exact ih h

end Memory

section Fill

variable {i : ResSlot} {instId : UInt64} {eventList : List UInt64} {memory : Nat → UInt64}

/-- Away from the words from the first one of the slot to the last event, nothing is written. -/
theorem fillAction_frame {a : Nat} (ha : a < 11 * i.val ∨ 11 * i.val + 11 ≤ a)
    (hlen : eventList.length ≤ 8) : fillAction i instId eventList memory a = memory a := by
  have hne : ∀ k, k < 11 → a ≠ actionWord i k := by
    intro k hk
    rw [actionWord]
    omega
  unfold fillAction
  rw [Function.update_of_ne (hne 10 (by decide))]
  have hwrite : ∀ m : Nat → UInt64, writeWords (actionWord i 2) eventList m a = m a := by
    intro m
    rcases ha with ha | ha
    · refine writeWords_of_lt ?_
      rw [actionWord]
      omega
    · refine writeWords_of_ge ?_
      rw [actionWord]
      omega
  rw [hwrite, Function.update_of_ne (hne 1 (by decide)), Function.update_of_ne (hne 0 (by decide))]

theorem fillAction_event {k : Nat} {event : UInt64} (hk : k < 8)
    (h : eventList[k]? = some event) :
    fillAction i instId eventList memory (actionWord i (2 + k)) = event := by
  have hne : actionWord i (2 + k) ≠ actionWord i 10 := by
    rw [actionWord, actionWord]
    omega
  unfold fillAction
  rw [Function.update_of_ne hne, show actionWord i (2 + k) = actionWord i 2 + k by
    rw [actionWord, actionWord, Nat.add_assoc]]
  exact writeWords_add h

theorem fillAction_state : fillAction i instId eventList memory (actionWord i 10) = 0 :=
  Function.update_self ..

end Fill

/-! ## What a call writes -/

/-- The call has written the slot `i`, which was not in use, and nothing else: the slot holds
all the events, and its state is cleared. -/
structure WroteSlot (i : ResSlot) (eventList : List UInt64) (memory memory' : Nat → UInt64) :
    Prop where
  free : memory (actionWord i 1) = 0
  events : ∀ k event, eventList[k]? = some event →
    k < 8 ∧ memory' (actionWord i (2 + k)) = event
  state : memory' (actionWord i 10) = 0
  frame : ∀ a, a < 11 * i.val ∨ 11 * i.val + 11 ≤ a → memory' a = memory a

/-- A call fails without a write, or it writes just the slot it has found, if and only if
the lock is not free, or no slot is, or there are at most 8 events. -/
theorem custom_event_writes_slot_iff (build : Build) (sessionId : UInt64) (processId : Int32)
    (trylock : Int) (eventList : List UInt64) (memory : Nat → UInt64) :
    let result := registerCustomEvent build sessionId processId trylock eventList memory
    ((result.1 ≠ 0 ∧ result.2.2 = memory) ∨
      (result.1 = 0 ∧ ∃ i, WroteSlot i eventList memory result.2.2)) ↔
      trylock ≠ 0 ∨ (∀ i, memory (actionWord i 1) ≠ 0) ∨ eventList.length ≤ 8 := by
  unfold registerCustomEvent
  by_cases hlock : trylock = 0
  · simp only [hlock, ne_eq, not_true_eq_false, if_false, false_or]
    cases hfree : WorkerShm.firstFree fun i => (memory (actionWord i 1)).toNat with
    | none =>
      have hused := (WorkerShm.firstFree_eq_none_iff _).mp hfree
      have hused' : ∀ i, memory (actionWord i 1) ≠ 0 := by
        intro i hi
        exact hused i (by rw [hi]; rfl)
      exact iff_of_true (Or.inl ⟨Int.one_ne_zero, rfl⟩) (Or.inl hused')
    | some i =>
      have hi : memory (actionWord i 1) = 0 :=
        UInt64.toNat_inj.mp (WorkerShm.firstFree_eq_some hfree).1
      simp only [not_true_eq_false, false_and, true_and, false_or]
      constructor
      · rintro ⟨j, hwrote⟩
        refine Or.inr ?_
        by_contra hlen
        -- The ninth event has no place among the ids.
        have hninth := List.getElem?_eq_getElem (Nat.lt_of_not_le hlen)
        exact absurd (hwrote.events 8 _ hninth).1 (Nat.lt_irrefl 8)
      · rintro (hused | hlen)
        · exact absurd hi (hused i)
        · refine ⟨i, hi, fun k event hk => ?_, fillAction_state,
            fun a ha => fillAction_frame ha hlen⟩
          have hlt : k < 8 := Nat.lt_of_lt_of_le (List.getElem?_eq_some_iff.mp hk).1 hlen
          exact ⟨hlt, fillAction_event hlt hk⟩
  · simp [hlock]

/-- Memory in which no slot is in use but the second, which has the instance id 7. -/
def secondInUse : Nat → UInt64 := Function.update (fun _ => 0) 12 7

/-- Eleven events: the instance id of the second slot is overwritten. -/
theorem eleven_events_overwrite_slot :
    let result := registerCustomEvent .release 1 2 0 (List.replicate 11 5) secondInUse
    result.1 = 0 ∧ secondInUse 12 = 7 ∧ result.2.2 12 = 5 ∧
      ¬∃ i, WroteSlot i (List.replicate 11 5) secondInUse result.2.2 := by
  refine ⟨by decide +kernel, by decide, by decide +kernel, ?_⟩
  rintro ⟨i, hwrote⟩
  exact absurd (hwrote.events 8 5 rfl).1 (Nat.lt_irrefl 8)

/-! ## Calls that fit -/

/-- The record of an action in memory. -/
def actionAt (memory : Nat → UInt64) (i : ResSlot) : ActionRecord where
  type := (memory (actionWord i 0)).toNat % 2 ^ 32
  size := (memory (actionWord i 0)).toNat / 2 ^ 32
  instId := (memory (actionWord i 1)).toNat
  actIds k := memory (actionWord i (2 + k))
  state := ⟨fun k => UInt8.ofNat ((memory (actionWord i 10)).toNat / 256 ^ k.val)⟩

theorem typeSizeWord_toNat {size : Nat} (h : size ≤ 8) :
    (typeSizeWord size).toNat = customEventType + size * 2 ^ 32 := by
  have hlt : customEventType + size * 2 ^ 32 < 2 ^ 64 := by
    rw [customEventType]
    omega
  rw [typeSizeWord, Nat.mod_eq_of_lt (by omega), UInt64.toNat_ofNat', Nat.mod_eq_of_lt hlt]

/-- A word of the slot that the events do not reach. -/
theorem fillAction_word {i : ResSlot} {instId : UInt64} {eventList : List UInt64}
    {memory : Nat → UInt64} {k : Nat} (hlow : eventList.length ≤ k) (hk : k < 8) :
    fillAction i instId eventList memory (actionWord i (2 + k)) =
      memory (actionWord i (2 + k)) := by
  have hne : ∀ j, j < 2 ∨ j = 10 → actionWord i (2 + k) ≠ actionWord i j := by
    intro j hj
    rw [actionWord, actionWord]
    omega
  have hge : actionWord i 2 + eventList.length ≤ actionWord i (2 + k) := by
    rw [actionWord, actionWord]
    omega
  unfold fillAction
  rw [Function.update_of_ne (hne 10 (Or.inr rfl)), writeWords_of_ge hge,
    Function.update_of_ne (hne 1 (by decide)), Function.update_of_ne (hne 0 (by decide))]

/-- The words in front of the events. -/
theorem fillAction_head {i : ResSlot} {instId : UInt64} {eventList : List UInt64}
    {memory : Nat → UInt64} :
    fillAction i instId eventList memory (actionWord i 0) = typeSizeWord eventList.length ∧
      fillAction i instId eventList memory (actionWord i 1) = instId := by
  have hne : ∀ j k, j ≠ k → actionWord i j ≠ actionWord i k := by
    intro j k hjk
    rw [actionWord, actionWord]
    omega
  have hlt : ∀ j, j < 2 → actionWord i j < actionWord i 2 := by
    intro j hj
    rw [actionWord, actionWord]
    omega
  unfold fillAction
  constructor
  · rw [Function.update_of_ne (hne 0 10 (by decide)), writeWords_of_lt (hlt 0 (by decide)),
      Function.update_of_ne (hne 0 1 (by decide)), Function.update_self]
  · rw [Function.update_of_ne (hne 1 10 (by decide)), writeWords_of_lt (hlt 1 (by decide)),
      Function.update_self]

/-- The record that is written is that of the call of `Spi.Register`. -/
theorem actionAt_fillAction {i : ResSlot} {instId : UInt64} {eventList : List UInt64}
    {memory : Nat → UInt64} (hlen : eventList.length ≤ 8) :
    actionAt (fillAction i instId eventList memory) i =
      (customEventCall instId.toNat eventList hlen).fill (actionAt memory i) := by
  obtain ⟨htype, hinst⟩ := @fillAction_head i instId eventList memory
  have hids : ∀ k : Fin 8, fillAction i instId eventList memory (actionWord i (2 + k)) =
      eventList.getD k (memory (actionWord i (2 + k))) := by
    intro k
    rcases Nat.lt_or_ge k.val eventList.length with hk | hk
    · rw [List.getD_eq_getElem _ _ hk]
      exact fillAction_event k.isLt (List.getElem?_eq_getElem hk)
    · rw [List.getD_eq_default _ _ hk]
      exact fillAction_word hk k.isLt
  have hmod : (customEventType + eventList.length * 2 ^ 32) % 2 ^ 32 = customEventType := by
    rw [customEventType]
    omega
  have hdiv : (customEventType + eventList.length * 2 ^ 32) / 2 ^ 32 = eventList.length := by
    rw [customEventType]
    omega
  simp only [actionAt, customEventCall, htype, hinst, hids, fillAction_state,
    typeSizeWord_toNat hlen, hmod, hdiv]
  simp

/-- A call with at most 8 events is the call of `Spi.Register` on the records. -/
theorem actionAt_registerCustomEvent (build : Build) (sessionId : UInt64) (processId : Int32)
    {eventList : List UInt64} (hlen : eventList.length ≤ 8) (memory : Nat → UInt64) :
    actionAt (registerCustomEvent build sessionId processId 0 eventList memory).2.2 =
      (customEventCall (customEventId build sessionId processId eventList).toNat eventList
        hlen).apply (actionAt memory) := by
  unfold registerCustomEvent RegisterCall.apply
  have hscan : scanSlots (actionAt memory) =
      WorkerShm.firstFree fun i => (memory (actionWord i 1)).toNat := rfl
  rw [hscan, if_neg (not_not.mpr rfl)]
  generalize customEventId build sessionId processId eventList = instId
  cases WorkerShm.firstFree fun i => (memory (actionWord i 1)).toNat with
  | none => rfl
  | some i =>
    funext j
    dsimp only
    rcases eq_or_ne j i with rfl | hne
    · rw [Function.update_self]
      exact actionAt_fillAction hlen
    · -- The words of another slot are not written.
      have hval : j.val ≠ i.val := fun h => hne (Fin.ext h)
      have hframe : ∀ k, k < 11 →
          fillAction i instId eventList memory (actionWord j k) = memory (actionWord j k) := by
        intro k hk
        refine fillAction_frame ?_ hlen
        rw [actionWord]
        omega
      rw [Function.update_of_ne hne]
      have hids : ∀ k : Fin 8, fillAction i instId eventList memory (actionWord j (2 + k)) =
          memory (actionWord j (2 + k)) := fun k => hframe (2 + k) (by omega)
      simp only [actionAt, hframe 0 (by decide), hframe 1 (by decide), hframe 10 (by decide), hids]

end CustomEvent

end LMiced
