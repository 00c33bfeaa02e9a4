import LMiced.Spi.CustomEvent

/-!
# Event ids

The ids of ticks, timers and custom events. `register_tick_event`, `register_timer_event`
and `register_custom_event` of `spi/main.cpp`, and `lmsys_register_timer` of
`system/system_syscall.h`, compute them by a chain of hash calls, first over the variables
that say who registers what, then over the arguments.

* `Caller.eventId_eq` and `customEventId_eq`: an id is a hash of some pieces of memory, one
  after the other;
* `event_ids_collide_iff`: two ids with the same arguments are the same, if and only if
  the hashes of what comes before the arguments are.
-/

namespace LMiced

namespace EventId

/-! ## The ids -/

/-- The id in `register_tick_event`. -/
def tickEventId (build : Build) (sessionId instId : UInt64) (period size due : Int32) : UInt64 :=
  let ret := Int32.ofNat tickerType
  let id := ealHash64Fnv1a build (bytes64 sessionId)
  let id := ealHash64MoreFnv1a build (bytes64 instId) id
  let id := ealHash64MoreFnv1a build (bytes32 ret) id
  let id := ealHash64MoreFnv1a build (bytes32 due) id
  let id := ealHash64MoreFnv1a build (bytes32 period) id
  ealHash64MoreFnv1a build (bytes32 size) id

/-- The id in `register_timer_event`. -/
def timerEventId (build : Build) (sessionId : UInt64) (processId period size due : Int32) :
    UInt64 :=
  let ret := Int32.ofNat timerType
  let id := ealHash64Fnv1a build (bytes64 sessionId)
  let id := ealHash64MoreFnv1a build (bytes32 processId) id
  let id := ealHash64MoreFnv1a build (bytes32 ret) id
  let id := ealHash64MoreFnv1a build (bytes32 due) id
  let id := ealHash64MoreFnv1a build (bytes32 period) id
  ealHash64MoreFnv1a build (bytes32 size) id

/-- The id in `lmsys_register_timer`, which leaves the session out. -/
def lmsysTimerId (build : Build) (processId period size due : Int32) : UInt64 :=
  let ret := Int32.ofNat timerType
  let id := ealHash64Fnv1a build (bytes32 processId)
  let id := ealHash64MoreFnv1a build (bytes32 ret) id
  let id := ealHash64MoreFnv1a build (bytes32 due) id
  let id := ealHash64MoreFnv1a build (bytes32 period) id
  ealHash64MoreFnv1a build (bytes32 size) id

/-! ## Hashes of pieces -/

/-- Hash some pieces of memory, one call after the other. -/
def hashPieces (build : Build) (pieces : List (List UInt8)) (oldval : UInt64) : UInt64 :=
  pieces.foldl (fun hval piece => ealHash64MoreFnv1a build piece hval) oldval

/-- A chain of hash calls that begins with `eal_hash64_fnv1a`. -/
def hashChain (build : Build) : List (List UInt8) → UInt64
  | [] => ealHash64Fnv1a build []
  | piece :: pieces => hashPieces build pieces (ealHash64Fnv1a build piece)

theorem hashPieces_append (build : Build) (pieces more : List (List UInt8)) (oldval : UInt64) :
    hashPieces build (pieces ++ more) oldval =
      hashPieces build more (hashPieces build pieces oldval) :=
  List.foldl_append

/-- The chain could as well begin with `eal_hash64_more_fnv1a` at the FNV offset. -/
theorem hashChain_eq (build : Build) (pieces : List (List UInt8)) :
    hashChain build pieces = hashPieces build pieces 14695981039346656037 := by
  cases pieces with
  | nil => rfl
  | cons piece pieces => rfl

theorem hashChain_append (build : Build) (pieces more : List (List UInt8)) :
    hashChain build (pieces ++ more) = hashPieces build more (hashChain build pieces) := by
  rw [hashChain_eq, hashChain_eq, hashPieces_append]

theorem hashPieces_bijective (build : Build) (pieces : List (List UInt8)) :
    Function.Bijective (hashPieces build pieces) :=
  Loop.foldl_bijective (ealHash64MoreFnv1a_bijective build) pieces

/-- The same pieces behind two chains keep them apart. -/
theorem hashChain_append_inj (build : Build) (before before' after : List (List UInt8)) :
    hashChain build (before ++ after) = hashChain build (before' ++ after) ↔
      hashChain build before = hashChain build before' := by
  rw [hashChain_append, hashChain_append]
  exact (hashPieces_bijective build after).injective.eq_iff

/-! ## The pieces of the ids -/

/-- What the ids of a process begin with: the session, the process and the type. -/
def processPieces (sessionId : UInt64) (processId type : Int32) : List (List UInt8) :=
  [bytes64 sessionId, bytes32 processId, bytes32 type]

/-- Which function registers a tick or a timer, and the variables it hashes first. -/
inductive Caller
  | tickEvent (sessionId instId : UInt64)
  | timerEvent (sessionId : UInt64) (processId : Int32)
  | lmsysTimer (processId : Int32)
deriving DecidableEq, Repr

/-- The pieces before the arguments. -/
def Caller.pieces : Caller → List (List UInt8)
  | tickEvent sessionId instId =>
    [bytes64 sessionId, bytes64 instId, bytes32 (Int32.ofNat tickerType)]
  | timerEvent sessionId processId => processPieces sessionId processId (Int32.ofNat timerType)
  | lmsysTimer processId => [bytes32 processId, bytes32 (Int32.ofNat timerType)]

/-- The id that the function computes. -/
def Caller.eventId (build : Build) (caller : Caller) (period size due : Int32) : UInt64 :=
  match caller with
  | tickEvent sessionId instId => tickEventId build sessionId instId period size due
  | timerEvent sessionId processId => timerEventId build sessionId processId period size due
  | lmsysTimer processId => lmsysTimerId build processId period size due

theorem Caller.eventId_eq (build : Build) (caller : Caller) (period size due : Int32) :
    caller.eventId build period size due =
      hashChain build (caller.pieces ++ [bytes32 due, bytes32 period, bytes32 size]) := by
  cases caller with
  | tickEvent sessionId instId => rfl
  | timerEvent sessionId processId => rfl
  | lmsysTimer processId => rfl

theorem customEventId_eq (build : Build) (sessionId : UInt64) (processId : Int32)
    (eventList : List UInt64) :
    CustomEvent.customEventId build sessionId processId eventList =
      hashChain build (processPieces sessionId processId CustomEvent.customType ++
        bytes64 (UInt64.ofNat eventList.length) :: eventList.map bytes64) := by
  rw [hashChain_append, hashPieces, List.foldl_cons, List.foldl_map]
  rfl

/-- Hashing more bytes is a bijection. The same pieces behind two chains of hash calls
therefore give the same id only if they gave the same before, and so do the same
arguments of two register functions, and the same list of two custom events. -/
theorem event_ids_collide_iff (build : Build) :
    (∀ data, Function.Bijective (ealHash64MoreFnv1a build data)) ∧
    (∀ before before' after,
      hashChain build (before ++ after) = hashChain build (before' ++ after) ↔
        hashChain build before = hashChain build before') ∧
    (∀ (caller caller' : Caller) (period size due : Int32),
      caller.eventId build period size due = caller'.eventId build period size due ↔
        hashChain build caller.pieces = hashChain build caller'.pieces) ∧
    ∀ (sessionId sessionId' : UInt64) (processId processId' : Int32) (eventList : List UInt64),
      CustomEvent.customEventId build sessionId processId eventList =
          CustomEvent.customEventId build sessionId' processId' eventList ↔
        hashChain build (processPieces sessionId processId CustomEvent.customType) =
          hashChain build (processPieces sessionId' processId' CustomEvent.customType) := by
  refine ⟨ealHash64MoreFnv1a_bijective build, hashChain_append_inj build,
    fun caller caller' period size due => ?_,
    fun sessionId sessionId' processId processId' eventList => ?_⟩
  · rw [caller.eventId_eq, caller'.eventId_eq]
    exact hashChain_append_inj build _ _ _
  · rw [customEventId_eq, customEventId_eq]
    exact hashChain_append_inj build _ _ _

-- Two processes, with a timer that is the same.
example : (Caller.timerEvent 0 100).eventId .release 10 8 0 ≠
    (Caller.timerEvent 0 101).eventId .release 10 8 0 := by decide

end EventId

end LMiced
