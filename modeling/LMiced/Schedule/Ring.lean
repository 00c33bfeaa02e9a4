import LMiced.Lib.Run

/-!
# The task ring

The ring of 32 task slots in `schedule/action_schedule.c`. Producers pick an
empty slot, fill it and post it; consumers acquire a posted slot, process it and
release it. A slot is claimed by a compare-and-swap of its lock word, and the
slots are searched from a position that is advanced by a separate
fetch-and-add, so the positions drift.

Any number of parties take part, and every step of the model is one atomic
operation of one party. `posted`, `ticket` and `acquired` record the history: the
contents that were posted, which of them stands in a slot, and which were
acquired.

* `RingInv` is preserved by every step;
* `ring_of_run` collects what follows for every reachable state.
-/

namespace LMiced

/-! ## Data model -/

/-- `TASKPROC_LIST_SIZE`. -/
abbrev taskprocListSize : Nat := 32

/-- `LM_RING_NOT_USE`. -/
def lmRingNotUse : Int := 0

/-- `LM_RING_READ`. -/
def lmRingRead : Int := 1

/-- `LM_RING_READING`. -/
def lmRingReading : Int := 2

/-- `LM_RING_WRITE`, the code of `LM_RING_READ`. -/
def lmRingWrite : Int := 1

/-- `LM_RING_WRITING`, the code of `LM_RING_READING`. -/
def lmRingWriting : Int := 2

/-- A task slot of the ring. -/
abbrev RingSlot := Fin taskprocListSize

/-- `cur_pos & (TASKPROC_LIST_SIZE - 1)`. -/
def slotOf (curPos : UInt64) : RingSlot :=
  ⟨(curPos &&& 31).toNat, Nat.lt_of_le_of_lt
    (by rw [UInt64.toNat_and]; exact Nat.and_le_right) (by decide : 31 < taskprocListSize)⟩

/-- Where a party stands. The loops carry their index `i` and position; a consumer
carries the ticket of the task it has acquired. -/
inductive RingPc
  | idle
  | picking (i : Nat) (curPos : UInt64)
  | picked (i : Nat) (slot : RingSlot)
  | filling (slot : RingSlot)
  | acquiring (i : Nat) (curPos : UInt64)
  | acquired (i : Nat) (slot : RingSlot) (ticket : Nat)
  | processing (slot : RingSlot) (ticket : Nat)
deriving DecidableEq, Repr

/-- The slot a party owns. -/
def RingPc.owned : RingPc → Option RingSlot
  | .picked _ slot => some slot
  | .filling slot => some slot
  | .acquired _ slot _ => some slot
  | .processing slot _ => some slot
  | _ => none

/-- The slot a consumer holds, and the ticket of the task it acquired there. -/
def RingPc.held : RingPc → Option (RingSlot × Nat)
  | .acquired _ slot ticket => some (slot, ticket)
  | .processing slot ticket => some (slot, ticket)
  | _ => none

/-- `lmshd_ring_t` with the parties that work on it. `content` is the part of a task
beside its lock. -/
structure Ring (P α : Type) where
  readPos : UInt64
  writePos : UInt64
  lock : RingSlot → Int
  content : RingSlot → α
  pc : P → RingPc
  posted : List α
  ticket : RingSlot → Nat
  acquired : List Nat

/-- One atomic operation of a party. -/
inductive RingEvent (P α : Type)
  | loadWrite (p : P)
  | casPick (p : P)
  | addWrite (p : P)
  | fill (p : P) (v : α)
  | casPost (p : P)
  | loadRead (p : P)
  | casAcquire (p : P)
  | addRead (p : P)
  | casRelease (p : P)

namespace Ring

variable {P α : Type} [DecidableEq P]

def setPc (s : Ring P α) (p : P) (pc : RingPc) : Ring P α :=
  { s with pc := Function.update s.pc p pc }

def setLock (s : Ring P α) (slot : RingSlot) (lock : Int) : Ring P α :=
  { s with lock := Function.update s.lock slot lock }

/-- The loop of `lmice_pick_task` goes on to the next slot, or returns 1. -/
def pickNext (s : Ring P α) (p : P) (i : Nat) (curPos : UInt64) : Ring P α :=
  s.setPc p (if i + 1 < taskprocListSize then .picking (i + 1) (curPos + 1) else .idle)

/-- The loop of `lmice_acquire_task` goes on to the next slot, or returns 1. -/
def acquireNext (s : Ring P α) (p : P) (i : Nat) (curPos : UInt64) : Ring P α :=
  s.setPc p (if i + 1 < taskprocListSize then .acquiring (i + 1) (curPos + 1) else .idle)

/-- The slot is posted: its content gets the next ticket. -/
def post (s : Ring P α) (slot : RingSlot) : Ring P α :=
  { s.setLock slot lmRingWrite with
    posted := s.posted ++ [s.content slot]
    ticket := Function.update s.ticket slot s.posted.length }

/-- The slot is acquired by the party `p` in the `i`th turn of its loop. -/
def acquire (s : Ring P α) (p : P) (i : Nat) (slot : RingSlot) : Ring P α :=
  { (s.setLock slot lmRingReading).setPc p (.acquired i slot (s.ticket slot)) with
    acquired := s.ticket slot :: s.acquired }

end Ring

/-- The atomic operations of `lmice_pick_task`, the writing of a task and
`lmice_post_task`, and of `lmice_acquire_task` and `lmice_release_task`. -/
def RingEvent.step {P α : Type} [DecidableEq P] : RingEvent P α → Ring P α → Option (Ring P α)
  | .loadWrite p, s =>
    match s.pc p with
    | .idle => some (s.setPc p (.picking 0 s.writePos))
    | _ => none
  | .casPick p, s =>
    match s.pc p with
    | .picking i curPos =>
      if s.lock (slotOf curPos) = lmRingNotUse then
        some ((s.setLock (slotOf curPos) lmRingWriting).setPc p (.picked i (slotOf curPos)))
      else some (s.pickNext p i curPos)
    | _ => none
  | .addWrite p, s =>
    match s.pc p with
    | .picked i slot =>
      some ({ s with writePos := s.writePos + UInt64.ofNat (i + 1) }.setPc p (.filling slot))
    | _ => none
  | .fill p v, s =>
    match s.pc p with
    | .filling slot => some { s with content := Function.update s.content slot v }
    | _ => none
  | .casPost p, s =>
    match s.pc p with
    | .filling slot =>
      some ((if s.lock slot = lmRingWriting then s.post slot else s).setPc p .idle)
    | _ => none
  | .loadRead p, s =>
    match s.pc p with
    | .idle => some (s.setPc p (.acquiring 0 s.readPos))
    | _ => none
  | .casAcquire p, s =>
    match s.pc p with
    | .acquiring i curPos =>
      if s.lock (slotOf curPos) = lmRingRead then some (s.acquire p i (slotOf curPos))
      else some (s.acquireNext p i curPos)
    | _ => none
  | .addRead p, s =>
    match s.pc p with
    | .acquired i slot ticket =>
      some ({ s with readPos := s.readPos + UInt64.ofNat (i + 1) }.setPc p
        (.processing slot ticket))
    | _ => none
  | .casRelease p, s =>
    match s.pc p with
    | .processing slot _ =>
      some ((if s.lock slot = lmRingReading then s.setLock slot lmRingNotUse else s).setPc p .idle)
    | _ => none

/-- The ring before any party has started, with any positions and contents. -/
def Ring.init {P α : Type} (readPos writePos : UInt64) (content : RingSlot → α) : Ring P α where
  readPos := readPos
  writePos := writePos
  lock _ := lmRingNotUse
  content := content
  pc _ := .idle
  posted := []
  ticket _ := 0
  acquired := []

/-! ## The invariant -/

/-- A claimed slot has one owner. A posted slot holds the content of its ticket, which
nobody has acquired, and a consumer holds the content of the ticket it acquired. -/
structure RingInv {P α : Type} (s : Ring P α) : Prop where
  claimed : ∀ p slot, (s.pc p).owned = some slot → s.lock slot = 2
  owner : ∀ p q slot, (s.pc p).owned = some slot → (s.pc q).owned = some slot → p = q
  posted : ∀ slot, s.lock slot = 1 → s.posted[s.ticket slot]? = some (s.content slot)
  fresh : ∀ slot, s.lock slot = 1 → s.ticket slot ∉ s.acquired
  distinct : ∀ a b, s.lock a = 1 → s.lock b = 1 → s.ticket a = s.ticket b → a = b
  held : ∀ p slot ticket, (s.pc p).held = some (slot, ticket) →
    ticket ∈ s.acquired ∧ s.posted[ticket]? = some (s.content slot)
  known : ∀ ticket ∈ s.acquired, ticket < s.posted.length
  once : s.acquired.Nodup

theorem RingPc.owned_of_held {pc : RingPc} {slot : RingSlot} {ticket : Nat}
    (h : pc.held = some (slot, ticket)) : pc.owned = some slot := by
  cases pc <;> cases h <;> rfl

section Invariant

variable {P α : Type} {s : Ring P α} {p : P} {slot : RingSlot}

theorem RingInv.init (readPos writePos : UInt64) (content : RingSlot → α) :
    RingInv (Ring.init readPos writePos content : Ring P α) where
  claimed _ _ h := nomatch h
  owner _ _ _ h := nomatch h
  posted _ h := nomatch h
  fresh _ h := nomatch h
  distinct _ _ h := nomatch h
  held _ _ _ h := nomatch h
  known _ h := nomatch h
  once := List.nodup_nil

/-- The positions do not matter. -/
theorem RingInv.of_positions (hs : RingInv s) (readPos writePos : UInt64) :
    RingInv { s with readPos := readPos, writePos := writePos } :=
  ⟨hs.claimed, hs.owner, hs.posted, hs.fresh, hs.distinct, hs.held, hs.known, hs.once⟩

variable [DecidableEq P]

/-- A party goes on without claiming or giving up a slot. -/
theorem RingInv.goOn (hs : RingInv s) {pc : RingPc} (howned : pc.owned = (s.pc p).owned)
    (hheld : pc.held = (s.pc p).held) : RingInv (s.setPc p pc) := by
  have hown : ∀ q, ((s.setPc p pc).pc q).owned = (s.pc q).owned := by
    intro q
    by_cases hq : q = p
    · subst hq
      simp [Ring.setPc, howned]
    · simp [Ring.setPc, hq]
  have hhold : ∀ q, ((s.setPc p pc).pc q).held = (s.pc q).held := by
    intro q
    by_cases hq : q = p
    · subst hq
      simp [Ring.setPc, hheld]
    · simp [Ring.setPc, hq]
  refine ⟨fun q slot h => ?_, fun q r slot h h' => ?_, hs.posted, hs.fresh, hs.distinct,
    fun q slot ticket h => ?_, hs.known, hs.once⟩
  · exact hs.claimed q slot (hown q ▸ h)
  · exact hs.owner q r slot (hown q ▸ h) (hown r ▸ h')
  · exact hs.held q slot ticket (hhold q ▸ h)

/-- Who owns a slot after the party `p` has claimed one. -/
theorem owned_claim {pc : RingPc} (howned : pc.owned = some slot) {q : P} {slot' : RingSlot}
    (h : ((s.setPc p pc).pc q).owned = some slot') :
    (q = p ∧ slot' = slot) ∨ (q ≠ p ∧ (s.pc q).owned = some slot') := by
  by_cases hq : q = p
  · subst hq
    simp only [Ring.setPc, Function.update_self, howned] at h
    exact Or.inl ⟨rfl, (Option.some.inj h).symm⟩
  · simp only [Ring.setPc, Function.update_of_ne hq] at h
    exact Or.inr ⟨hq, h⟩

/-- A party claims a slot that is not claimed. -/
theorem RingInv.claim_owner (hs : RingInv s) (hfree : s.lock slot ≠ 2) {pc : RingPc}
    (howned : pc.owned = some slot) (q r : P) (slot' : RingSlot)
    (hq : ((s.setPc p pc).pc q).owned = some slot')
    (hr : ((s.setPc p pc).pc r).owned = some slot') : q = r := by
  rcases owned_claim howned hq with ⟨rfl, rfl⟩ | ⟨_, hq'⟩
  · rcases owned_claim howned hr with ⟨rfl, _⟩ | ⟨_, hr'⟩
    · rfl
    · exact absurd (hs.claimed r slot' hr') hfree
  · rcases owned_claim howned hr with ⟨rfl, rfl⟩ | ⟨_, hr'⟩
    · exact absurd (hs.claimed q slot' hq') hfree
    · exact hs.owner q r slot' hq' hr'

theorem RingInv.pick (hs : RingInv s) (hfree : s.lock slot = lmRingNotUse) (i : Nat) :
    RingInv ((s.setLock slot lmRingWriting).setPc p (.picked i slot)) := by
  have hne : s.lock slot ≠ 2 := by
    rw [hfree]
    decide
  -- The claim of a slot posts none.
  have hposted : ∀ slot', (s.setLock slot lmRingWriting).lock slot' = 1 →
      s.lock slot' = 1 := by
    intro slot' h
    by_cases hslot : slot' = slot
    · subst hslot
      simp [Ring.setLock, lmRingWriting] at h
    · simpa [Ring.setLock, hslot] using h
  refine ⟨fun q slot' h => ?_, fun q r slot' => hs.claim_owner hne rfl q r slot',
    fun a h => hs.posted a (hposted a h), fun a h => hs.fresh a (hposted a h),
    fun a b ha hb => hs.distinct a b (hposted a ha) (hposted b hb), fun q slot' ticket h => ?_,
    hs.known, hs.once⟩
  · rcases owned_claim rfl h with ⟨_, rfl⟩ | ⟨_, hq⟩
    · simp [Ring.setLock, Ring.setPc, lmRingWriting]
    · have hlock := hs.claimed q slot' hq
      by_cases hslot : slot' = slot
      · subst hslot
        exact absurd hlock hne
      · simpa [Ring.setLock, Ring.setPc, hslot] using hlock
  · by_cases hq : q = p
    · subst hq
      simp [Ring.setPc, RingPc.held] at h
    · exact hs.held q slot' ticket (by simpa [Ring.setPc, Ring.setLock, hq] using h)

theorem RingInv.acquire (hs : RingInv s) (hread : s.lock slot = lmRingRead) (i : Nat) :
    RingInv (s.acquire p i slot) := by
  have hne : s.lock slot ≠ 2 := by
    rw [hread]
    decide
  have hposted : ∀ slot', (s.acquire p i slot).lock slot' = 1 →
      s.lock slot' = 1 ∧ slot' ≠ slot := by
    intro slot' h
    by_cases hslot : slot' = slot
    · subst hslot
      simp [Ring.acquire, Ring.setLock, Ring.setPc, lmRingReading] at h
    · exact ⟨by simpa [Ring.acquire, Ring.setLock, Ring.setPc, hslot] using h, hslot⟩
  refine ⟨fun q slot' h => ?_, fun q r slot' => hs.claim_owner hne rfl q r slot',
    fun a h => hs.posted a (hposted a h).1, fun a h hmem => ?_,
    fun a b ha hb => hs.distinct a b (hposted a ha).1 (hposted b hb).1,
    fun q slot' ticket h => ?_, fun ticket hmem => ?_, ?_⟩
  · rcases owned_claim (s := s) (p := p) rfl h with ⟨_, rfl⟩ | ⟨_, hq⟩
    · simp [Ring.acquire, Ring.setLock, Ring.setPc, lmRingReading]
    · have hlock := hs.claimed q slot' hq
      by_cases hslot : slot' = slot
      · subst hslot
        exact absurd hlock hne
      · simpa [Ring.acquire, Ring.setLock, Ring.setPc, hslot] using hlock
  · -- The ticket of another posted slot is not the one just acquired.
    rcases List.mem_cons.mp hmem with heq | hmem
    · exact (hposted a h).2 (hs.distinct a slot (hposted a h).1 hread heq)
    · exact hs.fresh a (hposted a h).1 hmem
  · by_cases hq : q = p
    · subst hq
      simp only [Ring.acquire, Ring.setPc, Function.update_self, RingPc.held, Option.some.injEq,
        Prod.mk.injEq] at h
      obtain ⟨rfl, rfl⟩ := h
      exact ⟨List.mem_cons_self, hs.posted slot hread⟩
    · have hold := hs.held q slot' ticket
        (by simpa [Ring.acquire, Ring.setPc, Ring.setLock, hq] using h)
      exact ⟨List.mem_cons_of_mem _ hold.1, hold.2⟩
  · rcases List.mem_cons.mp hmem with rfl | hmem
    · exact (List.getElem?_eq_some_iff.mp (hs.posted slot hread)).1
    · exact hs.known ticket hmem
  · exact List.nodup_cons.mpr ⟨hs.fresh slot hread, hs.once⟩

omit [DecidableEq P] in
/-- Only the producer that owns a slot writes its content. -/
theorem RingInv.fill (hs : RingInv s) (hpc : s.pc p = .filling slot) (v : α) :
    RingInv { s with content := Function.update s.content slot v } := by
  have hown : (s.pc p).owned = some slot := by rw [hpc]; rfl
  have hlock := hs.claimed p slot hown
  refine ⟨hs.claimed, hs.owner, fun a h => ?_, hs.fresh, hs.distinct, fun q a ticket h => ?_,
    hs.known, hs.once⟩
  · have hne : a ≠ slot := by
      rintro rfl
      exact absurd (h.symm.trans hlock) (by decide)
    simpa [hne] using hs.posted a h
  · have hne : a ≠ slot := by
      rintro rfl
      have hqp := hs.owner q p a (RingPc.owned_of_held h) hown
      subst hqp
      rw [hpc] at h
      cases h
    have hold := hs.held q a ticket h
    exact ⟨hold.1, by simpa [hne] using hold.2⟩

/-- Who owns a slot after the party `p` has given up the one it owned. -/
theorem owned_giveUp {q : P} {slot' : RingSlot}
    (h : ((s.setPc p .idle).pc q).owned = some slot') :
    q ≠ p ∧ (s.pc q).owned = some slot' := by
  by_cases hq : q = p
  · subst hq
    simp [Ring.setPc, RingPc.owned] at h
  · exact ⟨hq, by simpa [Ring.setPc, hq] using h⟩

theorem RingInv.giveUp_ne (hs : RingInv s) (hown : (s.pc p).owned = some slot) {q : P}
    {slot' : RingSlot} (h : ((s.setPc p .idle).pc q).owned = some slot') : slot' ≠ slot := by
  rintro rfl
  obtain ⟨hq, h⟩ := owned_giveUp h
  exact hq (hs.owner q p slot' h hown)

theorem RingInv.post (hs : RingInv s) (hpc : s.pc p = .filling slot) :
    RingInv ((s.post slot).setPc p .idle) := by
  have hown : (s.pc p).owned = some slot := by rw [hpc]; rfl
  have hlock := hs.claimed p slot hown
  -- The posted slots are the old ones and `slot`, whose ticket is new.
  have hposted : ∀ a, a ≠ slot → ((s.post slot).setPc p .idle).lock a = 1 → s.lock a = 1 := by
    intro a ha h
    simpa [Ring.post, Ring.setPc, Ring.setLock, ha] using h
  have hticket : ∀ a, a ≠ slot → s.lock a = 1 → s.ticket a < s.posted.length := fun a _ h =>
    (List.getElem?_eq_some_iff.mp (hs.posted a h)).1
  have hold : ∀ (ticket : Nat) (v : α), s.posted[ticket]? = some v →
      (s.posted ++ [s.content slot])[ticket]? = some v := by
    intro ticket v h
    rw [List.getElem?_append_left (List.getElem?_eq_some_iff.mp h).1]
    exact h
  refine ⟨fun q a h => ?_, fun q r a h h' => ?_, fun a h => ?_, fun a h hmem => ?_,
    fun a b ha hb hab => ?_, fun q a ticket h => ?_, fun ticket hmem => ?_, hs.once⟩
  · have hne := hs.giveUp_ne hown h
    simpa [Ring.post, Ring.setPc, Ring.setLock, hne] using hs.claimed q a (owned_giveUp h).2
  · exact hs.owner q r a (owned_giveUp h).2 (owned_giveUp h').2
  · by_cases ha : a = slot
    · subst ha
      simp [Ring.post, Ring.setPc, Ring.setLock]
    · simpa [Ring.post, Ring.setPc, Ring.setLock, ha] using hold _ _ (hs.posted a (hposted a ha h))
  · by_cases ha : a = slot
    · subst ha
      have hknown := hs.known _ hmem
      simp [Ring.post, Ring.setPc, Ring.setLock] at hknown
    · refine hs.fresh a (hposted a ha h) ?_
      simpa [Ring.post, Ring.setPc, Ring.setLock, ha] using hmem
  · by_cases ha' : a = slot
    · by_cases hb' : b = slot
      · rw [ha', hb']
      · have hlt := hticket b hb' (hposted b hb' hb)
        simp only [Ring.post, Ring.setPc, Ring.setLock, ha', Function.update_self,
          Function.update_of_ne hb'] at hab
        omega
    · by_cases hb' : b = slot
      · have hlt := hticket a ha' (hposted a ha' ha)
        simp only [Ring.post, Ring.setPc, Ring.setLock, hb', Function.update_self,
          Function.update_of_ne ha'] at hab
        omega
      · refine hs.distinct a b (hposted a ha' ha) (hposted b hb' hb) ?_
        simpa [Ring.post, Ring.setPc, Ring.setLock, ha', hb'] using hab
  · by_cases hq : q = p
    · subst hq
      simp [Ring.setPc, RingPc.held] at h
    · have hq' : (s.pc q).held = some (a, ticket) := by
        simpa [Ring.post, Ring.setPc, Ring.setLock, hq] using h
      have hheld := hs.held q a ticket hq'
      exact ⟨hheld.1, hold _ _ hheld.2⟩
  · have hlt := hs.known ticket hmem
    simp only [Ring.post, Ring.setPc, Ring.setLock, List.length_append, List.length_singleton]
    omega

theorem RingInv.release (hs : RingInv s) (hown : (s.pc p).owned = some slot) :
    RingInv ((s.setLock slot lmRingNotUse).setPc p .idle) := by
  have hposted : ∀ a, ((s.setLock slot lmRingNotUse).setPc p .idle).lock a = 1 →
      s.lock a = 1 := by
    intro a h
    by_cases ha : a = slot
    · subst ha
      simp [Ring.setPc, Ring.setLock, lmRingNotUse] at h
    · simpa [Ring.setPc, Ring.setLock, ha] using h
  refine ⟨fun q a h => ?_, fun q r a h h' => ?_, fun a h => hs.posted a (hposted a h),
    fun a h => hs.fresh a (hposted a h),
    fun a b ha hb => hs.distinct a b (hposted a ha) (hposted b hb),
    fun q a ticket h => ?_, hs.known, hs.once⟩
  · have hne := hs.giveUp_ne hown h
    simpa [Ring.setPc, Ring.setLock, hne] using hs.claimed q a (owned_giveUp h).2
  · exact hs.owner q r a (owned_giveUp h).2 (owned_giveUp h').2
  · by_cases hq : q = p
    · subst hq
      simp [Ring.setPc, RingPc.held] at h
    · exact hs.held q a ticket (by simpa [Ring.setPc, Ring.setLock, hq] using h)

/-- Every atomic operation of every party keeps the invariant. -/
theorem RingInv.step {s' : Ring P α} {e : RingEvent P α} (hs : RingInv s)
    (h : e.step s = some s') : RingInv s' := by
  cases e with
  | loadWrite p =>
    simp only [RingEvent.step] at h
    split at h
    · next hpc =>
      cases h
      exact hs.goOn (by rw [hpc]; rfl) (by rw [hpc]; rfl)
    · cases h
  | casPick p =>
    simp only [RingEvent.step] at h
    split at h
    · next i curPos hpc =>
      split_ifs at h with hfree
      · cases h
        exact hs.pick hfree i
      · cases h
        -- The exchange has failed, and only the party itself goes on.
        refine hs.goOn ?_ ?_ <;> rw [hpc] <;> split_ifs <;> rfl
    · cases h
  | addWrite p =>
    simp only [RingEvent.step] at h
    split at h
    · next i slot hpc =>
      cases h
      exact (hs.of_positions s.readPos _).goOn (by rw [hpc]; rfl) (by rw [hpc]; rfl)
    · cases h
  | fill p v =>
    simp only [RingEvent.step] at h
    split at h
    · next slot hpc =>
      cases h
      exact hs.fill hpc v
    · cases h
  | casPost p =>
    simp only [RingEvent.step] at h
    split at h
    · next slot hpc =>
      -- The producer owns the slot, so the exchange succeeds.
      have hlock : s.lock slot = lmRingWriting := hs.claimed p slot (by rw [hpc]; rfl)
      rw [if_pos hlock] at h
      cases h
      exact hs.post hpc
    · cases h
  | loadRead p =>
    simp only [RingEvent.step] at h
    split at h
    · next hpc =>
      cases h
      exact hs.goOn (by rw [hpc]; rfl) (by rw [hpc]; rfl)
    · cases h
  | casAcquire p =>
    simp only [RingEvent.step] at h
    split at h
    · next i curPos hpc =>
      split_ifs at h with hread
      · cases h
        exact hs.acquire hread i
      · cases h
        refine hs.goOn ?_ ?_ <;> rw [hpc] <;> split_ifs <;> rfl
    · cases h
  | addRead p =>
    simp only [RingEvent.step] at h
    split at h
    · next i slot ticket hpc =>
      cases h
      exact (hs.of_positions _ s.writePos).goOn (by rw [hpc]; rfl) (by rw [hpc]; rfl)
    · cases h
  | casRelease p =>
    simp only [RingEvent.step] at h
    split at h
    · next slot ticket hpc =>
      have hown : (s.pc p).owned = some slot := by rw [hpc]; rfl
      -- The consumer owns the slot, so the exchange succeeds.
      have hlock : s.lock slot = lmRingReading := hs.claimed p slot hown
      rw [if_pos hlock] at h
      cases h
      exact hs.release hown
    · cases h

end Invariant

/-! ## Searching the ring -/

theorem slotOf_val (pos : UInt64) : (slotOf pos).val = pos.toNat % 32 := by
  have hand : pos.toNat &&& (2 ^ 5 - 1) = pos.toNat % 2 ^ 5 := Nat.and_two_pow_sub_one_eq_mod _ 5
  simpa [slotOf, UInt64.toNat_and] using hand

/-- From every position, 32 turns reach every slot. -/
theorem exists_slotOf_add (pos : UInt64) (slot : RingSlot) :
    ∃ i < taskprocListSize, slotOf (pos + UInt64.ofNat i) = slot := by
  have hslot : slot.val < 32 := slot.isLt
  have hdvd : 32 ∣ 2 ^ 64 := by decide
  refine ⟨(slot.val + (32 - pos.toNat % 32)) % 32, Nat.mod_lt _ (by decide), ?_⟩
  apply Fin.ext
  rw [slotOf_val, UInt64.toNat_add, UInt64.toNat_ofNat', Nat.mod_mod_of_dvd _ hdvd, Nat.add_mod,
    Nat.mod_mod_of_dvd _ hdvd]
  omega

section Call

variable {P α : Type} [DecidableEq P] {s : Ring P α} {p : P}

/-- The atomic operations of one call of `lmice_acquire_task` that finds a posted task
in turn `i` of its loop. -/
def acquireCall (p : P) (i : Nat) : List (RingEvent P α) :=
  (.loadRead p :: List.replicate i (.casAcquire p)) ++ [.casAcquire p, .addRead p]

/-- A call that has found no posted task in the first `i` turns of its loop. -/
theorem execute_scan (hidle : s.pc p = .idle) {i : Nat} (hi : i < taskprocListSize)
    (hscan : ∀ j < i, s.lock (slotOf (s.readPos + UInt64.ofNat j)) ≠ lmRingRead) :
    Run.execute RingEvent.step (fun _ _ => True) (.loadRead p :: List.replicate i (.casAcquire p))
      s = some (s.setPc p (.acquiring i (s.readPos + UInt64.ofNat i))) := by
  induction i with
  | zero => simp [Run.execute, RingEvent.step, hidle]
  | succ i ih =>
    have hprev := ih (by omega) fun j hj => hscan j (by omega)
    have hpos : s.readPos + UInt64.ofNat i + 1 = s.readPos + UInt64.ofNat (i + 1) := by
      rw [UInt64.ofNat_add, UInt64.add_assoc]
      rfl
    have hne := hscan i (Nat.lt_succ_self i)
    rw [List.replicate_succ', ← List.cons_append, Run.execute_append, hprev]
    simp [Run.execute, RingEvent.step, Ring.setPc, Ring.acquireNext, hne, hi, hpos]

theorem exists_step_addRead {i : Nat} {slot : RingSlot} {ticket : Nat}
    (h : s.pc p = .acquired i slot ticket) :
    ∃ s', (RingEvent.addRead p).step s = some s' ∧ s'.pc p = .processing slot ticket := by
  simp only [RingEvent.step, h]
  exact ⟨_, rfl, Function.update_self _ _ _⟩

/-- A call of `lmice_acquire_task` that is not interrupted finds a posted task,
whatever the read position is. -/
theorem execute_acquireCall (hidle : s.pc p = .idle)
    (hposted : ∃ slot, s.lock slot = lmRingRead) :
    ∃ i < taskprocListSize, ∃ slot s', s.lock slot = lmRingRead ∧
      Run.execute RingEvent.step (fun _ _ => True) (acquireCall p i) s = some s' ∧
      s'.pc p = .processing slot (s.ticket slot) := by
  have hfound : ∃ i, i < taskprocListSize ∧
      s.lock (slotOf (s.readPos + UInt64.ofNat i)) = lmRingRead := by
    obtain ⟨slot, hslot⟩ := hposted
    obtain ⟨i, hi, rfl⟩ := exists_slotOf_add s.readPos slot
    exact ⟨i, hi, hslot⟩
  -- The first turn that meets a posted slot.
  have hfirst := Nat.find_spec hfound
  have hbefore : ∀ j < Nat.find hfound,
      s.lock (slotOf (s.readPos + UInt64.ofNat j)) ≠ lmRingRead := fun j hj h =>
    Nat.find_min hfound hj ⟨Nat.lt_trans hj hfirst.1, h⟩
  have hscan := execute_scan hidle hfirst.1 hbefore
  generalize Nat.find hfound = i at hfirst hscan
  obtain ⟨hi, hlock⟩ := hfirst
  generalize hcur : s.readPos + UInt64.ofNat i = curPos at hlock hscan
  have hcas : (RingEvent.casAcquire p).step (s.setPc p (.acquiring i curPos)) =
      some ((s.setPc p (.acquiring i curPos)).acquire p i (slotOf curPos)) := by
    simp [RingEvent.step, Ring.setPc, hlock]
  obtain ⟨s', hadd, hpc⟩ := exists_step_addRead
    (s := (s.setPc p (.acquiring i curPos)).acquire p i (slotOf curPos)) (p := p)
    (Function.update_self _ _ _)
  refine ⟨i, hi, slotOf curPos, s', hlock, ?_, hpc⟩
  rw [acquireCall, Run.execute_append, hscan]
  simp [Run.execute, hcas, hadd]

end Call

/-! ## Every run -/

/-- In every state that any number of parties reach: each posted task was acquired at
most once; each slot is owned by at most one party; a posted slot still holds what
was posted there, and so does a slot until the consumer that acquired it releases
it. Whenever a slot is posted, a call of `lmice_acquire_task` that is not
interrupted acquires a posted task. -/
theorem ring_of_run {P α : Type} [DecidableEq P] {readPos writePos : UInt64}
    {content : RingSlot → α} {s : Ring P α}
    (h : Run.Reachable RingEvent.step (fun _ _ => True) (Ring.init readPos writePos content) s) :
    (s.acquired.Nodup ∧ ∀ ticket ∈ s.acquired, ticket < s.posted.length) ∧
    (∀ slot p q, (s.pc p).owned = some slot → (s.pc q).owned = some slot → p = q) ∧
    (∀ slot, s.lock slot = lmRingRead → s.posted[s.ticket slot]? = some (s.content slot)) ∧
    (∀ p slot ticket, (s.pc p).held = some (slot, ticket) →
      ticket ∈ s.acquired ∧ s.posted[ticket]? = some (s.content slot)) ∧
    (∀ p, s.pc p = .idle → (∃ slot, s.lock slot = lmRingRead) →
      ∃ i < taskprocListSize, ∃ slot s', s.lock slot = lmRingRead ∧
        Run.execute RingEvent.step (fun _ _ => True) (acquireCall p i) s = some s' ∧
        s'.pc p = .processing slot (s.ticket slot)) := by
  have hinv : RingInv s :=
    h.invariant (fun _ _ _ _ hstep hs => hs.step hstep) (RingInv.init readPos writePos content)
  exact ⟨⟨hinv.once, hinv.known⟩, fun slot p q => hinv.owner p q slot, hinv.posted, hinv.held,
    fun p hidle hposted => execute_acquireCall hidle hposted⟩

/-- A producer posts a task with drifted positions, and a consumer acquires it. -/
def onePost : List (RingEvent Bool Nat) :=
  [.loadWrite false, .casPick false, .addWrite false, .fill false 7, .casPost false]

theorem ring_of_run_onePost :
    ∃ (s s' : Ring Bool Nat) (i : Nat) (slot : RingSlot), s.lock slot = lmRingRead ∧
      Run.execute RingEvent.step (fun _ _ => True) (acquireCall true i) s = some s' ∧
      s'.pc true = .processing slot (s.ticket slot) := by
  obtain ⟨s, hrun, hs⟩ := Run.exists_reachable_of_execute RingEvent.step (fun _ _ => True) onePost
    (s := Ring.init 5 70 fun _ => 0)
    (p := fun s => decide (s.pc true = .idle ∧ s.lock 6 = lmRingRead)) (by decide +kernel)
  obtain ⟨hidle, hlock⟩ := of_decide_eq_true hs
  obtain ⟨i, _, slot, s', h⟩ := (ring_of_run hrun).2.2.2.2 true hidle ⟨6, hlock⟩
  exact ⟨s, s', i, slot, h⟩

end LMiced
