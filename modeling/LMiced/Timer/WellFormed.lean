import LMiced.Timer.Memory

/-!
# The arrays stay well formed

The timer part of the daemon as a system: `init_server_resource` sets up the arrays of the ten
lists, timers are appended and removed, and a walk may be under way, of which an event makes
one turn. `Daemon.WellFormed` is what the memory satisfies in between, stated on the memory
alone: every list is a finite chain of arrays without a cycle, in which the used slots come
first.

`arrays_preserved` says that the initialisation establishes it, and that each event succeeds
and preserves it. An access to a slot that an array does not have would fail, so there is none.
-/

namespace LMiced.Arrays

variable {τ : Type}

/-! ## The invariant -/

/-- The arrays of the ten lists are the ones at `as`: the one at `head` comes first, each links
to the next, the last one to none, the used slots of each come first, and none occurs twice. -/
structure ListsOk (head : ListId → Addr) (as : ListId → List Addr) (mem : Memory Addr τ) :
    Prop where
  linked : ∀ l, Linked timerListCap mem (as l)
  head_eq : ∀ l, (as l).head? = some (head l)
  nodup : ∀ l, (as l).Nodup
  apart : ∀ l l' a, a ∈ as l → a ∈ as l' → l = l'

theorem listsOk_iff {head : ListId → Addr} {as : ListId → List Addr} {mem : Memory Addr τ} :
    ListsOk head as mem ↔ ∃ list, Placed head as mem list := by
  constructor
  · intro h
    have hchain : ∀ l, ∃ bs : TList τ, ChainAt mem (as l) bs := fun l =>
      ChainAt.linked_iff.mp (h.linked l)
    choose list hlist using hchain
    exact ⟨list, hlist, h.head_eq, h.nodup, h.apart⟩
  · rintro ⟨list, h⟩
    exact ⟨fun l => ChainAt.linked_iff.mpr ⟨_, h.chain l⟩, h.head_eq, h.nodup, h.apart⟩

/-! ## The initialisation -/

/-- The order in which `init_server_resource` sets up the lists. -/
def initOrder : List ListId :=
  [⟨.ticker, .due⟩, ⟨.ticker, .work1⟩, ⟨.ticker, .work2⟩, ⟨.ticker, .work3⟩, ⟨.ticker, .work4⟩,
    ⟨.timer, .due⟩, ⟨.timer, .work1⟩, ⟨.timer, .work2⟩, ⟨.timer, .work3⟩, ⟨.timer, .work4⟩]

theorem mem_initOrder (l : ListId) : l ∈ initOrder := by
  obtain ⟨f, b⟩ := l
  cases f <;> cases b <;> decide

/-- One step of `init_server_resource`. -/
def initList (head : ListId → Addr) (mem : Memory Addr τ) (l : ListId) :
    Option (Memory Addr τ) := do
  let arr ← mem (head l)
  some (Function.update mem (head l) (some (initTmlistResource arr)))

/-- `init_server_resource`, as far as the timer lists go. -/
def initServerResource (head : ListId → Addr) (mem : Memory Addr τ) : Option (Memory Addr τ) :=
  initOrder.foldlM (initList head) mem

section Init

variable {head : ListId → Addr} {mem : Memory Addr τ}

/-- The control element of the list has been allocated. -/
def SetUp (head : ListId → Addr) (mem : Memory Addr τ) (l : ListId) : Prop :=
  mem (head l) = some (initTmlistResource .zeroed)

theorem initList_spec (l : ListId) (hmem : mem (head l) = some .zeroed ∨ SetUp head mem l) :
    ∃ mem', initList head mem l = some mem' ∧
      SetUp head mem' l ∧ ∀ a, a = head l ∨ mem' a = mem a := by
  refine ⟨Function.update mem (head l) (some (initTmlistResource .zeroed)), ?_,
    Function.update_self .., fun a => ?_⟩
  · unfold initList
    rcases hmem with hl | hl
    · rw [hl]
      rfl
    · rw [hl]
      rfl
  · exact (eq_or_ne a (head l)).imp_right fun hne => Function.update_of_ne hne _ _

/-- From arrays that are all zero the initialisation makes ten empty lists. -/
theorem initServerResource_placed (hhead : Function.Injective head)
    (hzero : ∀ l, mem (head l) = some .zeroed) :
    ∃ mem', initServerResource head mem = some mem' ∧
      Placed head (fun l => [head l]) mem' fun _ => LMiced.initTmlistResource := by
  -- A list is zeroed or set up, and setting up one leaves the others as they are.
  have hstep : ∀ l (mem : Memory Addr τ),
      (∀ l, mem (head l) = some .zeroed ∨ SetUp head mem l) →
      ∃ mem', initList head mem l = some mem' ∧
        (∀ l, mem' (head l) = some .zeroed ∨ SetUp head mem' l) ∧ SetUp head mem' l ∧
        ∀ l', SetUp head mem l' → SetUp head mem' l' := by
    intro l mem hmem
    obtain ⟨mem', hinit, hl, hframe⟩ := initList_spec l (hmem l)
    refine ⟨mem', hinit, fun l' => ?_, hl, fun l' hl' => ?_⟩
    · rcases hframe (head l') with heq | hsame
      · exact .inr (hhead heq ▸ hl)
      · rw [SetUp, hsame]
        exact hmem l'
    · rcases hframe (head l') with heq | hsame
      · exact hhead heq ▸ hl
      · exact hsame.trans hl'
  obtain ⟨mem', hinit, _, hall, _⟩ :=
    Loop.foldlM_forall (l := initOrder) hstep fun l => .inl (hzero l)
  refine ⟨mem', hinit, fun l => ?_, fun _ => rfl, fun _ => List.nodup_singleton _, ?_⟩
  · exact .cons (hall l (mem_initOrder l)) SlotArray.holds_empty .nil
  · intro l l' a ha ha'
    rw [List.mem_singleton] at ha ha'
    exact hhead (ha.symm.trans ha')

end Init

/-! ## The daemon -/

/-- The two functions that walk a list. -/
inductive Schedule
  | timerList
  | dueList
deriving DecidableEq, Repr

/-- A walk that is under way: what it was called with, and the place it goes on at. -/
structure Walk where
  schedule : Schedule
  now : Int
  list : ListId
  tlist : Addr
  pos : Nat

/-- The timer part of the daemon. -/
structure Daemon (τ : Type) where
  raw : Raw τ
  walk : Option Walk

/-- What happens to the lists. `fresh` is what `malloc` returns if it is called. -/
inductive Event (τ : Type)
  | append (l : ListId) (t : τ) (fresh : Addr)
  | remove (l : ListId) (t : τ)
  | removeByWorker (l : ListId) (w : Nat)
  | deleteByPos (tlist : Addr) (pos : Nat) (t : τ)
  | start (schedule : Schedule) (now : Int) (l : ListId)
  | turn (fresh : Addr)

section Step

variable [DecidableEq τ]

/-- The body of the loops of a walk. -/
def Schedule.visit (head : ListId → Addr) (fresh : Addr) (now : Int) (fuel : Nat) :
    Schedule → Addr → Nat → τ → Raw τ → Option (Raw τ × Flow)
  | .timerList => Raw.timerVisit head fuel fresh now
  | .dueList => Raw.dueVisit head fuel fresh now

/-- One event. -/
def Daemon.step (head : ListId → Addr) (fuel : Nat) (d : Daemon τ) :
    Event τ → Option (Daemon τ)
  | .append l t fresh =>
    (d.raw.appendTimerToTlist fuel fresh t (head l)).map fun raw => { d with raw }
  | .remove l t =>
    (d.raw.removeTimerFromList fuel t (head l)).map fun raw => { d with raw := raw.getD d.raw }
  | .removeByWorker l w =>
    (d.raw.removeTimerFromListByWorker fuel w (head l)).map fun raw => { d with raw }
  | .deleteByPos tlist pos t =>
    (d.raw.deleteTimerByPos pos t tlist).map fun raw => { d with raw }
  | .start schedule now l => some { d with walk := some ⟨schedule, now, l, head l, 1⟩ }
  | .turn fresh => do
    let w ← d.walk
    let x ← d.raw.turn (w.schedule.visit head fresh w.now fuel) w.tlist w.pos
    some ⟨x.2, x.1.map fun place => { w with tlist := place.1, pos := place.2 }⟩

end Step

/-- The control element of the array at `a` links to the one at `b`. -/
def LinksTo (mem : Memory Addr τ) (a b : Addr) : Prop :=
  ∃ arr ctl, mem a = some arr ∧ arr.control = some ctl ∧ ctl.next = some b

/-- What the caller provides: `malloc` returns memory that is not in use, a deletion by position
is for a used slot of some list, and a turn belongs to a walk. -/
def Daemon.Legal (head : ListId → Addr) (d : Daemon τ) : Event τ → Prop
  | .append _ _ fresh => d.raw.mem fresh = none
  | .remove _ _ => True
  | .removeByWorker _ _ => True
  | .deleteByPos tlist pos _ =>
    ∃ l arr ctl, Relation.ReflTransGen (LinksTo d.raw.mem) (head l) tlist ∧
      d.raw.mem tlist = some arr ∧ arr.control = some ctl ∧ 1 ≤ pos ∧ pos ≤ ctl.active
  | .start _ _ _ => True
  | .turn fresh => d.walk ≠ none ∧ d.raw.mem fresh = none

/-- The arrays represent lists, and a walk that is under way is at one of its list. -/
def Daemon.WellFormed (head : ListId → Addr) (d : Daemon τ) : Prop :=
  ∃ as, ListsOk head as d.raw.mem ∧ ∀ w ∈ d.walk, w.tlist ∈ as w.list ∧ 1 ≤ w.pos

/-! ## One event -/

section Preserve

variable {head : ListId → Addr} {as : ListId → List Addr} {list : ListId → TList τ}
  {d : Daemon τ}

/-- The arrays that the links lead to are those of the list. -/
theorem Placed.mem_of_links {mem : Memory Addr τ} (h : Placed head as mem list) {l : ListId}
    {a : Addr} (ha : Relation.ReflTransGen (LinksTo mem) (head l) a) : a ∈ as l := by
  induction ha with
  | refl => exact List.mem_of_mem_head? (h.head_eq l)
  | tail _ hlink ih =>
    obtain ⟨arr, ctl, harr, hctl, hnext⟩ := hlink
    obtain ⟨k, hk⟩ := List.mem_iff_getElem?.mp ih
    obtain ⟨arr', b, harr', _, hholds⟩ := (h.chain l).exists_holds hk
    obtain rfl := Option.some.inj (harr.symm.trans harr')
    obtain rfl := Option.some.inj (hctl.symm.trans hholds.control)
    exact List.mem_of_getElem? hnext

/-- The lists have grown, and the walk stays where it is. -/
theorem wellFormed_of_placed {as' : ListId → List Addr} {list' : ListId → TList τ} {raw : Raw τ}
    (h : Placed head as' raw.mem list') (hgrown : Grown as as')
    (hwalk : ∀ w ∈ d.walk, w.tlist ∈ as w.list ∧ 1 ≤ w.pos) :
    Daemon.WellFormed head { d with raw } :=
  ⟨as', listsOk_iff.mpr ⟨list', h⟩, fun w hw =>
    ⟨(hgrown w.list).subset (hwalk w hw).1, (hwalk w hw).2⟩⟩

variable [DecidableEq τ]

/-- What the body does on lists. -/
def Schedule.onLists (now : Int) (l : ListId) :
    Schedule → Cursor → τ → Sched τ → Sched τ × Flow
  | .timerList => Sched.timerVisit now l
  | .dueList => Sched.dueVisit now l

theorem visit_sim {r : Raw τ} {l : ListId} {c : Cursor} {a fresh : Addr} {t : τ} {now : Int}
    (h : Placed head as r.mem list) (hfresh : r.mem fresh = none) (ha : (as l)[c.arr]? = some a)
    (ht : (list l).entryAt c.arr c.pos = some t) (schedule : Schedule) :
    Simulates head as (fun fuel => schedule.visit head fresh now fuel a (c.pos + 1) t r)
      (schedule.onLists now l c t (r.toSched list)) := by
  cases schedule with
  | timerList => exact timerVisit_sim h hfresh ha ht
  | dueList => exact dueVisit_sim h hfresh ha ht

/-- A turn of the walk that is under way. -/
theorem turn_preserves {w : Walk} {fresh : Addr} (h : Placed head as d.raw.mem list)
    (hw : d.walk = some w) (hplace : w.tlist ∈ as w.list ∧ 1 ≤ w.pos)
    (hfresh : d.raw.mem fresh = none) :
    ∃ d', (∀ fuel, Enough as fuel → d.step head fuel (.turn fresh) = some d') ∧
      d'.WellFormed head := by
  obtain ⟨k, ha⟩ := List.mem_iff_getElem?.mp hplace.1
  obtain ⟨i, hi⟩ := Nat.exists_eq_add_of_le' hplace.2
  obtain ⟨c', raw, list', as', hturn, _, hplaced, _⟩ := turn_sim (c := ⟨k, i⟩)
    (fun fuel => w.schedule.visit head fresh w.now fuel) (w.schedule.onLists w.now w.list) h ha
    fun t ht => visit_sim h hfresh ha ht w.schedule
  refine ⟨⟨raw, (as' w.list)[c'.arr]?.map fun a => { w with tlist := a, pos := c'.pos + 1 }⟩,
    fun fuel hfuel => ?_, as', listsOk_iff.mpr ⟨list', hplaced⟩, fun w' hw' => ?_⟩
  · have hturn := hturn fuel hfuel
    rw [← hi] at hturn
    rw [Daemon.step, hw, Option.bind_eq_bind, Option.bind_some, hturn]
    simp only [Option.bind_eq_bind, Option.bind_some, Option.map_map]
    rfl
  · obtain ⟨a, ha', rfl⟩ := Option.map_eq_some_iff.mp hw'
    exact ⟨List.mem_of_getElem? ha', Nat.succ_pos _⟩

/-- An event succeeds with enough fuel, and keeps the arrays well formed. -/
theorem step_preserves {e : Event τ} (hd : d.WellFormed head) (he : d.Legal head e) :
    ∃ as d', (∀ fuel, Enough as fuel → d.step head fuel e = some d') ∧ d'.WellFormed head := by
  obtain ⟨as, hok, hwalk⟩ := hd
  obtain ⟨list, h⟩ := listsOk_iff.mp hok
  refine ⟨as, ?_⟩
  cases e with
  | append l t fresh =>
    obtain ⟨mem', as', happend, hplaced, hgrown⟩ := h.append (l := l) he t
    refine ⟨{ d with raw := { d.raw with mem := mem' } }, fun fuel hfuel => ?_,
      wellFormed_of_placed hplaced hgrown hwalk⟩
    rw [Daemon.step, Raw.appendTimerToTlist, happend fuel hfuel]
    rfl
  | remove l t =>
    rcases removeTimerFromList_sim h l t with ⟨hremove, _⟩ | ⟨raw, list', hremove, _, hplaced⟩
    · refine ⟨d, fun fuel hfuel => ?_, as, hok, hwalk⟩
      rw [Daemon.step, hremove fuel hfuel]
      rfl
    · refine ⟨{ d with raw }, fun fuel hfuel => ?_,
        wellFormed_of_placed hplaced (Grown.refl as) hwalk⟩
      rw [Daemon.step, hremove fuel hfuel]
      rfl
  | removeByWorker l w =>
    obtain ⟨raw, list', hremove, _, hplaced⟩ := removeTimerFromListByWorker_sim h l w
    refine ⟨{ d with raw }, fun fuel hfuel => ?_,
      wellFormed_of_placed hplaced (Grown.refl as) hwalk⟩
    rw [Daemon.step, hremove fuel hfuel]
    rfl
  | deleteByPos tlist pos t =>
    obtain ⟨l, arr, ctl, hlinks, harr, hctl, hpos, hle⟩ := he
    -- The array is one of the chain, and the position is in use.
    obtain ⟨k, ha⟩ := List.mem_iff_getElem?.mp (h.mem_of_links hlinks)
    obtain ⟨arr', b, harr', hb, hholds⟩ := (h.chain l).exists_holds ha
    obtain rfl := Option.some.inj (harr.symm.trans harr')
    obtain rfl := Option.some.inj (hctl.symm.trans hholds.control)
    obtain ⟨i, rfl⟩ := Nat.exists_eq_add_of_le' hpos
    have hentry : (list l).entryAt k i = some b.entries[i] := by
      rw [Chain.entryAt, hb, Option.bind_some]
      exact List.getElem?_eq_getElem hle
    obtain ⟨raw, hdelete, _, hplaced⟩ := delete_sim (c := ⟨k, i⟩) h ha hentry t
    refine ⟨{ d with raw }, fun fuel _ => ?_,
      wellFormed_of_placed hplaced (Grown.refl as) hwalk⟩
    rw [Daemon.step, hdelete]
    rfl
  | start schedule now l =>
    refine ⟨{ d with walk := some ⟨schedule, now, l, head l, 1⟩ }, fun _ _ => rfl, as, hok, ?_⟩
    rintro _ ⟨⟩
    exact ⟨List.mem_of_mem_head? (h.head_eq l), le_rfl⟩
  | turn fresh =>
    obtain ⟨w, hw⟩ := Option.ne_none_iff_exists'.mp he.1
    exact turn_preserves h hw (hwalk w hw) he.2

end Preserve

/-! ## Runs -/

theorem exists_enough (as : ListId → List Addr) : ∃ n, ∀ fuel, n ≤ fuel → Enough as fuel := by
  refine ⟨(ListId.all.map fun l => (as l).length).sum + timerListCap, fun fuel hfuel l => ?_⟩
  have hle : (as l).length ≤ (ListId.all.map fun l => (as l).length).sum :=
    List.le_sum_of_mem (List.mem_map_of_mem (ListId.mem_all l))
  exact (Nat.add_le_add_right hle _).trans hfuel

section Run

variable [DecidableEq τ] {head : ListId → Addr} {d d' : Daemon τ}

/-- Some legal event leads from one state to the other, with enough fuel. -/
def Moves (head : ListId → Addr) (d d' : Daemon τ) : Prop :=
  ∃ e n, d.Legal head e ∧ ∀ fuel, n ≤ fuel → d.step head fuel e = some d'

theorem Moves.wellFormed (h : Moves head d d') (hd : d.WellFormed head) :
    d'.WellFormed head := by
  obtain ⟨e, n, he, hstep⟩ := h
  obtain ⟨as, d₁, hstep₁, hd₁⟩ := step_preserves hd he
  obtain ⟨m, hm⟩ := exists_enough as
  have hsame := (hstep₁ _ (hm _ (le_max_right n m))).symm.trans (hstep _ (le_max_left n m))
  exact Option.some.inj hsame ▸ hd₁

/-- Every run keeps the arrays well formed. -/
theorem wellFormed_of_run (h : Relation.ReflTransGen (Moves head) d d')
    (hd : d.WellFormed head) : d'.WellFormed head := by
  induction h with
  | refl => exact hd
  | tail _ hmove ih => exact hmove.wellFormed ih

/-- After `init_server_resource` on memory that is all zero the arrays of the ten lists are well
formed. Each operation on the lists, and each turn of a walk, then succeeds with enough fuel,
which it would not if it looked at a slot outside of an array, and leaves them well formed. -/
theorem arrays_preserved (hhead : Function.Injective head) :
    (∀ raw : Raw τ, (∀ l, raw.mem (head l) = some .zeroed) →
      ∃ mem, initServerResource head raw.mem = some mem ∧
        Daemon.WellFormed head ⟨{ raw with mem }, none⟩) ∧
    ∀ (d : Daemon τ) (e : Event τ), d.WellFormed head → d.Legal head e →
      ∃ n d', (∀ fuel, n ≤ fuel → d.step head fuel e = some d') ∧ d'.WellFormed head := by
  refine ⟨fun raw hzero => ?_, fun d e hd he => ?_⟩
  · obtain ⟨mem, hinit, hplaced⟩ := initServerResource_placed hhead hzero
    refine ⟨mem, hinit, _, listsOk_iff.mpr ⟨_, hplaced⟩, ?_⟩
    rintro _ ⟨⟩
  · obtain ⟨as, d', hstep, hd'⟩ := step_preserves hd he
    obtain ⟨n, hn⟩ := exists_enough as
    exact ⟨n, d', fun fuel hfuel => hstep fuel (hn fuel hfuel), hd'⟩

end Run

/-- From ten head arrays that are all zero: a timer is appended to work list 2, and a turn of a
walk of that list moves it to work list 1, as it has 0.5 milliseconds left. -/
theorem arrays_preserved_move :
    let head (l : ListId) : Addr := ListId.all.idxOf l
    let used (d : Daemon Unit) (l : ListId) : Option Nat :=
      (d.raw.mem (head l)).bind fun arr => arr.control.map (·.active)
    ∃ d d' : Daemon Unit, d.WellFormed head ∧ d.walk ≠ none ∧ used d ⟨.timer, .work2⟩ = some 1 ∧
      (∃ n, ∀ fuel, n ≤ fuel → d.step head fuel (.turn 11) = some d') ∧ d'.WellFormed head ∧
      used d' ⟨.timer, .work2⟩ = some 0 ∧ used d' ⟨.timer, .work1⟩ = some 1 := by
  intro head used
  have hhead : Function.Injective head := fun l _ h =>
    (List.idxOf_inj (ListId.mem_all l)).mp h
  let info : TimerInfo := { freshTimer 5 with timer := ⟨1, 1, ⟨fun _ => 0⟩⟩ }
  let raw : Raw Unit :=
    { timer := fun _ => ⟨.running, some info, [], 1⟩
      mem := fun a => if a < 10 then some .zeroed else none
      action := fun _ => ⟨fun _ => 0⟩
      touched := []
      awakened := [] }
  have hzero : ∀ l, raw.mem (head l) = some .zeroed := fun l =>
    if_pos (List.idxOf_lt_length_of_mem (ListId.mem_all l))
  obtain ⟨mem, hinit, hd⟩ := (arrays_preserved hhead).1 raw hzero
  obtain rfl : mem = (initServerResource head raw.mem).get rfl :=
    Option.some.inj (hinit.symm.trans (Option.some_get _).symm)
  -- Each event succeeds, so its state is the one that the code computes.
  obtain ⟨n₁, d₁, happend, hd₁⟩ :=
    (arrays_preserved hhead).2 _ (.append ⟨.timer, .work2⟩ () 10) hd rfl
  obtain rfl : d₁ = _ :=
    Option.some.inj ((happend (n₁ + 40) (Nat.le_add_right _ _)).symm.trans rfl)
  obtain ⟨n₂, d₂, hstart, hd₂⟩ :=
    (arrays_preserved hhead).2 _ (.start .timerList 95000 ⟨.timer, .work2⟩) hd₁ trivial
  obtain rfl : d₂ = _ :=
    Option.some.inj ((hstart (n₂ + 40) (Nat.le_add_right _ _)).symm.trans rfl)
  obtain ⟨n₃, d₃, hturn, hd₃⟩ := (arrays_preserved hhead).2 _ (.turn 11) hd₂ ⟨nofun, rfl⟩
  refine ⟨_, d₃, hd₂, nofun, rfl, ⟨n₃, hturn⟩, hd₃, ?_⟩
  obtain rfl : d₃ = _ :=
    Option.some.inj ((hturn (n₃ + 40) (Nat.le_add_right _ _)).symm.trans rfl)
  exact ⟨rfl, rfl⟩

end LMiced.Arrays
