import LMiced.Timer.WellFormed

/-!
# What a list holds

`append_timer_to_tlist` and `remove_timer_from_list` of `resource/resource_manage.h`, seen from
what the arrays of a list hold. A removal leaves a hole at the end of its array, so the timers
of a list need not fill its arrays, and an append fills the first hole.

* `TimerChain` is what the two functions rely on;
* `appendTimerToTlist_held`, `removeTimerFromList_held`, `removeTimerFromList_not_held`: what
  the functions do to the contents;
* `append_remove_contents` puts them together: a timer that is appended and removed again leaves
  the contents as they were;
* `Daemon.WellFormed.append_remove`: so do the two events in a run of the daemon.
-/

namespace LMiced.Arrays

variable {τ : Type}

/-- The arrays at `as` are a chain that begins at `tlist`: each links to the next, the last one
to none, the used slots of each come first, and none occurs twice. -/
structure TimerChain (mem : Memory Addr τ) (tlist : Addr) (as : List Addr) : Prop where
  linked : Linked timerListCap mem as
  head_eq : as.head? = some tlist
  nodup : as.Nodup

/-- `remove_timer_from_list`: its return value, and the state it leaves. -/
def Raw.removeTimerFromListRet [DecidableEq τ] (fuel : Nat) (r : Raw τ) (val : τ) (tlist : Addr) :
    Option (Int × Raw τ) := do
  match ← r.removeTimerFromList fuel val tlist with
  | none => some (1, r)
  | some r' => some (0, r')

section Calls

variable {r : Raw τ} {tlist : Addr} {as : List Addr} {t : τ}

/-- An append puts the timer between the others, which keep their order. -/
theorem appendTimerToTlist_held (h : TimerChain r.mem tlist as) (t : τ) {fresh : Addr}
    (hfresh : r.mem fresh = none) :
    ∃ mem' as' before after,
      (∀ fuel, as.length ≤ fuel →
        r.appendTimerToTlist fuel fresh t tlist = some { r with mem := mem' }) ∧
      TimerChain mem' tlist as' ∧ (as' = as ∨ as' = as ++ [fresh]) ∧
      heldAt r.mem as = before ++ after ∧ heldAt mem' as' = before ++ t :: after := by
  obtain ⟨bs, hchain⟩ := ChainAt.linked_iff.mp h.linked
  obtain ⟨mem', as', happend, hchain', has', _⟩ :=
    append_sim hchain h.nodup t h.head_eq hfresh
  obtain ⟨before, after, hbefore, hafter⟩ := Chain.contents_append_eq t bs
  have hnot : fresh ∉ as := fun hmem => hchain.mem_ne_none hmem hfresh
  have hlinked : Linked timerListCap mem' as' := ChainAt.linked_iff.mpr ⟨_, hchain'⟩
  refine ⟨mem', as', before, after, fun fuel hfuel => ?_, ?_, has', ?_, ?_⟩
  · obtain ⟨n, rfl⟩ := Nat.exists_eq_add_of_le' hfuel
    rw [Raw.appendTimerToTlist, happend n]
    rfl
  · rcases has' with rfl | rfl
    · exact ⟨hlinked, h.head_eq, h.nodup⟩
    · refine ⟨hlinked, ?_, ?_⟩
      · rw [List.head?_append, h.head_eq]
        rfl
      · simpa using List.Nodup.concat hnot h.nodup
  · rw [hchain.heldAt_eq, hbefore]
  · rw [hchain'.heldAt_eq, hafter]

variable [DecidableEq τ]

/-- A timer that is in the chain is removed where it comes first. -/
theorem removeTimerFromList_held (h : TimerChain r.mem tlist as) (ht : t ∈ heldAt r.mem as) :
    ∃ mem', (∀ fuel, timerListCap + as.length ≤ fuel →
        r.removeTimerFromListRet fuel t tlist =
          some (0, { r.setRes t { r.timer t with active := .notUse } with mem := mem' })) ∧
      TimerChain mem' tlist as ∧ heldAt mem' as = (heldAt r.mem as).erase t := by
  obtain ⟨bs, hchain⟩ := ChainAt.linked_iff.mp h.linked
  rw [hchain.heldAt_eq] at ht ⊢
  rcases remove_sim hchain h.nodup h.head_eq with
    ⟨hnone, _⟩ | ⟨bs', mem', hsome, hremove, hchain', _⟩
  · exact absurd ht (Chain.removeFirst_eq_none_iff.mp hnone)
  · refine ⟨mem', fun fuel hfuel => ?_,
      ⟨ChainAt.linked_iff.mpr ⟨_, hchain'⟩, h.head_eq, h.nodup⟩, ?_⟩
    · obtain ⟨n, rfl⟩ := Nat.exists_eq_add_of_le' (le_of_add_le_right hfuel)
      have hn : timerListCap ≤ n := Nat.le_of_add_le_add_right hfuel
      rw [Raw.removeTimerFromListRet, Raw.removeTimerFromList, hremove n hn]
      rfl
    · rw [hchain'.heldAt_eq]
      exact (Chain.contents_of_removeFirst hsome).2

/-- For a timer that is not in the chain nothing is changed. -/
theorem removeTimerFromList_not_held (h : TimerChain r.mem tlist as)
    (ht : t ∉ heldAt r.mem as) {fuel : Nat} (hfuel : timerListCap + as.length ≤ fuel) :
    r.removeTimerFromListRet fuel t tlist = some (1, r) := by
  obtain ⟨bs, hchain⟩ := ChainAt.linked_iff.mp h.linked
  rw [hchain.heldAt_eq] at ht
  rcases remove_sim hchain h.nodup h.head_eq with
    ⟨_, hremove⟩ | ⟨bs', mem', hsome, _⟩
  · obtain ⟨n, rfl⟩ := Nat.exists_eq_add_of_le' (le_of_add_le_right hfuel)
    have hn : timerListCap ≤ n := Nat.le_of_add_le_add_right hfuel
    rw [Raw.removeTimerFromListRet, Raw.removeTimerFromList, hremove n hn]
    rfl
  · exact absurd (Chain.contents_of_removeFirst hsome).1 ht

/-- An append and the removal behind it leave what the chain held. -/
theorem append_remove_held (h : TimerChain r.mem tlist as) (ht : t ∉ heldAt r.mem as)
    {fresh : Addr} (hfresh : r.mem fresh = none) :
    ∃ r₁ r₂ as', (∀ fuel, as.length ≤ fuel →
        r.appendTimerToTlist fuel fresh t tlist = some r₁) ∧
      (∀ fuel, timerListCap + as'.length ≤ fuel →
        r₁.removeTimerFromListRet fuel t tlist = some (0, r₂)) ∧
      TimerChain r₂.mem tlist as' ∧ heldAt r₂.mem as' = heldAt r.mem as := by
  obtain ⟨mem₁, as', before, after, happend, hchain₁, _, hbefore, hafter⟩ :=
    appendTimerToTlist_held h t hfresh
  let r₁ : Raw τ := { r with mem := mem₁ }
  have hmem : t ∈ heldAt r₁.mem as' := by
    rw [hafter]
    exact List.mem_append_right _ List.mem_cons_self
  obtain ⟨mem₂, hremove, hchain₂, hheld₂⟩ := removeTimerFromList_held (r := r₁) hchain₁ hmem
  refine ⟨r₁, _, as', happend, hremove, hchain₂, ?_⟩
  have hnot : t ∉ before := fun hb => ht (hbefore ▸ List.mem_append_left after hb)
  calc heldAt mem₂ as'
    _ = (before ++ t :: after).erase t := by rw [hheld₂, hafter]
    _ = before ++ after := by rw [List.erase_append_right _ hnot, List.erase_cons_head]
    _ = heldAt r.mem as := hbefore.symm

/-- On every chain an append ends, and puts the timer between the others. A removal ends; it
returns 0 if and only if the timer is in the chain, and then removes it where it comes first
and sets its state, and otherwise changes nothing. A timer that was not in the chain is removed
again without a trace in the contents. -/
theorem append_remove_contents (h : TimerChain r.mem tlist as) (t : τ) :
    (∀ fresh, r.mem fresh = none → ∃ mem' as' before after,
      (∀ fuel, as.length ≤ fuel →
        r.appendTimerToTlist fuel fresh t tlist = some { r with mem := mem' }) ∧
      TimerChain mem' tlist as' ∧ (as' = as ∨ as' = as ++ [fresh]) ∧
      heldAt r.mem as = before ++ after ∧ heldAt mem' as' = before ++ t :: after) ∧
    (∃ ret r', (∀ fuel, timerListCap + as.length ≤ fuel →
        r.removeTimerFromListRet fuel t tlist = some (ret, r')) ∧
      (ret = 0 ↔ t ∈ heldAt r.mem as) ∧
      (t ∈ heldAt r.mem as → ∃ mem',
        r' = { r.setRes t { r.timer t with active := .notUse } with mem := mem' } ∧
        TimerChain mem' tlist as ∧ heldAt mem' as = (heldAt r.mem as).erase t) ∧
      (t ∉ heldAt r.mem as → ret = 1 ∧ r' = r)) ∧
    (t ∉ heldAt r.mem as → ∀ fresh, r.mem fresh = none → ∃ r₁ r₂ as',
      (∀ fuel, as.length ≤ fuel → r.appendTimerToTlist fuel fresh t tlist = some r₁) ∧
      (∀ fuel, timerListCap + as'.length ≤ fuel →
        r₁.removeTimerFromListRet fuel t tlist = some (0, r₂)) ∧
      TimerChain r₂.mem tlist as' ∧ heldAt r₂.mem as' = heldAt r.mem as) := by
  refine ⟨fun fresh hfresh => appendTimerToTlist_held h t hfresh, ?_,
    fun ht fresh hfresh => append_remove_held h ht hfresh⟩
  rcases Classical.em (t ∈ heldAt r.mem as) with ht | ht
  · obtain ⟨mem', hremove, hchain, hheld⟩ := removeTimerFromList_held h ht
    exact ⟨0, _, hremove, iff_of_true rfl ht, fun _ => ⟨mem', rfl, hchain, hheld⟩,
      fun hnot => absurd ht hnot⟩
  · exact ⟨1, r, fun fuel hfuel => removeTimerFromList_not_held h ht hfuel,
      iff_of_false Int.one_ne_zero ht, fun hmem => absurd hmem ht, fun _ => ⟨rfl, rfl⟩⟩

end Calls

/-- A list of two arrays with a timer each, so that there is room in the first one. -/
def twoArrays : Raw Nat where
  timer _ := ⟨.running, none, [], 0⟩
  mem a :=
    if a = 0 then some ⟨some ⟨1, some 1⟩, fun pos => if pos = 1 then some 5 else none⟩
    else if a = 1 then some ⟨some ⟨1, none⟩, fun pos => if pos = 1 then some 6 else none⟩
    else none
  action _ := ⟨fun _ => 0⟩
  touched := []
  awakened := []

theorem twoArrays_chain : TimerChain twoArrays.mem 0 [0, 1] := by
  have hok : ∀ (next : Option Addr) (u : Nat),
      (⟨some ⟨1, next⟩, fun pos => if pos = 1 then some u else none⟩ : SlotArray Addr Nat).Ok
        timerListCap next 1 := by
    intro next u
    refine ⟨rfl, by decide, fun pos hpos hle => ?_, fun pos hpos _ => if_neg hpos.ne'⟩
    rw [le_antisymm hle hpos]
    exact Option.some_ne_none u
  exact ⟨⟨⟨_, 1, rfl, hok (some 1) 5⟩, ⟨_, 1, rfl, hok none 6⟩, trivial⟩, rfl, by decide⟩

theorem append_remove_contents_twoArrays :
    ∃ r₁ r₂ as', (∀ fuel, 2 ≤ fuel → twoArrays.appendTimerToTlist fuel 2 7 0 = some r₁) ∧
      (∀ fuel, timerListCap + as'.length ≤ fuel →
        r₁.removeTimerFromListRet fuel 7 0 = some (0, r₂)) ∧
      heldAt r₂.mem as' = [5, 6] := by
  have hnot : 7 ∉ heldAt twoArrays.mem [0, 1] := by decide
  obtain ⟨r₁, r₂, as', happend, hremove, _, hheld⟩ :=
    (append_remove_contents twoArrays_chain 7).2.2 hnot 2 rfl
  exact ⟨r₁, r₂, as', happend, hremove, hheld⟩

/-! ## In a run of the daemon -/

section Run

variable {head : ListId → Addr} {d : Daemon τ}

/-- Every list is a chain as the two functions rely on. -/
theorem Daemon.WellFormed.timerChain (h : d.WellFormed head) (l : ListId) :
    ∃ as, TimerChain d.raw.mem (head l) as := by
  obtain ⟨as, hlists, _⟩ := h
  exact ⟨as l, hlists.linked l, hlists.head_eq l, hlists.nodup l⟩

theorem Raw.removeTimerFromList_of_ret [DecidableEq τ] {r r' : Raw τ} {fuel : Nat} {t : τ}
    {tlist : Addr} (h : r.removeTimerFromListRet fuel t tlist = some (0, r')) :
    r.removeTimerFromList fuel t tlist = some (some r') := by
  unfold removeTimerFromListRet at h
  cases hcall : r.removeTimerFromList fuel t tlist with
  | none => simp [hcall] at h
  | some result =>
    cases result with
    | none => simp [hcall] at h
    | some r₁ => simpa [hcall] using h

/-- From every state of a run, the event that appends a timer and the event that removes it
leave what the list held, for a timer that was not in it. -/
theorem Daemon.WellFormed.append_remove [DecidableEq τ] (h : d.WellFormed head) (l : ListId)
    (t : τ) {fresh : Addr} (hfresh : d.raw.mem fresh = none) :
    ∃ as, TimerChain d.raw.mem (head l) as ∧ (t ∉ heldAt d.raw.mem as → ∃ n d₁ d₂ as',
      (∀ fuel, n ≤ fuel → d.step head fuel (.append l t fresh) = some d₁ ∧
        d₁.step head fuel (.remove l t) = some d₂) ∧
      TimerChain d₂.raw.mem (head l) as' ∧ heldAt d₂.raw.mem as' = heldAt d.raw.mem as) := by
  obtain ⟨as, hchain⟩ := h.timerChain l
  refine ⟨as, hchain, fun ht => ?_⟩
  obtain ⟨r₁, r₂, as', happend, hremove, hchain₂, hheld⟩ := append_remove_held hchain ht hfresh
  refine ⟨max as.length (timerListCap + as'.length), { d with raw := r₁ }, { d with raw := r₂ },
    as', fun fuel hfuel => ⟨?_, ?_⟩, hchain₂, hheld⟩
  · rw [Daemon.step, happend fuel (le_of_max_le_left hfuel)]
    rfl
  · have hcall := Raw.removeTimerFromList_of_ret (hremove fuel (le_of_max_le_right hfuel))
    simp only [Daemon.step, hcall, Option.map_some, Option.getD_some]

end Run

end LMiced.Arrays
