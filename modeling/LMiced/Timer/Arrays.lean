import LMiced.Lib.Linked
import LMiced.Timer.Lists

/-!
# The arrays of the timer lists

The list operations of `resource/resource_manage.h` on the memory of the daemon, where a list
is a chain of pointer arrays with 32 slots each. Slot 0 of an array points to its control
element, which holds the number of used slots and, in `info` and in `alist`, the link to the
next array. An access outside of slots 1 to 31 fails, as does an access to an array that is not
there. The loops take fuel.

Each operation on memory does what the operation on chains does that has its name in
`LMiced.Sched`: `append_sim`, `removeByWorker_sim`, `remove_sim`.
-/

namespace LMiced.Arrays

/-- The address of an array. -/
abbrev Addr := Nat

variable {τ : Type}

/-! ## The code -/

/-- `init_tmlist_resource`, for one array. -/
def initTmlistResource (arr : SlotArray Addr τ) : SlotArray Addr τ :=
  { arr with control := some ⟨0, none⟩ }

/-- `append_timer_to_tlist`; `fresh` is what `malloc` returns. -/
def appendTimerToTlist (fresh : Addr) (val : τ) :
    Nat → Addr → Memory Addr τ → Option (Memory Addr τ)
  | 0, _, _ => none
  | fuel + 1, tlist, mem => do
    let arr ← mem tlist
    let ctl ← arr.control
    if ctl.active < timerListCap then
      let arr ← arr.push timerListCap val
      some (Function.update mem tlist (some arr))
    else
      match ctl.next with
      | some next => appendTimerToTlist fresh val fuel next mem
      | none =>
        let new ← (initTmlistResource .zeroed).push timerListCap val
        let linked := { arr with control := some ⟨ctl.active, some fresh⟩ }
        some (Function.update (Function.update mem fresh (some new)) tlist (some linked))

/-- The `for` loop of `remove_timer_from_list_by_worker`. -/
def removeByWorkerLoop (owned : τ → Bool) :
    Nat → Nat → SlotArray Addr τ → Option (SlotArray Addr τ)
  | 0, _, _ => none
  | fuel + 1, pos, arr => do
    let ctl ← arr.control
    if pos ≤ ctl.active then
      let res ← arr.get timerListCap pos
      let res ← res
      let arr ← if owned res then arr.delete timerListCap pos else some arr
      removeByWorkerLoop owned fuel (pos + 1) arr
    else some arr

/-- `remove_timer_from_list_by_worker`. -/
def removeTimerFromListByWorker (owned : τ → Bool) :
    Nat → Addr → Memory Addr τ → Option (Memory Addr τ)
  | 0, _, _ => none
  | fuel + 1, tlist, mem => do
    let arr ← mem tlist
    let arr ← removeByWorkerLoop owned (fuel + 1) 1 arr
    let ctl ← arr.control
    let mem := Function.update mem tlist (some arr)
    match ctl.next with
    | some next => removeTimerFromListByWorker owned fuel next mem
    | none => some mem

/-- The `for` loop of `remove_timer_from_list`: the array behind the removal, or `none` when the
timer is not in it. -/
def removeLoop [DecidableEq τ] (val : τ) :
    Nat → Nat → SlotArray Addr τ → Option (Option (SlotArray Addr τ))
  | 0, _, _ => none
  | fuel + 1, pos, arr => do
    let ctl ← arr.control
    if pos ≤ ctl.active then
      let res ← arr.get timerListCap pos
      if res = some val then
        let arr ← arr.delete timerListCap pos
        some (some arr)
      else removeLoop val fuel (pos + 1) arr
    else some none

/-- `remove_timer_from_list`, as far as the arrays go; the inner `none` is the return value 1. -/
def removeTimerFromList [DecidableEq τ] (val : τ) :
    Nat → Addr → Memory Addr τ → Option (Option (Memory Addr τ))
  | 0, _, _ => none
  | fuel + 1, tlist, mem => do
    let arr ← mem tlist
    match ← removeLoop val (fuel + 1) 1 arr with
    | some arr => some (some (Function.update mem tlist (some arr)))
    | none =>
      let ctl ← arr.control
      match ctl.next with
      | some next => removeTimerFromList val fuel next mem
      | none => some none

/-! ## Appending -/

variable {mem : Memory Addr τ} {as : List Addr} {bs : TList τ} {fuel : Nat}

theorem push_init (val : τ) : ∃ new, (initTmlistResource .zeroed).push timerListCap val = some new ∧
    new.Holds (BArray.single val : BArray timerListCap τ) none := by
  have hempty : (initTmlistResource .zeroed : SlotArray Addr τ).Holds
      (BArray.empty : BArray timerListCap τ) none := SlotArray.holds_empty
  exact hempty.push val (show 0 < timerListCap by decide)

section Append

variable {a fresh : Addr} {val : τ} {arr : SlotArray Addr τ} {b : BArray timerListCap τ}

theorem appendTimerToTlist_of_room {next : Option Addr} {arr' : SlotArray Addr τ}
    (harr : mem a = some arr) (hb : arr.Holds b next) (hroom : b.entries.length < timerListCap)
    (hpush : arr.push timerListCap val = some arr') :
    appendTimerToTlist fresh val (fuel + 1) a mem =
      some (Function.update mem a (some arr')) := by
  simp [appendTimerToTlist, harr, hb.control, hroom, hpush]

theorem appendTimerToTlist_of_next {next : Addr} (harr : mem a = some arr)
    (hb : arr.Holds b (some next)) (hfull : ¬ b.entries.length < timerListCap) :
    appendTimerToTlist fresh val (fuel + 1) a mem =
      appendTimerToTlist fresh val fuel next mem := by
  simp [appendTimerToTlist, harr, hb.control, hfull]

theorem appendTimerToTlist_of_last {new : SlotArray Addr τ} (harr : mem a = some arr)
    (hb : arr.Holds b none) (hfull : ¬ b.entries.length < timerListCap)
    (hpush : (initTmlistResource .zeroed).push timerListCap val = some new) :
    appendTimerToTlist fresh val (fuel + 1) a mem =
      some (Function.update (Function.update mem fresh (some new)) a
        (some { arr with control := some ⟨b.entries.length, some fresh⟩ })) := by
  simp [appendTimerToTlist, harr, hb.control, hfull, hpush]

/-- The timer goes into the first array with room, or into a new one that is linked behind the
last one. No other list is touched. -/
theorem append_sim (h : ChainAt mem as bs) (hnodup : as.Nodup) (val : τ)
    (ha : as.head? = some a) (hfresh : mem fresh = none) :
    ∃ mem' as', (∀ fuel, appendTimerToTlist fresh val (fuel + as.length) a mem = some mem') ∧
      ChainAt mem' as' (bs.append val) ∧ (as' = as ∨ as' = as ++ [fresh]) ∧
      ∀ x, x ∉ as → x ≠ fresh → mem' x = mem x := by
  induction h generalizing a with
  | nil => cases ha
  | @cons a₀ as arr b bs harr hb hrest ih =>
    cases ha
    obtain ⟨hnot, hnodup⟩ := List.nodup_cons.mp hnodup
    have hne : a₀ ≠ fresh := by
      rintro rfl
      rw [harr] at hfresh
      cases hfresh
    by_cases hroom : b.entries.length < timerListCap
    · obtain ⟨arr', hpush, hb'⟩ := hb.push val hroom
      rw [Chain.append_of_room hroom]
      refine ⟨_, a₀ :: as, fun fuel => appendTimerToTlist_of_room harr hb hroom hpush,
        .cons (Function.update_self ..) hb' (hrest.congr fun x hx => ?_), .inl rfl,
        fun x hx _ => Function.update_of_ne (List.ne_of_not_mem_cons hx) _ _⟩
      exact Function.update_of_ne (ne_of_mem_of_not_mem hx hnot) _ _
    · rw [Chain.append_of_full hroom]
      cases as with
      | nil =>
        cases hrest
        obtain ⟨new, hpush, hnew⟩ := push_init val
        refine ⟨_, [a₀, fresh], fun fuel => appendTimerToTlist_of_last harr hb hroom hpush,
          .cons (Function.update_self ..) ⟨rfl, hb.slot⟩ (.cons ?_ hnew .nil), .inr rfl, ?_⟩
        · rw [Function.update_of_ne hne.symm]
          exact Function.update_self ..
        · intro x hx hxf
          rw [Function.update_of_ne (List.ne_of_not_mem_cons hx), Function.update_of_ne hxf]
      | cons a₁ as =>
        obtain ⟨mem', as', happend, hchain, has', hframe⟩ := ih hnodup rfl
        have hb' : arr.Holds b as'.head? := by
          rcases has' with rfl | rfl
          · exact hb
          · exact hb
        refine ⟨mem', a₀ :: as', fun fuel => ?_, .cons ?_ hb' hchain, ?_, ?_⟩
        · exact (appendTimerToTlist_of_next harr hb hroom).trans (happend fuel)
        · rw [hframe a₀ hnot hne, harr]
        · exact has'.imp (congrArg (a₀ :: ·)) (congrArg (a₀ :: ·))
        · intro x hx hxf
          exact hframe x (fun hmem => hx (List.mem_cons_of_mem _ hmem)) hxf

end Append

/-! ## Removing -/

section RemoveByWorker

variable {owned : τ → Bool} {next : Option Addr} {arr : SlotArray Addr τ}
  {b : BArray timerListCap τ}

theorem dropByWorker_of_not_owned {t : τ} (h : owned t = false) (ts : List τ) :
    Sched.dropByWorker owned (t :: ts) = t :: Sched.dropByWorker owned ts := by
  cases ts with
  | nil => simp [Sched.dropByWorker, h]
  | cons u ts => simp [Sched.dropByWorker, h]

theorem removeByWorkerLoop_of_end (hb : arr.Holds b next) {pos : Nat}
    (hpos : b.entries.length < pos) (hfuel : 0 < fuel) :
    removeByWorkerLoop owned fuel pos arr = some arr := by
  obtain ⟨fuel, rfl⟩ := Nat.exists_eq_succ_of_ne_zero hfuel.ne'
  simp [removeByWorkerLoop, hb.control, hpos]

theorem removeByWorkerLoop_of_lt (hb : arr.Holds b next) {i : Nat} {t : τ}
    (hi : b.entries[i]? = some t) :
    removeByWorkerLoop owned (fuel + 1) (i + 1) arr =
      (if owned t then arr.delete timerListCap (i + 1) else some arr).bind
        (removeByWorkerLoop owned fuel (i + 1 + 1)) := by
  have hlt := (List.getElem?_eq_some_iff.mp hi).1
  have hget := hb.get (hlt.trans_le b.le)
  rw [hi] at hget
  rw [removeByWorkerLoop, hb.control]
  dsimp only [bind, Option.bind]
  rw [if_pos (show i + 1 ≤ b.entries.length from hlt), hget]
  cases howned : owned t with
  | false => simp [howned]
  | true => simp [howned]

/-- The loop over one array, from the place behind `pre` on. A removal moves the next timer
into the place just handled. -/
theorem removeByWorkerLoop_sim (hb : arr.Holds b next) {pre ts : List τ}
    (hsplit : b.entries = pre ++ ts) :
    ∃ (arr' : SlotArray Addr τ) (b' : BArray timerListCap τ),
      (∀ fuel, ts.length < fuel →
        removeByWorkerLoop owned fuel (pre.length + 1) arr = some arr') ∧
      arr'.Holds b' next ∧ b'.entries = pre ++ Sched.dropByWorker owned ts := by
  induction hn : ts.length using Nat.strong_induction_on generalizing arr b pre ts with
  | _ n ih =>
    subst hn
    cases ts with
    | nil =>
      have hend : b.entries.length < pre.length + 1 := by simp [hsplit]
      exact ⟨arr, b, fun fuel hfuel => removeByWorkerLoop_of_end hb hend hfuel, hb, hsplit⟩
    | cons t ts =>
      have hi : b.entries[pre.length]? = some t := by simp [hsplit]
      have hpre : (pre ++ [t]).length + 1 = pre.length + 1 + 1 := by simp
      cases howned : owned t with
      | false =>
        rw [dropByWorker_of_not_owned howned, List.append_cons]
        rw [List.append_cons] at hsplit
        obtain ⟨arr', b', hloop, hb', hentries⟩ := ih ts.length (Nat.lt_succ_self _) hb hsplit rfl
        refine ⟨arr', b', fun fuel hfuel => ?_, hb', hentries⟩
        obtain ⟨fuel, rfl⟩ := Nat.exists_eq_succ_of_ne_zero (Nat.ne_zero_of_lt hfuel)
        have hrest := hloop fuel (Nat.lt_of_succ_lt_succ hfuel)
        rw [hpre] at hrest
        rw [removeByWorkerLoop_of_lt hb hi, howned]
        exact hrest
      | true =>
        obtain ⟨arr₁, hdelete, hb₁⟩ := hb.delete (List.getElem?_eq_some_iff.mp hi).1
        have hsplit₁ : (b.eraseIdx pre.length).entries = pre ++ ts := by
          simp [hsplit, List.eraseIdx_append_of_length_le]
        have hstep : ∀ fuel, removeByWorkerLoop owned (fuel + 1) (pre.length + 1) arr =
            removeByWorkerLoop owned fuel (pre.length + 1 + 1) arr₁ := fun fuel => by
          rw [removeByWorkerLoop_of_lt hb hi, if_pos howned, hdelete, Option.bind_some]
        cases ts with
        | nil =>
          have hend : (b.eraseIdx pre.length).entries.length < pre.length + 1 + 1 := by
            rw [hsplit₁]
            simp
          refine ⟨arr₁, _, fun fuel hfuel => ?_, hb₁, ?_⟩
          · obtain ⟨fuel, rfl⟩ := Nat.exists_eq_succ_of_ne_zero (Nat.ne_zero_of_lt hfuel)
            exact (hstep fuel).trans
              (removeByWorkerLoop_of_end hb₁ hend (Nat.lt_of_succ_lt_succ hfuel))
          · rw [hsplit₁, Sched.dropByWorker, if_pos howned]
        | cons u ts =>
          rw [List.append_cons] at hsplit₁
          obtain ⟨arr', b', hloop, hb', hentries⟩ :=
            ih ts.length (by simp) hb₁ hsplit₁ rfl
          refine ⟨arr', b', fun fuel hfuel => ?_, hb', ?_⟩
          · obtain ⟨fuel, rfl⟩ := Nat.exists_eq_succ_of_ne_zero (Nat.ne_zero_of_lt hfuel)
            rw [hstep fuel, ← hloop fuel (by simp at hfuel; omega)]
            simp
          · rw [hentries, Sched.dropByWorker, if_pos howned, List.append_assoc]
            rfl

theorem removeTimerFromListByWorker_of_next {a next : Addr} {arr' : SlotArray Addr τ}
    {b : BArray timerListCap τ} (harr : mem a = some arr)
    (hloop : removeByWorkerLoop owned (fuel + 1) 1 arr = some arr')
    (hb : arr'.Holds b (some next)) :
    removeTimerFromListByWorker owned (fuel + 1) a mem =
      removeTimerFromListByWorker owned fuel next (Function.update mem a (some arr')) := by
  simp [removeTimerFromListByWorker, harr, hloop, hb.control]

theorem removeTimerFromListByWorker_of_last {a : Addr} {arr' : SlotArray Addr τ}
    {b : BArray timerListCap τ} (harr : mem a = some arr)
    (hloop : removeByWorkerLoop owned (fuel + 1) 1 arr = some arr') (hb : arr'.Holds b none) :
    removeTimerFromListByWorker owned (fuel + 1) a mem =
      some (Function.update mem a (some arr')) := by
  simp [removeTimerFromListByWorker, harr, hloop, hb.control]

/-- The timers of a worker are removed, one array after the other. -/
theorem removeByWorker_sim (h : ChainAt mem as bs) (hnodup : as.Nodup) {a : Addr}
    (ha : as.head? = some a) :
    ∃ mem', (∀ fuel, timerListCap ≤ fuel →
        removeTimerFromListByWorker owned (fuel + as.length) a mem = some mem') ∧
      ChainAt mem' as (bs.map fun b => ⟨Sched.dropByWorker owned b.entries,
        (Sched.length_dropByWorker_le _ _).trans b.le⟩) ∧
      ∀ x, x ∉ as → mem' x = mem x := by
  induction as generalizing mem bs a with
  | nil => cases ha
  | cons a₀ as ih =>
    cases ha
    obtain ⟨hnot, hnodup⟩ := List.nodup_cons.mp hnodup
    cases h with
    | @cons _ _ arr b bs harr hb hrest =>
      obtain ⟨arr', b', hloop, hb', hentries⟩ :=
        removeByWorkerLoop_sim hb (List.nil_append b.entries).symm
      obtain rfl : b' = ⟨Sched.dropByWorker owned b.entries,
          (Sched.length_dropByWorker_le _ _).trans b.le⟩ := BArray.ext hentries
      have hloop : ∀ fuel, timerListCap ≤ fuel →
          removeByWorkerLoop owned (fuel + as.length + 1) 1 arr = some arr' := fun fuel hfuel =>
        hloop _ (Nat.lt_succ_of_le ((b.le.trans hfuel).trans (Nat.le_add_right _ _)))
      have hrest' : ChainAt (Function.update mem a₀ (some arr')) as bs :=
        hrest.congr fun x hx => Function.update_of_ne (ne_of_mem_of_not_mem hx hnot) _ _
      cases as with
      | nil =>
        cases hrest
        refine ⟨_, fun fuel hfuel =>
          removeTimerFromListByWorker_of_last harr (hloop fuel hfuel) hb',
          .cons (Function.update_self ..) hb' .nil, fun x hx => ?_⟩
        exact Function.update_of_ne (List.ne_of_not_mem_cons hx) _ _
      | cons a₁ as =>
        obtain ⟨mem', hremove, hchain, hframe⟩ := ih hrest' hnodup rfl
        refine ⟨mem', fun fuel hfuel => ?_, .cons ?_ hb' hchain, fun x hx => ?_⟩
        · exact (removeTimerFromListByWorker_of_next harr (hloop fuel hfuel) hb').trans
            (hremove fuel hfuel)
        · rw [hframe _ hnot]
          exact Function.update_self ..
        · rw [hframe x fun hmem => hx (List.mem_cons_of_mem _ hmem)]
          exact Function.update_of_ne (List.ne_of_not_mem_cons hx) _ _

end RemoveByWorker

section Remove

variable [DecidableEq τ] {val : τ} {next : Option Addr} {arr : SlotArray Addr τ}
  {b : BArray timerListCap τ}

theorem removeLoop_of_end (hb : arr.Holds b next) {pos : Nat} (hpos : b.entries.length < pos)
    (hfuel : 0 < fuel) : removeLoop val fuel pos arr = some none := by
  obtain ⟨fuel, rfl⟩ := Nat.exists_eq_succ_of_ne_zero hfuel.ne'
  simp [removeLoop, hb.control, hpos]

theorem removeLoop_of_lt (hb : arr.Holds b next) {i : Nat} {t : τ} (hi : b.entries[i]? = some t) :
    removeLoop val (fuel + 1) (i + 1) arr =
      if t = val then (arr.delete timerListCap (i + 1)).map some
      else removeLoop val fuel (i + 1 + 1) arr := by
  have hlt := (List.getElem?_eq_some_iff.mp hi).1
  have hget := hb.get (hlt.trans_le b.le)
  rw [hi] at hget
  rw [removeLoop, hb.control, Option.bind_eq_bind, Option.bind_some,
    if_pos (show i + 1 ≤ b.entries.length from hlt), hget]
  simp only [Option.bind_eq_bind, Option.bind_some, Option.some.injEq]
  split
  · cases arr.delete timerListCap (i + 1) <;> rfl
  · rfl

/-- The loop over one array, from the place behind `pre` on, which does not have the timer. -/
theorem removeLoop_sim (hb : arr.Holds b next) {pre ts : List τ} (hsplit : b.entries = pre ++ ts)
    (hpre : val ∉ pre) :
    (val ∉ b.entries ∧
      ∀ fuel, ts.length < fuel → removeLoop val fuel (pre.length + 1) arr = some none) ∨
    (val ∈ b.entries ∧ ∃ arr', (∀ fuel, ts.length < fuel →
        removeLoop val fuel (pre.length + 1) arr = some (some arr')) ∧
      arr'.Holds (b.eraseIdx (b.entries.idxOf val)) next) := by
  induction ts generalizing pre with
  | nil =>
    rw [List.append_nil] at hsplit
    have hend : b.entries.length < pre.length + 1 := by simp [hsplit]
    exact .inl ⟨hsplit ▸ hpre, fun fuel hfuel => removeLoop_of_end hb hend hfuel⟩
  | cons t ts ih =>
    have hi : b.entries[pre.length]? = some t := by simp [hsplit]
    by_cases heq : t = val
    · subst heq
      have hidx : b.entries.idxOf t = pre.length := by
        rw [hsplit, List.idxOf_append_of_notMem hpre]
        simp
      obtain ⟨arr', hdelete, hb'⟩ := hb.delete (List.getElem?_eq_some_iff.mp hi).1
      refine .inr ⟨List.mem_of_getElem? hi, arr', fun fuel hfuel => ?_, hidx ▸ hb'⟩
      obtain ⟨fuel, rfl⟩ := Nat.exists_eq_succ_of_ne_zero (Nat.ne_zero_of_lt hfuel)
      rw [removeLoop_of_lt hb hi, if_pos rfl, hdelete]
      rfl
    · rw [List.append_cons] at hsplit
      have hpre' : val ∉ pre ++ [t] := by simp [hpre, Ne.symm heq]
      have hstep : ∀ fuel, (t :: ts).length < fuel → ∃ n, ts.length < n ∧
          removeLoop val fuel (pre.length + 1) arr =
            removeLoop val n ((pre ++ [t]).length + 1) arr := by
        intro fuel hfuel
        obtain ⟨fuel, rfl⟩ := Nat.exists_eq_succ_of_ne_zero (Nat.ne_zero_of_lt hfuel)
        refine ⟨fuel, Nat.lt_of_succ_lt_succ hfuel, ?_⟩
        rw [removeLoop_of_lt hb hi, if_neg heq, List.length_append, List.length_singleton]
      rcases ih hsplit hpre' with ⟨hno, hloop⟩ | ⟨hin, arr', hloop, hb'⟩
      · refine .inl ⟨hno, fun fuel hfuel => ?_⟩
        obtain ⟨n, hn, hsame⟩ := hstep fuel hfuel
        exact hsame.trans (hloop n hn)
      · refine .inr ⟨hin, arr', fun fuel hfuel => ?_, hb'⟩
        obtain ⟨n, hn, hsame⟩ := hstep fuel hfuel
        exact hsame.trans (hloop n hn)

theorem removeTimerFromList_of_found {a : Addr} {arr' : SlotArray Addr τ} (harr : mem a = some arr)
    (hloop : removeLoop val (fuel + 1) 1 arr = some (some arr')) :
    removeTimerFromList val (fuel + 1) a mem =
      some (some (Function.update mem a (some arr'))) := by
  simp [removeTimerFromList, harr, hloop]

theorem removeTimerFromList_of_next {a next : Addr} (harr : mem a = some arr)
    (hloop : removeLoop val (fuel + 1) 1 arr = some none) (hb : arr.Holds b (some next)) :
    removeTimerFromList val (fuel + 1) a mem = removeTimerFromList val fuel next mem := by
  simp [removeTimerFromList, harr, hloop, hb.control]

theorem removeTimerFromList_of_last {a : Addr} (harr : mem a = some arr)
    (hloop : removeLoop val (fuel + 1) 1 arr = some none) (hb : arr.Holds b none) :
    removeTimerFromList val (fuel + 1) a mem = some none := by
  simp [removeTimerFromList, harr, hloop, hb.control]

/-- The timer is removed from the first array that has it, or it is in none. -/
theorem remove_sim (h : ChainAt mem as bs) (hnodup : as.Nodup) {a : Addr}
    (ha : as.head? = some a) :
    (bs.removeFirst val = none ∧ ∀ fuel, timerListCap ≤ fuel →
      removeTimerFromList val (fuel + as.length) a mem = some none) ∨
    ∃ bs' mem', bs.removeFirst val = some bs' ∧
      (∀ fuel, timerListCap ≤ fuel →
        removeTimerFromList val (fuel + as.length) a mem = some (some mem')) ∧
      ChainAt mem' as bs' ∧ ∀ x, x ∉ as → mem' x = mem x := by
  induction h generalizing a with
  | nil => cases ha
  | @cons a₀ as arr b bs harr hb hrest ih =>
    cases ha
    obtain ⟨hnot, hnodup⟩ := List.nodup_cons.mp hnodup
    have hlen : ∀ fuel, timerListCap ≤ fuel → b.entries.length < fuel + as.length + 1 :=
      fun fuel hfuel => Nat.lt_succ_of_le ((b.le.trans hfuel).trans (Nat.le_add_right _ _))
    rcases removeLoop_sim hb (List.nil_append b.entries).symm List.not_mem_nil with
      ⟨hno, hloop⟩ | ⟨hin, arr', hloop, hb'⟩
    · -- The timer is not in this array, and the search goes on in the next one.
      rw [Chain.removeFirst, if_neg hno]
      have hloop : ∀ fuel, timerListCap ≤ fuel →
          removeLoop val (fuel + as.length + 1) 1 arr = some none := fun fuel hfuel =>
        hloop _ (hlen fuel hfuel)
      cases as with
      | nil =>
        cases hrest
        exact .inl ⟨rfl, fun fuel hfuel =>
          removeTimerFromList_of_last harr (hloop fuel hfuel) hb⟩
      | cons a₁ as =>
        rcases ih hnodup rfl with ⟨hnone, hremove⟩ | ⟨bs', mem', hsome, hremove, hchain, hframe⟩
        · refine .inl ⟨by rw [hnone]; rfl, fun fuel hfuel => ?_⟩
          exact (removeTimerFromList_of_next harr (hloop fuel hfuel) hb).trans (hremove fuel hfuel)
        · refine .inr ⟨b :: bs', mem', by rw [hsome]; rfl, fun fuel hfuel => ?_, .cons ?_ hb hchain,
            fun x hx => hframe x fun hmem => hx (List.mem_cons_of_mem _ hmem)⟩
          · exact (removeTimerFromList_of_next harr (hloop fuel hfuel) hb).trans
              (hremove fuel hfuel)
          · rw [hframe a₀ hnot, harr]
    · rw [Chain.removeFirst, if_pos hin]
      refine .inr ⟨_, Function.update mem a₀ (some arr'), rfl, fun fuel hfuel =>
        removeTimerFromList_of_found harr (hloop _ (hlen fuel hfuel)),
        .cons (Function.update_self ..) hb' (hrest.congr fun x hx => ?_), fun x hx => ?_⟩
      · exact Function.update_of_ne (ne_of_mem_of_not_mem hx hnot) _ _
      · exact Function.update_of_ne (List.ne_of_not_mem_cons hx) _ _

end Remove

end LMiced.Arrays
