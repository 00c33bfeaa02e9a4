import LMiced.Resource.Right

/-!
# The trees of a thread

Each thread of the scheduler keeps two red-black trees by object and type
(`schedule/filter_tls.h`): the message slots it has delivered to and the objects it has
added to a resource set. The trees are those of `sglib`, which is not part of the
repository. It is told how to compare two keys by `lmice_obj_type_rbtree_cmparator`, the
sum of the two differences. So keys with the same sum are one key for the trees, and a sum
that is more than half the range of 64 bits ahead counts as smaller.

Signed overflow wraps around here, as it does on the machines the server runs on.

* `cmparator_le_zero_iff`: the comparison looks at how far the sums are apart;
* `cmparator_total_order_iff`: for which keys it is a total order, and when a key that is
  found in a tree is the key that was looked for.
-/

namespace LMiced

/-! ## The code -/

/-- `lmice_obj_type_rbtree_cmparator`. -/
def lmiceObjTypeRbtreeCmparator (x y : ResPair) : Int64 :=
  (x.objectId.toInt64 - y.objectId.toInt64) + (x.typeId.toInt64 - y.typeId.toInt64)

/-- What is assumed of `find_member` of `sglib`: it returns a stored element that compares
equal, if there is one. -/
def FindMember {τ ν : Type} (key : ν → ResPair) (stored : τ → Set ν)
    (find : τ → ResPair → Option ν) : Prop :=
  ∀ tree pair,
    (∀ node, find tree pair = some node →
      node ∈ stored tree ∧ lmiceObjTypeRbtreeCmparator pair (key node) = 0) ∧
    (find tree pair = none →
      ∀ node ∈ stored tree, lmiceObjTypeRbtreeCmparator pair (key node) ≠ 0)

/-! ## The comparison -/

/-- All that the comparison sees of a key. -/
def ResPair.sum (pair : ResPair) : UInt64 := pair.objectId + pair.typeId

/-- How far the sum of `y` is ahead of the sum of `x`. -/
def ResPair.ahead (x y : ResPair) : Nat := (y.sum - x.sum).toNat

/-- What a comparison by a total order does at three keys. -/
def TotalOrderAt (cmp : ResPair → ResPair → Int64) (x y z : ResPair) : Prop :=
  (cmp x y = 0 ↔ x = y) ∧ (cmp y x).toInt.sign = -(cmp x y).toInt.sign ∧
    (cmp x y ≤ 0 → cmp y z ≤ 0 → cmp x z ≤ 0)

theorem cmparator_eq_sub_sum (x y : ResPair) :
    lmiceObjTypeRbtreeCmparator x y = (x.sum - y.sum).toInt64 := by
  apply Int64.toBitVec_inj.mp
  simp only [lmiceObjTypeRbtreeCmparator, ResPair.sum, Int64.toBitVec_add, Int64.toBitVec_sub,
    UInt64.toBitVec_toInt64, UInt64.toBitVec_sub, UInt64.toBitVec_add]
  abel

/-- The comparison is the distance of the sums, read as a signed number. -/
theorem toInt_cmparator (x y : ResPair) :
    (lmiceObjTypeRbtreeCmparator x y).toInt =
      if 2 * y.ahead x < 2 ^ 64 then (y.ahead x : Int) else y.ahead x - 2 ^ 64 := by
  rw [cmparator_eq_sub_sum, ← Int64.toInt_toBitVec, BitVec.toInt_eq_toNat_cond]
  rfl

section Distances

variable {x y z : ResPair}

theorem ahead_lt : x.ahead y < 2 ^ 64 := UInt64.toNat_lt _

theorem ahead_eq_zero_iff : x.ahead y = 0 ↔ x.sum = y.sum := by
  have hx := x.sum.toNat_lt
  have hy := y.sum.toNat_lt
  rw [ResPair.ahead, UInt64.toNat_sub, ← UInt64.toNat_inj]
  omega

/-- Distances add up around the circle. -/
theorem ahead_trans : x.ahead z = (x.ahead y + y.ahead z) % 2 ^ 64 := by
  have hx := x.sum.toNat_lt
  have hy := y.sum.toNat_lt
  simp only [ResPair.ahead, UInt64.toNat_sub]
  omega

theorem ahead_swap : y.ahead x = (2 ^ 64 - x.ahead y) % 2 ^ 64 := by
  have hround : y.ahead y = (y.ahead x + x.ahead y) % 2 ^ 64 := ahead_trans
  rw [ahead_eq_zero_iff.mpr rfl] at hround
  have hxy := ahead_lt (x := x) (y := y)
  have hyx := ahead_lt (x := y) (y := x)
  omega

theorem cmparator_eq_zero_iff : lmiceObjTypeRbtreeCmparator x y = 0 ↔ x.sum = y.sum := by
  have hlt := ahead_lt (x := y) (y := x)
  rw [← Int64.toInt_inj, toInt_cmparator, Int64.toInt_zero, eq_comm (a := x.sum),
    ← ahead_eq_zero_iff]
  split_ifs <;> omega

theorem cmparator_le_zero_iff : lmiceObjTypeRbtreeCmparator x y ≤ 0 ↔ x.ahead y ≤ 2 ^ 63 := by
  have hlt := ahead_lt (x := x) (y := y)
  have hswap := ahead_swap (x := x) (y := y)
  rw [Int64.le_iff_toInt_le, toInt_cmparator]
  simp only [Int64.toInt_zero]
  split_ifs <;> omega

/-- The comparison of the swapped keys has the opposite sign, except for sums that are
half the range apart. -/
theorem sign_cmparator_swap_iff : (lmiceObjTypeRbtreeCmparator y x).toInt.sign =
    -(lmiceObjTypeRbtreeCmparator x y).toInt.sign ↔ x.ahead y ≠ 2 ^ 63 := by
  have hlt := ahead_lt (x := x) (y := y)
  have hswap := ahead_swap (x := x) (y := y)
  constructor
  · intro hsign hhalf
    have hxy : (lmiceObjTypeRbtreeCmparator x y).toInt = -2 ^ 63 := by
      rw [toInt_cmparator]
      split_ifs <;> omega
    have hyx : (lmiceObjTypeRbtreeCmparator y x).toInt = -2 ^ 63 := by
      rw [toInt_cmparator]
      split_ifs <;> omega
    rw [hxy, hyx] at hsign
    exact absurd hsign (by decide)
  · intro hhalf
    have hneg : (lmiceObjTypeRbtreeCmparator y x).toInt =
        -(lmiceObjTypeRbtreeCmparator x y).toInt := by
      rw [toInt_cmparator, toInt_cmparator]
      split_ifs <;> omega
    rw [hneg, Int.sign_neg]

/-- At which keys the comparison does what a total order does. -/
theorem totalOrderAt_cmparator_iff : TotalOrderAt lmiceObjTypeRbtreeCmparator x y z ↔
    (x.sum = y.sum → x = y) ∧ x.ahead y ≠ 2 ^ 63 ∧
      ¬(x.ahead y ≤ 2 ^ 63 ∧ y.ahead z ≤ 2 ^ 63 ∧ 2 ^ 63 < x.ahead y + y.ahead z) := by
  have hequal : (x.sum = y.sum ↔ x = y) ↔ (x.sum = y.sum → x = y) :=
    ⟨Iff.mp, fun h => ⟨h, congrArg ResPair.sum⟩⟩
  have hxz := ahead_trans (x := x) (y := y) (z := z)
  rw [TotalOrderAt, cmparator_eq_zero_iff, hequal, sign_cmparator_swap_iff, cmparator_le_zero_iff,
    cmparator_le_zero_iff, cmparator_le_zero_iff]
  refine and_congr_right fun _ => and_congr_right fun hhalf => ?_
  omega

end Distances

/-! ## Hits -/

/-- Every stored element that compares equal is found by some correct search. -/
theorem exists_findMember {τ ν : Type} {key : ν → ResPair} {stored : τ → Set ν} {tree : τ}
    {pair : ResPair} {node : ν} (hnode : node ∈ stored tree)
    (hcmp : lmiceObjTypeRbtreeCmparator pair (key node) = 0) :
    ∃ find, FindMember key stored find ∧ find tree pair = some node := by
  classical
  -- One call of the search, with the answer fixed for this tree and this key.
  have hcall : ∀ tree' pair', ∃ hit : Option ν,
      (∀ found, hit = some found →
        found ∈ stored tree' ∧ lmiceObjTypeRbtreeCmparator pair' (key found) = 0) ∧
      (hit = none →
        ∀ other ∈ stored tree', lmiceObjTypeRbtreeCmparator pair' (key other) ≠ 0) ∧
      (tree' = tree → pair' = pair → hit = some node) := by
    intro tree' pair'
    by_cases hthis : tree' = tree ∧ pair' = pair
    · obtain ⟨rfl, rfl⟩ := hthis
      refine ⟨some node, ?_, nofun, fun _ _ => rfl⟩
      rintro found ⟨⟩
      exact ⟨hnode, hcmp⟩
    · by_cases hany : ∃ found ∈ stored tree', lmiceObjTypeRbtreeCmparator pair' (key found) = 0
      · obtain ⟨found, hfound, hequal⟩ := hany
        refine ⟨some found, ?_, nofun, fun ht hp => absurd ⟨ht, hp⟩ hthis⟩
        rintro other ⟨⟩
        exact ⟨hfound, hequal⟩
      · exact ⟨none, nofun, fun _ other hother hequal => hany ⟨other, hother, hequal⟩,
          fun ht hp => absurd ⟨ht, hp⟩ hthis⟩
  choose find hsome hnone hthis using hcall
  exact ⟨find, fun tree' pair' => ⟨hsome tree' pair', hnone tree' pair'⟩,
    hthis tree pair rfl rfl⟩

/-- A search for a key finds this key and no other, whatever correct search it is, if and
only if no other key of the tree has the same sum. -/
theorem hit_is_key_iff {τ ν : Type} (key : ν → ResPair) (stored : τ → Set ν) (tree : τ)
    (pair : ResPair) :
    (∀ find, FindMember key stored find → ∀ node, find tree pair = some node →
      key node = pair) ↔
      ∀ node ∈ stored tree, (key node).sum = pair.sum → key node = pair := by
  constructor
  · intro h node hnode hsum
    obtain ⟨find, hfind, hhit⟩ :=
      exists_findMember hnode (cmparator_eq_zero_iff.mpr hsum.symm)
    exact h find hfind node hhit
  · intro h find hfind node hhit
    obtain ⟨hnode, hcmp⟩ := (hfind tree pair).1 node hhit
    exact h node hnode (cmparator_eq_zero_iff.mp hcmp).symm

/-- `lmice_obj_type_rbtree_cmparator` is a total order at three keys if and only if the
first two have different sums or are the same, are not half the range of 64 bits apart, and
the third key is not more than half the range ahead of the first by way of the second. A
hit is for the key that was looked for if and only if no other key of the tree has the same
sum. -/
theorem cmparator_total_order_iff (x y z : ResPair) {τ ν : Type} (key : ν → ResPair)
    (stored : τ → Set ν) (tree : τ) (pair : ResPair) :
    (TotalOrderAt lmiceObjTypeRbtreeCmparator x y z ↔
      (x.sum = y.sum → x = y) ∧ x.ahead y ≠ 2 ^ 63 ∧
        ¬(x.ahead y ≤ 2 ^ 63 ∧ y.ahead z ≤ 2 ^ 63 ∧ 2 ^ 63 < x.ahead y + y.ahead z)) ∧
    ((∀ find, FindMember key stored find → ∀ node, find tree pair = some node →
      key node = pair) ↔
      ∀ node ∈ stored tree, (key node).sum = pair.sum → key node = pair) :=
  ⟨totalOrderAt_cmparator_iff, hit_is_key_iff key stored tree pair⟩

/-- Object 1 of type 0 and object 0 of type 1 are one key for the trees. -/
theorem different_keys_compare_equal :
    ¬∀ x y z, TotalOrderAt lmiceObjTypeRbtreeCmparator x y z := by
  intro h
  have heq := (h ⟨0, 1⟩ ⟨1, 0⟩ ⟨0, 0⟩).1.mp (by decide)
  exact absurd heq (by decide)

end LMiced
