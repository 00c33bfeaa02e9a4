import LMiced.Eal.Bloom

/-!
# The hash functions of the Bloom filter

What the sixteen functions of `eal_bf_hash_list` have to do with each other, and which bytes
of the content they read.

* `hashes_differ_iff`: two functions are different, unless they are `eal_bf_rshash` and
  `eal_bf_jshash`, or `eal_bf_pjwhash` and `eal_bf_elfhash`;
* `value_safe_iff`: `eal_bf_value` divides by zero for the empty content, and reads outside
  of the content where the length of the blocks of `eal_bf_murmur3hash` does not fit in an
  `int`.
-/

namespace LMiced.Bloom

/-! ## Equal functions -/

theorem getLsbD_high (j : Nat) : (0xF0000000#32).getLsbD j = decide (28 ≤ j ∧ j < 32) := by
  by_cases hj : j < 32
  · have h : ∀ k : Fin 32, (0xF0000000#32).getLsbD k.val = decide (28 ≤ k.val) := by decide
    rw [h ⟨j, hj⟩]
    simp [hj]
  · rw [BitVec.getLsbD_of_ge _ _ (Nat.le_of_not_lt hj)]
    simp [hj]

theorem clear_high_bitVec (hash : BitVec 32) :
    (hash ^^^ ((hash &&& 0xF0000000#32) >>> 24)) &&& ~~~ 0xF0000000#32 =
      (hash ^^^ ((hash &&& 0xF0000000#32) >>> 24)) &&& ~~~ (hash &&& 0xF0000000#32) := by
  apply BitVec.eq_of_getLsbD_eq
  intro j hj
  simp only [BitVec.getLsbD_and, BitVec.getLsbD_xor, BitVec.getLsbD_not,
    BitVec.getLsbD_ushiftRight, getLsbD_high, hj]
  by_cases h : 28 ≤ j
  · -- The bits that are shifted in lie below the high ones.
    have hshift : ¬ (28 ≤ 24 + j ∧ 24 + j < 32) := by omega
    simp [h, hshift]
  · simp [h]

/-- Clearing the four high bits, or only those of them that are set. -/
theorem clear_high (hash : UInt32) :
    (hash ^^^ ((hash &&& 0xF0000000) >>> 24)) &&& ~~~ (0xF0000000 : UInt32) =
      (hash ^^^ ((hash &&& 0xF0000000) >>> 24)) &&& ~~~ (hash &&& 0xF0000000) :=
  UInt32.eq_of_toBitVec_eq (clear_high_bitVec hash.toBitVec)

theorem elfhash_eq_pjwhash (str : List UInt8) : ealBfElfhash str = ealBfPjwhash str := by
  unfold ealBfElfhash ealBfPjwhash
  congr 1
  funext hash c
  dsimp only
  generalize (hash <<< 4) + c.toUInt32 = hash
  split
  · exact (clear_high hash).symm
  · next h =>
    rw [not_not.mp h]
    simp

/-- The same function, or one of two that always agree. -/
def Agree (i j : Fin 16) : Prop :=
  i = j ∨ (i.val < 2 ∧ j.val < 2) ∨ ((i.val = 2 ∨ i.val = 3) ∧ (j.val = 2 ∨ j.val = 3))

instance decidableAgree (i j : Fin 16) : Decidable (Agree i j) :=
  inferInstanceAs (Decidable (_ ∨ _))

theorem hashList_eq_of_agree {i j : Fin 16} (h : Agree i j) (str : List UInt8) :
    ealBfHashList i str = ealBfHashList j str := by
  have hrs : ∀ k : Fin 16, k.val < 2 → ealBfHashList k str = some (ealBfRshash str) := by
    intro k hk
    obtain rfl | rfl : k = 0 ∨ k = 1 := by omega
    · rfl
    · rfl
  have hpjw : ∀ k : Fin 16, k.val = 2 ∨ k.val = 3 →
      ealBfHashList k str = some (ealBfPjwhash str) := by
    intro k hk
    obtain rfl | rfl : k = 2 ∨ k = 3 := by omega
    · rfl
    · exact congrArg some (elfhash_eq_pjwhash str)
  rcases h with rfl | ⟨hi, hj⟩ | ⟨hi, hj⟩
  · rfl
  · rw [hrs i hi, hrs j hj]
  · rw [hpjw i hi, hpjw j hj]

/-- A content on which all other pairs of functions differ. -/
def sampleContent : List UInt8 := [104, 101, 108, 108, 111]

theorem hashList_ne_of_not_agree :
    ∀ i j : Fin 16, ¬ Agree i j →
      ealBfHashList i sampleContent ≠ ealBfHashList j sampleContent := by
  decide +kernel

/-- Two functions of the list differ on some content, unless they are the same function or
a pair of functions that always agree. -/
theorem hashes_differ_iff (i j : Fin 16) :
    (∃ str : List UInt8, str.length < 2 ^ 32 ∧ ealBfHashList i str ≠ ealBfHashList j str) ↔
      ¬ Agree i j := by
  constructor
  · rintro ⟨str, _, hne⟩ h
    exact hne (hashList_eq_of_agree h str)
  · intro h
    exact ⟨sampleContent, by decide, hashList_ne_of_not_agree i j h⟩

/-- `eal_bf_rshash` and `eal_bf_jshash` are the same function, and `eal_bf_pjwhash` and
`eal_bf_elfhash` are. -/
theorem hashes_agree_on_all_contents :
    (∀ str, ealBfHashList 0 str = ealBfHashList 1 str) ∧
      ∀ str, ealBfHashList 2 str = ealBfHashList 3 str :=
  ⟨hashList_eq_of_agree (by decide), hashList_eq_of_agree (by decide)⟩

/-! ## The bytes that are read

The places of the bytes of the content that a hash function reads for a given `len`, in the
arithmetic of the source. -/

/-- `for(i=0; i<len; str++, i++)`. -/
def forwardReads (len : UInt32) : List Int := (List.range len.toNat).map fun i : Nat => (i : Int)

/-- `for(i=1; i<len; i++, str++)` of `eal_bf_hkhash`. -/
def hkReads (len : UInt32) : List Int := (List.range (len.toNat - 1)).map fun i : Nat => (i : Int)

/-- `str[i-1]`, or `str[i+len-96-1]` for a long content, of `eal_bf_tianlHash`. -/
def tianlReads (len : UInt32) : List Int :=
  if len ≤ 96 then (List.range len.toNat).map fun i : Nat => (i : Int)
  else (List.range 96).map fun i : Nat => ((UInt32.ofNat (i + 1) + len - 96 - 1).toNat : Int)

/-- `nblocks` of `eal_bf_murmur3hash`. -/
def nblocks (len : UInt32) : Int32 := (len / 4).toInt32

/-- The bytes of `blocks[i]`, and `tail[0]` up to `tail[2]`. The product `nblocks * 4` is
computed in `int`. -/
def murmurReads (len : UInt32) : List Int :=
  ((List.range (nblocks len).toInt.toNat).flatMap fun i =>
    (List.range 4).map fun j => ((4 * i + j : Nat) : Int)) ++
  (List.range (len &&& 3).toNat).map fun j : Nat => (nblocks len * 4).toInt + (j : Int)

/-- The bytes that a function of the list reads. -/
def reads (i : Fin 16) (len : UInt32) : List Int :=
  if i.val = 12 then hkReads len
  else if i.val = 14 then tianlReads len
  else if i.val = 15 then murmurReads len
  else forwardReads len

/-- All bytes that are read belong to the content. -/
def ReadsInside (ctx : List UInt8) (i : Fin 16) : Prop :=
  ∀ o ∈ reads i (lenOf ctx), 0 ≤ o ∧ o < ctx.length

/-! ## The places of the bytes -/

theorem lenOf_toNat {ctx : List UInt8} (h : ctx.length < 2 ^ 32) :
    (lenOf ctx).toNat = ctx.length := by
  rw [lenOf, UInt32.toNat_ofNat_of_lt' h]

theorem nblocks_toInt (len : UInt32) : (nblocks len).toInt = (len.toNat / 4 : Nat) := by
  have hlt : len.toNat < 2 ^ 32 := len.toNat_lt
  have hnat : (len / 4).toNat = len.toNat / 4 := by
    rw [UInt32.toNat_div]
    rfl
  have hbound : 2 * (len / 4).toBitVec.toNat < 2 ^ 32 := by
    rw [UInt32.toNat_toBitVec, hnat]
    omega
  rw [← hnat]
  exact BitVec.toInt_eq_toNat_of_lt hbound

theorem and_three (len : UInt32) : (len &&& 3).toNat = len.toNat % 4 := by
  rw [UInt32.toNat_and]
  exact Nat.and_two_pow_sub_one_eq_mod len.toNat 2

/-- The place of the tail, which is wrong where the product does not fit. -/
theorem tail_place (len : UInt32) :
    (nblocks len * 4).toInt =
      if len.toNat < 2 ^ 31 then ((4 * (len.toNat / 4) : Nat) : Int)
      else ((4 * (len.toNat / 4) : Nat) : Int) - 2 ^ 32 := by
  have hlt : len.toNat < 2 ^ 32 := len.toNat_lt
  have hfour : (4 : Int32).toInt = 4 := by decide
  rw [Int32.toInt_mul, nblocks_toInt, hfour, Int.bmod_def]
  split_ifs <;> omega

theorem mem_forwardReads {len : UInt32} {o : Int} :
    o ∈ forwardReads len ↔ 0 ≤ o ∧ o < len.toNat := by
  simp only [forwardReads, List.mem_map, List.mem_range]
  constructor
  · rintro ⟨i, hi, rfl⟩
    omega
  · rintro ⟨h0, hlt⟩
    exact ⟨o.toNat, by omega, by omega⟩

theorem mem_hkReads {len : UInt32} {o : Int} :
    o ∈ hkReads len ↔ 0 ≤ o ∧ o + 1 < len.toNat := by
  simp only [hkReads, List.mem_map, List.mem_range]
  constructor
  · rintro ⟨i, hi, rfl⟩
    omega
  · rintro ⟨h0, hlt⟩
    exact ⟨o.toNat, by omega, by omega⟩

theorem mem_tianlReads {len : UInt32} {o : Int} :
    o ∈ tianlReads len ↔ 0 ≤ o ∧ o < len.toNat ∧ (len.toNat : Int) - 96 ≤ o := by
  have hlt : len.toNat < 2 ^ 32 := len.toNat_lt
  unfold tianlReads
  have hle : len ≤ 96 ↔ len.toNat ≤ 96 := UInt32.le_iff_toNat_le
  split
  · next h =>
    have h := hle.mp h
    simp only [List.mem_map, List.mem_range]
    constructor
    · rintro ⟨i, hi, rfl⟩
      omega
    · rintro ⟨h0, hlt, _⟩
      exact ⟨o.toNat, by omega, by omega⟩
  · next h =>
    have h := mt hle.mpr h
    have hplace : ∀ i < 96, (UInt32.ofNat (i + 1) + len - 96 - 1).toNat = len.toNat - 96 + i := by
      intro i hi
      have hi' : (UInt32.ofNat (i + 1)).toNat = i + 1 :=
        UInt32.toNat_ofNat_of_lt' (Nat.lt_trans (Nat.succ_lt_succ hi) (by decide))
      simp only [UInt32.toNat_sub, UInt32.toNat_add, hi', UInt32.reduceToNat]
      omega
    simp only [List.mem_map, List.mem_range]
    constructor
    · rintro ⟨i, hi, rfl⟩
      rw [hplace i hi]
      omega
    · rintro ⟨h0, hlt, hge⟩
      refine ⟨(o - (len.toNat - 96)).toNat, by omega, ?_⟩
      rw [hplace _ (by omega)]
      omega

theorem mem_murmurReads {len : UInt32} {o : Int} :
    o ∈ murmurReads len ↔ (0 ≤ o ∧ o < (4 * (len.toNat / 4) : Nat)) ∨
      ∃ j < len.toNat % 4, o = (nblocks len * 4).toInt + (j : Int) := by
  simp only [murmurReads, nblocks_toInt, Int.toNat_natCast, and_three, List.mem_append,
    List.mem_flatMap, List.mem_map, List.mem_range, eq_comm (b := o)]
  refine or_congr_left ?_
  constructor
  · rintro ⟨i, hi, j, hj, rfl⟩
    omega
  · rintro ⟨h0, hlt⟩
    exact ⟨o.toNat / 4, by omega, o.toNat % 4, by omega, by omega⟩

/-- The forward loops stay inside of the content. -/
theorem readsInside_of_lt {ctx : List UInt8} (h : ctx.length < 2 ^ 32) {i : Fin 16}
    (hi : i ≠ 15) : ReadsInside ctx i := by
  have hlen := lenOf_toNat h
  intro o ho
  unfold reads at ho
  split_ifs at ho with h12 h14 h15
  · rw [mem_hkReads] at ho
    omega
  · rw [mem_tianlReads] at ho
    omega
  · exact absurd (Fin.ext h15) hi
  · rw [mem_forwardReads] at ho
    omega

/-- `eal_bf_murmur3hash` stays inside unless there is a tail behind blocks whose length does
not fit in an `int`. -/
theorem readsInside_murmur_iff {ctx : List UInt8} (h : ctx.length < 2 ^ 32) :
    ReadsInside ctx 15 ↔ ctx.length < 2 ^ 31 ∨ ctx.length % 4 = 0 := by
  have hlen := lenOf_toNat h
  have hreads : reads 15 (lenOf ctx) = murmurReads (lenOf ctx) := rfl
  unfold ReadsInside
  rw [hreads]
  simp only [mem_murmurReads, tail_place, hlen]
  constructor
  · intro hinside
    by_contra hno
    obtain ⟨hge, htail⟩ := not_or.mp hno
    have hfirst := hinside _ (Or.inr ⟨0, Nat.pos_of_ne_zero htail, rfl⟩)
    rw [if_neg hge] at hfirst
    omega
  · rintro hfits o (⟨h0, hlt⟩ | ⟨j, hj, rfl⟩)
    · omega
    · rw [if_pos (hfits.resolve_right (by omega))]
      omega

theorem value_isSome_iff {ctx : List UInt8} (h : ctx.length < 2 ^ 32) :
    (ealBfValue ctx).isSome ↔ ctx ≠ [] := by
  constructor
  · rintro hsome rfl
    exact absurd hsome (by decide)
  · intro hne
    rw [ealBfValue, dif_pos (hashList_isSome hne h)]
    rfl

section Congr

variable {ctx ctx' : List UInt8}

theorem eq_of_getElem? (hlen : ctx'.length = ctx.length)
    (hsame : ∀ k < ctx.length, ctx'[k]? = ctx[k]?) : ctx' = ctx := by
  refine List.ext_getElem? fun k => ?_
  rcases Nat.lt_or_ge k ctx.length with hk | hk
  · exact hsame k hk
  · rw [List.getElem?_eq_none hk, List.getElem?_eq_none (hlen ▸ hk)]

theorem lenOf_congr (hlen : ctx'.length = ctx.length) : lenOf ctx' = lenOf ctx := by
  rw [lenOf, lenOf, hlen]

theorem hkhash_congr (hlen : ctx'.length = ctx.length)
    (hsame : ∀ k, k + 1 < ctx.length → ctx'[k]? = ctx[k]?) :
    ealBfHkhash ctx' = ealBfHkhash ctx := by
  have hdrop : ctx'.dropLast = ctx.dropLast := by
    refine eq_of_getElem? (by simp [hlen]) fun k hk => ?_
    rw [List.length_dropLast] at hk
    rw [List.getElem?_dropLast, List.getElem?_dropLast, hlen, if_pos hk, if_pos hk]
    exact hsame k (by omega)
  simp only [ealBfHkhash, hdrop, lenOf_congr hlen]

theorem tianlHash_congr (h : ctx.length < 2 ^ 32) (hlen : ctx'.length = ctx.length)
    (hsame : ∀ k < ctx.length, ctx.length ≤ k + 96 → ctx'[k]? = ctx[k]?) :
    ealBfTianlHash ctx' = ealBfTianlHash ctx := by
  have hlast : (if lenOf ctx ≤ 96 then ctx' else ctx'.drop (ctx.length - 96)) =
      if lenOf ctx ≤ 96 then ctx else ctx.drop (ctx.length - 96) := by
    split
    · next hle =>
      have hle : (lenOf ctx).toNat ≤ 96 := UInt32.le_iff_toNat_le.mp hle
      rw [lenOf_toNat h] at hle
      exact eq_of_getElem? hlen fun k hk => hsame k hk (by omega)
    · refine eq_of_getElem? (by simp [hlen]) fun k hk => ?_
      rw [List.length_drop] at hk
      rw [List.getElem?_drop, List.getElem?_drop]
      exact hsame _ (by omega) (by omega)
  simp only [ealBfTianlHash, lenOf_congr hlen, hlen, hlast]

/-- The other bytes do not matter: a hash is the same for a content that has the same length
and the same bytes where they are read. -/
theorem hashList_congr {i : Fin 16} (h : ctx.length < 2 ^ 32)
    (hlen : ctx'.length = ctx.length) (hinside : ReadsInside ctx i)
    (hsame : ∀ o ∈ reads i (lenOf ctx), ctx'[o.toNat]? = ctx[o.toNat]?) :
    ealBfHashList i ctx' = ealBfHashList i ctx := by
  have hlenOf := lenOf_toNat h
  by_cases h12 : i = 12
  · subst h12
    refine hkhash_congr hlen fun k hk => hsame (k : Int) ?_
    show (k : Int) ∈ hkReads (lenOf ctx)
    rw [mem_hkReads]
    omega
  by_cases h14 : i = 14
  · subst h14
    refine congrArg some (tianlHash_congr h hlen fun k hk hwindow => hsame (k : Int) ?_)
    show (k : Int) ∈ tianlReads (lenOf ctx)
    rw [mem_tianlReads]
    omega
  -- The other functions read the whole content.
  have heq : ctx' = ctx := by
    refine eq_of_getElem? hlen fun k hk => hsame (k : Int) ?_
    unfold reads
    rw [if_neg (show i.val ≠ 12 from Fin.val_ne_of_ne h12),
      if_neg (show i.val ≠ 14 from Fin.val_ne_of_ne h14)]
    split_ifs with h15
    · obtain rfl : i = 15 := Fin.ext h15
      rw [mem_murmurReads, tail_place, hlenOf]
      by_cases hblock : k < 4 * (ctx.length / 4)
      · exact Or.inl (by omega)
      · refine Or.inr ⟨k - 4 * (ctx.length / 4), by omega, ?_⟩
        rw [if_pos (((readsInside_murmur_iff h).mp hinside).resolve_right (by omega))]
        omega
    · rw [mem_forwardReads]
      omega
  rw [heq]

end Congr

/-- `eal_bf_value` computes all words without a division by zero and reads only the bytes of
the content, just if the content is not empty and the length of its blocks of four bytes fits
in an `int`, or nothing is left behind them. -/
theorem value_safe_iff (ctx : List UInt8) (h : ctx.length < 2 ^ 32) :
    ((ealBfValue ctx).isSome ∧ ∀ i, ReadsInside ctx i) ↔
      ctx ≠ [] ∧ (ctx.length < 2 ^ 31 ∨ ctx.length % 4 = 0) := by
  rw [value_isSome_iff h, ← readsInside_murmur_iff h]
  refine and_congr_right fun _ => ⟨fun hall => hall 15, fun hmurmur i => ?_⟩
  rcases eq_or_ne i 15 with rfl | hi
  · exact hmurmur
  · exact readsInside_of_lt h hi

theorem value_safe_iff_sample :
    (ealBfValue sampleContent).isSome ∧ ∀ i, ReadsInside sampleContent i :=
  (value_safe_iff sampleContent (by decide)).mpr ⟨by decide, Or.inl (by decide)⟩

/-- The empty content: two functions divide by its length. -/
theorem empty_content_divides_by_zero :
    ealBfHashList 11 [] = none ∧ ealBfHashList 12 [] = none ∧ ealBfValue [] = none := by
  decide

end LMiced.Bloom
