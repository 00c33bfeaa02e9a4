import Mathlib

/-!
# The Bloom filter

The Bloom filter of `eal/lmice_bloomfilter.c`: sixteen hash functions give the value
of a content, and a filter of `m` bytes uses `k` words of it. `eal_bf_add` and
`eal_bf_find` read the word `*val[i]`. As `val` points to an array of sixteen words,
this is word `16 * i` behind the pointer, and not word `i` of the value.

* `mem_bits_ealBfAdd`, `ealBfFind_eq`: what the two functions do, for any memory
  behind the value;
* `bloom_exact_iff`: a filter is exact (it addresses the bits of its `k` hash words, and
  loses no value) only where it uses a single word, and where `m * 8` does not wrap.
-/

namespace LMiced.Bloom

/-! ## The hash functions -/

/-- The remainder of two unsigned words, which traps for a zero divisor. -/
def modulo (a b : UInt32) : Option UInt32 :=
  if b = 0 then none else some (a % b)

/-- The `len` that is passed along with a content. -/
def lenOf (str : List UInt8) : UInt32 := UInt32.ofNat str.length

/-- One turn of the loop of `eal_bf_rshash`, over `hash` and `a`. -/
def rsStep (state : UInt32 × UInt32) (c : UInt8) : UInt32 × UInt32 :=
  (state.1 * state.2 + c.toUInt32, state.2 * 378551)

/-- `eal_bf_rshash`. -/
def ealBfRshash (str : List UInt8) : UInt32 :=
  (str.foldl rsStep (0, 63689)).1

/-- `eal_bf_jshash`. Its body is that of `eal_bf_rshash`. -/
def ealBfJshash (str : List UInt8) : UInt32 :=
  (str.foldl rsStep (0, 63689)).1

/-- `eal_bf_pjwhash`. -/
def ealBfPjwhash (str : List UInt8) : UInt32 :=
  str.foldl (fun hash c =>
    let hash := (hash <<< 4) + c.toUInt32
    let test := hash &&& 0xF0000000
    if test ≠ 0 then (hash ^^^ (test >>> 24)) &&& ~~~ 0xF0000000 else hash) 0

/-- `eal_bf_elfhash`. -/
def ealBfElfhash (str : List UInt8) : UInt32 :=
  str.foldl (fun hash c =>
    let hash := (hash <<< 4) + c.toUInt32
    let x := hash &&& 0xF0000000
    let hash := if x ≠ 0 then hash ^^^ (x >>> 24) else hash
    hash &&& ~~~ x) 0

/-- `eal_bf_bkdrhash`. -/
def ealBfBkdrhash (str : List UInt8) : UInt32 :=
  str.foldl (fun hash c => hash * 131 + c.toUInt32) 0

/-- `eal_bf_sdbmhash`. -/
def ealBfSdbmhash (str : List UInt8) : UInt32 :=
  str.foldl (fun hash c => c.toUInt32 + (hash <<< 6) + (hash <<< 16) - hash) 0

/-- `eal_bf_djbhash`. -/
def ealBfDjbhash (str : List UInt8) : UInt32 :=
  str.foldl (fun hash c => ((hash <<< 5) + hash) + c.toUInt32) 5381

/-- `eal_bf_dekhash`. -/
def ealBfDekhash (str : List UInt8) : UInt32 :=
  str.foldl (fun hash c => ((hash <<< 5) ^^^ (hash >>> 27)) ^^^ c.toUInt32) (lenOf str)

/-- `eal_bf_bphash`. -/
def ealBfBphash (str : List UInt8) : UInt32 :=
  str.foldl (fun hash c => (hash <<< 7) ^^^ c.toUInt32) 0

/-- `eal_bf_fnvhash`. -/
def ealBfFnvhash (str : List UInt8) : UInt32 :=
  str.foldl (fun hash c => (hash * 0x811C9DC5) ^^^ c.toUInt32) 0

/-- `eal_bf_aphash`. -/
def ealBfAphash (str : List UInt8) : UInt32 :=
  str.zipIdx.foldl (fun hash p =>
    hash ^^^
      if p.2 % 2 = 0 then (hash <<< 7) ^^^ (p.1.toUInt32 * (hash >>> 3))
      else ~~~ (((hash <<< 11) + p.1.toUInt32) ^^^ (hash >>> 5))) 0xAAAAAAAA

/-- `eal_bf_hflphash`. The bytes of `n` are the least significant first. -/
def ealBfHflphash (str : List UInt8) : Option UInt32 :=
  let n := str.zipIdx.foldl (fun n p =>
    n ^^^ (p.1.toUInt32 <<< UInt32.ofNat (8 * (p.2 % 4)))) 0
  modulo n (lenOf str)

/-- `eal_bf_hkhash`. The loop leaves the last byte out. -/
def ealBfHkhash (str : List UInt8) : Option UInt32 :=
  let result : Int32 := str.dropLast.zipIdx.foldl (fun result p =>
    result + (p.1.toUInt32 * 3 * UInt32.ofNat (p.2 + 1)).toInt32) 0
  let result := if result < 0 then -result else result
  modulo result.toUInt32 (lenOf str)

/-- `eal_bf_strhash`. -/
def ealBfStrhash (str : List UInt8) : UInt32 :=
  str.foldl (fun h c => 31 * h + c.toUInt32) 0

/-- What `eal_bf_tianlHash` adds for the `i`-th byte, counted from 1. -/
def tianlTerm (i : UInt32) (c : UInt8) : UInt32 :=
  let ucChar := (if c ≤ 90 ∧ c ≥ 65 then c + 32 else c).toUInt32
  (3 * i * ucChar * ucChar + 5 * i * ucChar + 7 * i + 11 * ucChar) % 1677216

/-- `eal_bf_tianlHash`. Of a long content only the last 96 bytes count. -/
def ealBfTianlHash (str : List UInt8) : UInt32 :=
  let len := lenOf str
  let urlHashValue : UInt64 :=
    if len ≤ 256 then (16777216 * (len - 1)).toUInt64 else 42781900080
  let str := if len ≤ 96 then str else str.drop (str.length - 96)
  (str.zipIdx.foldl (fun urlHashValue p =>
    urlHashValue + (tianlTerm (UInt32.ofNat (p.2 + 1)) p.1).toUInt64) urlHashValue).toUInt32

/-- A key as `eal_bf_murmur3hash` mixes it before it goes into the hash. -/
def murmurKey (k : UInt32) : UInt32 :=
  let k := k * 0xcc9e2d51
  let k := (k <<< 15) ||| (k >>> 17)
  k * 0x1b873593

/-- The loop of `eal_bf_murmur3hash` over the blocks of four bytes, and the bytes it
leaves to the tail. -/
def murmurBlocks : UInt32 → List UInt8 → UInt32 × List UInt8
  | hash, b0 :: b1 :: b2 :: b3 :: tail =>
    let k := b0.toUInt32 ||| (b1.toUInt32 <<< 8) ||| (b2.toUInt32 <<< 16) |||
      (b3.toUInt32 <<< 24)
    let hash := hash ^^^ murmurKey k
    murmurBlocks (((hash <<< 13) ||| (hash >>> 19)) * 5 + 0xe6546b64) tail
  | hash, tail => (hash, tail)

/-- The `switch` of `eal_bf_murmur3hash` over the length of the tail. -/
def murmurTail (hash : UInt32) : List UInt8 → UInt32
  | [b0] => hash ^^^ murmurKey b0.toUInt32
  | [b0, b1] => hash ^^^ murmurKey ((b1.toUInt32 <<< 8) ^^^ b0.toUInt32)
  | [b0, b1, b2] =>
    hash ^^^ murmurKey ((b2.toUInt32 <<< 16) ^^^ (b1.toUInt32 <<< 8) ^^^ b0.toUInt32)
  | _ => hash

/-- `eal_bf_murmur3hash`. -/
def ealBfMurmur3hash (key : List UInt8) : UInt32 :=
  let blocks := murmurBlocks 0 key
  let hash := murmurTail blocks.1 blocks.2
  let hash := hash ^^^ lenOf key
  let hash := hash ^^^ (hash >>> 16)
  let hash := hash * 0x85ebca6b
  let hash := hash ^^^ (hash >>> 13)
  let hash := hash * 0xc2b2ae35
  hash ^^^ (hash >>> 16)

/-- `eal_bf_hash_list`. -/
def ealBfHashList : Fin 16 → List UInt8 → Option UInt32 :=
  ![fun s => some (ealBfRshash s), fun s => some (ealBfJshash s),
    fun s => some (ealBfPjwhash s), fun s => some (ealBfElfhash s),
    fun s => some (ealBfBkdrhash s), fun s => some (ealBfSdbmhash s),
    fun s => some (ealBfDjbhash s), fun s => some (ealBfDekhash s),
    fun s => some (ealBfBphash s), fun s => some (ealBfFnvhash s),
    fun s => some (ealBfAphash s), ealBfHflphash, ealBfHkhash,
    fun s => some (ealBfStrhash s), fun s => some (ealBfTianlHash s),
    fun s => some (ealBfMurmur3hash s)]

/-- `eal_bf_hash_val`. -/
abbrev EalBfHashVal := Fin 16 → UInt32

/-- `eal_bf_value`. It traps where a hash function of the list does. -/
def ealBfValue (ctx : List UInt8) : Option EalBfHashVal :=
  if h : ∀ i, (ealBfHashList i ctx).isSome then
    some fun i => (ealBfHashList i ctx).get (h i)
  else none

/-- The values that `eal_bf_value` computes, for the sizes that fit in its parameter. -/
def Computed (val : EalBfHashVal) : Prop :=
  ∃ ctx : List UInt8, ctx.length < 2 ^ 32 ∧ ealBfValue ctx = some val

/-! ## The filter -/

/-- `lm_bloomfilter_t`, with the `m` bytes that `addr` points to. -/
structure LmBloomfilter where
  m : UInt32
  k : UInt32
  addr : List UInt8
  sized : addr.length = m.toNat

/-- The argument of `eal_bf_add` and `eal_bf_find`: a pointer to the sixteen words of a
value, with the words that happen to lie behind them. -/
structure ValPtr where
  val : EalBfHashVal
  behind : Nat → UInt32

/-- The word at an offset from the pointer. -/
def ValPtr.word (p : ValPtr) (j : Nat) : UInt32 :=
  if h : j < 16 then p.val ⟨j, h⟩ else p.behind (j - 16)

/-- `*val[i]`: the first word of the `i`-th array of sixteen words. -/
def ValPtr.deref (p : ValPtr) (i : Nat) : UInt32 := p.word (16 * i)

/-- `vector[n / 8] |= 1 << n % 8`, which fails outside of the `m` bytes. -/
def LmBloomfilter.setBit (bf : LmBloomfilter) (n : UInt32) : Option LmBloomfilter :=
  (bf.addr[n.toNat / 8]?).map fun byte =>
    { bf with
      addr := bf.addr.set (n.toNat / 8) (byte ||| (1 <<< (n % 8).toUInt8))
      sized := by rw [List.length_set, bf.sized] }

/-- The body of the loop of `eal_bf_add`. -/
def addWord (p : ValPtr) (bf : LmBloomfilter) (i : Nat) : Option LmBloomfilter := do
  let n ← modulo (p.deref i) (bf.m * 8)
  bf.setBit n

/-- `eal_bf_add`. -/
def ealBfAdd (bf : LmBloomfilter) (p : ValPtr) : Option LmBloomfilter :=
  (List.range bf.k.toNat).foldlM (addWord p) bf

/-- The loop of `eal_bf_find`, over the words that are left. -/
def findWords (bf : LmBloomfilter) (p : ValPtr) : List Nat → Option Int
  | [] => some 0
  | i :: rest => do
    let n ← modulo (p.deref i) (bf.m * 8)
    let byte ← bf.addr[n.toNat / 8]?
    let value := (byte >>> (n % 8).toUInt8) &&& 1
    if value = 0 then some 1 else findWords bf p rest

/-- `eal_bf_find`. -/
def ealBfFind (bf : LmBloomfilter) (p : ValPtr) : Option Int :=
  findWords bf p (List.range bf.k.toNat)

/-! ## The bits of a filter -/

/-- The bits that are set in the `m` bytes. -/
def LmBloomfilter.bits (bf : LmBloomfilter) : Set Nat :=
  { n | (bf.addr[n / 8]?.getD 0).toNat.testBit (n % 8) = true }

theorem toNat_low (n : UInt32) : (n % 8).toUInt8.toNat = n.toNat % 8 := by
  rw [UInt32.toNat_toUInt8, UInt32.toNat_mod]
  simp only [UInt32.reduceToNat]
  omega

theorem value_eq_zero_iff (byte : UInt8) (n : UInt32) :
    (byte >>> (n % 8).toUInt8) &&& 1 = 0 ↔ byte.toNat.testBit (n.toNat % 8) = false := by
  rw [← UInt8.toNat_inj, UInt8.toNat_and, UInt8.toNat_shiftRight, toNat_low, Nat.mod_mod]
  simp only [UInt8.reduceToNat, Nat.and_one_is_mod, Nat.testBit_eq_decide_div_mod_eq,
    Nat.shiftRight_eq_div_pow, decide_eq_false_iff_not]
  omega

theorem testBit_or_shiftLeft (byte : UInt8) (n : UInt32) {j : Nat} (hj : j < 8) :
    (byte ||| (1 <<< (n % 8).toUInt8)).toNat.testBit j =
      (byte.toNat.testBit j || decide (n.toNat % 8 = j)) := by
  rw [UInt8.toNat_or, Nat.testBit_or, UInt8.toNat_shiftLeft, toNat_low, Nat.mod_mod]
  simp only [UInt8.reduceToNat, Nat.one_shiftLeft, Nat.testBit_mod_two_pow, hj, decide_true,
    Bool.true_and, Nat.testBit_two_pow]

/-- A bit of the `m` bytes can be set, and only this bit changes. -/
theorem setBit_eq_some {bf : LmBloomfilter} {n : UInt32} (hn : n.toNat / 8 < bf.m.toNat) :
    ∃ bf', bf.setBit n = some bf' ∧ bf'.m = bf.m ∧ bf'.k = bf.k ∧
      bf'.bits = insert n.toNat bf.bits := by
  have hlt : n.toNat / 8 < bf.addr.length := by rw [bf.sized]; exact hn
  refine ⟨_, congrArg (Option.map _) (List.getElem?_eq_getElem hlt), rfl, rfl, ?_⟩
  ext j
  simp only [LmBloomfilter.bits, Set.mem_ofPred_eq, Set.mem_insert_iff]
  by_cases hbyte : j / 8 = n.toNat / 8
  · have hj : j = n.toNat ↔ n.toNat % 8 = j % 8 := by omega
    rw [hbyte, List.getElem?_set_self hlt, List.getElem?_eq_getElem hlt, Option.getD_some,
      Option.getD_some, testBit_or_shiftLeft _ _ (Nat.mod_lt _ (by decide)), hj,
      Bool.or_eq_true, decide_eq_true_iff, or_comm]
  · have hj : j ≠ n.toNat := fun h => hbyte (by rw [h])
    rw [List.getElem?_set_ne (Ne.symm hbyte)]
    simp only [hj, false_or]

/-! ## What the two functions do

Both address the bit of the word `*val[i]`, modulo the 32-bit product `m * 8`. -/

/-- The bit that the code addresses for the `i`-th word. -/
def position (m : UInt32) (p : ValPtr) (i : Nat) : Nat :=
  (p.deref i).toNat % (m * 8).toNat

theorem modulo_eq_some {m : UInt32} (p : ValPtr) (i : Nat) (hm : m * 8 ≠ 0) :
    ∃ n, modulo (p.deref i) (m * 8) = some n ∧ n.toNat = position m p i ∧
      n.toNat / 8 < m.toNat := by
  refine ⟨_, if_neg hm, UInt32.toNat_mod _ _, ?_⟩
  have hpos : 0 < (m * 8).toNat := by
    have h := mt (fun h : (m * 8).toNat = (0 : UInt32).toNat => UInt32.toNat.inj h) hm
    simp only [UInt32.reduceToNat] at h
    omega
  have hlt := Nat.mod_lt (p.deref i).toNat hpos
  have hle : (m * 8).toNat ≤ m.toNat * 8 := by
    rw [UInt32.toNat_mul]
    exact Nat.mod_le _ _
  rw [UInt32.toNat_mod]
  omega

theorem addWord_eq_some {bf : LmBloomfilter} (p : ValPtr) (i : Nat) (hm : bf.m * 8 ≠ 0) :
    ∃ bf', addWord p bf i = some bf' ∧ bf'.m = bf.m ∧ bf'.k = bf.k ∧
      bf'.bits = insert (position bf.m p i) bf.bits := by
  obtain ⟨n, hn, hpos, hlt⟩ := modulo_eq_some p i hm
  obtain ⟨bf', hset, h⟩ := setBit_eq_some hlt
  refine ⟨bf', ?_, ?_⟩
  · rw [addWord, hn]
    exact hset
  · rw [← hpos]
    exact h

theorem addWords_eq_some {bf : LmBloomfilter} (p : ValPtr) (l : List Nat)
    (hm : l ≠ [] → bf.m * 8 ≠ 0) :
    ∃ bf', l.foldlM (addWord p) bf = some bf' ∧ bf'.m = bf.m ∧ bf'.k = bf.k ∧
      bf'.bits = bf.bits ∪ { n | ∃ i ∈ l, n = position bf.m p i } := by
  induction l generalizing bf with
  | nil => exact ⟨bf, rfl, rfl, rfl, by simp⟩
  | cons i l ih =>
    obtain ⟨bf₁, hadd, hm₁, hk₁, hbits₁⟩ := addWord_eq_some p i (hm (List.cons_ne_nil i l))
    obtain ⟨bf', hrest, hm', hk', hbits'⟩ := ih fun _ => by
      rw [hm₁]
      exact hm (List.cons_ne_nil i l)
    refine ⟨bf', ?_, hm'.trans hm₁, hk'.trans hk₁, ?_⟩
    · rw [List.foldlM_cons, hadd]
      exact hrest
    · ext n
      simp only [hbits', hbits₁, hm₁, Set.mem_union, Set.mem_insert_iff, Set.mem_ofPred_eq,
        List.mem_cons, exists_eq_or_imp]
      rw [or_assoc]
      exact or_left_comm

/-- The bits that the code addresses for a value. -/
def positions (bf : LmBloomfilter) (p : ValPtr) : Set Nat :=
  { n | ∃ i < bf.k.toNat, n = position bf.m p i }

theorem range_ne_nil {k : UInt32} (h : List.range k.toNat ≠ []) : k ≠ 0 := by
  rintro rfl
  exact h rfl

/-- `eal_bf_add` sets the bits that it addresses, and no others. -/
theorem mem_bits_ealBfAdd {bf : LmBloomfilter} (p : ValPtr) (hm : bf.k ≠ 0 → bf.m * 8 ≠ 0) :
    ∃ bf', ealBfAdd bf p = some bf' ∧ bf'.m = bf.m ∧ bf'.k = bf.k ∧
      bf'.bits = bf.bits ∪ positions bf p := by
  obtain ⟨bf', h⟩ := addWords_eq_some p (List.range bf.k.toNat)
    (fun hne => hm (range_ne_nil hne))
  simp only [List.mem_range] at h
  exact ⟨bf', h⟩

theorem findWords_eq {bf : LmBloomfilter} (p : ValPtr) (l : List Nat)
    (hm : l ≠ [] → bf.m * 8 ≠ 0) :
    ∃ ret, findWords bf p l = some ret ∧
      (ret = 0 ↔ ∀ i ∈ l, position bf.m p i ∈ bf.bits) := by
  induction l with
  | nil => exact ⟨0, rfl, by simp⟩
  | cons i l ih =>
    obtain ⟨n, hn, hpos, hlt⟩ := modulo_eq_some p i (hm (List.cons_ne_nil i l))
    have hlt' : n.toNat / 8 < bf.addr.length := by rw [bf.sized]; exact hlt
    obtain ⟨ret, hrest, hret⟩ := ih fun _ => hm (List.cons_ne_nil i l)
    have hbit : n.toNat ∈ bf.bits ↔
        (bf.addr[n.toNat / 8]).toNat.testBit (n.toNat % 8) = true := by
      rw [LmBloomfilter.bits, Set.mem_ofPred_eq, List.getElem?_eq_getElem hlt', Option.getD_some]
    simp only [findWords, hn, List.getElem?_eq_getElem hlt', Option.bind_eq_bind,
      Option.bind_some, value_eq_zero_iff, List.forall_mem_cons, ← hpos, hbit]
    by_cases hv : (bf.addr[n.toNat / 8]).toNat.testBit (n.toNat % 8) = false
    · refine ⟨1, if_pos hv, ?_⟩
      simp [hv]
    · refine ⟨ret, by rw [if_neg hv, hrest], ?_⟩
      rw [Bool.not_eq_false] at hv
      simp [hv, hret]

/-- `eal_bf_find` answers 0 where all the bits that it addresses are set. -/
theorem ealBfFind_eq {bf : LmBloomfilter} (p : ValPtr) (hm : bf.k ≠ 0 → bf.m * 8 ≠ 0) :
    ∃ ret, ealBfFind bf p = some ret ∧ (ret = 0 ↔ positions bf p ⊆ bf.bits) := by
  obtain ⟨ret, hfind, hret⟩ := findWords_eq p (List.range bf.k.toNat)
    (fun hne => hm (range_ne_nil hne))
  refine ⟨ret, hfind, hret.trans ?_⟩
  simp only [List.mem_range]
  constructor
  · rintro h _ ⟨i, hi, rfl⟩
    exact h i hi
  · intro h i hi
    exact h ⟨i, hi, rfl⟩

/-- A whole sequence of calls of `eal_bf_add`. -/
theorem addAll_eq_some {bf : LmBloomfilter} (added : List ValPtr)
    (hm : bf.k ≠ 0 → bf.m * 8 ≠ 0) :
    ∃ bf', added.foldlM ealBfAdd bf = some bf' ∧ bf'.m = bf.m ∧ bf'.k = bf.k ∧
      bf'.bits = bf.bits ∪ { n | ∃ p ∈ added, n ∈ positions bf p } := by
  induction added generalizing bf with
  | nil => exact ⟨bf, rfl, rfl, rfl, by simp⟩
  | cons p added ih =>
    obtain ⟨bf₁, hadd, hm₁, hk₁, hbits₁⟩ := mem_bits_ealBfAdd p hm
    have hpos (q : ValPtr) : positions bf₁ q = positions bf q := by
      rw [positions, positions, hm₁, hk₁]
    obtain ⟨bf', hrest, hm', hk', hbits'⟩ := @ih bf₁ (by rw [hm₁, hk₁]; exact hm)
    refine ⟨bf', ?_, hm'.trans hm₁, hk'.trans hk₁, ?_⟩
    · rw [List.foldlM_cons, hadd]
      exact hrest
    · ext n
      simp only [hbits', hbits₁, hpos, Set.mem_union, Set.mem_ofPred_eq, List.mem_cons,
        exists_eq_or_imp]
      exact or_assoc

/-! ## The filter as it is meant -/

/-- The bits of the first `k` hash words of a value, modulo `8 * m`. -/
def hashBits (m k : UInt32) (val : EalBfHashVal) : Set Nat :=
  { n | ∃ i : Fin 16, i.val < k.toNat ∧ n = (val i).toNat % (8 * m.toNat) }

/-- What `bf'` should be after values were added to `bf`. Update and answer are those of
the first `k` hash words, whatever memory lies behind a value when it is added and when
it is looked up. -/
structure Serves (bf bf' : LmBloomfilter) (added : List ValPtr) : Prop where
  noFalseNegative : ∀ p ∈ added, ∀ behind, ealBfFind bf' ⟨p.val, behind⟩ = some 0
  onlySet : bf.bits ⊆ bf'.bits
  update : bf'.bits = bf.bits ∪ { n | ∃ p ∈ added, n ∈ hashBits bf.m bf.k p.val }
  answer : ∀ p, Computed p.val →
    ∃ ret, ealBfFind bf' p = some ret ∧ (ret = 0 ↔ hashBits bf.m bf.k p.val ⊆ bf'.bits)

/-- Every filter of `m` bytes and `k` words is as it is meant after every sequence of
additions. As the additions and the answers are results, no division by zero occurs and
no byte outside of the filter is accessed. -/
def BloomExact (m k : UInt32) : Prop :=
  ∀ (bf : LmBloomfilter) (added : List ValPtr), bf.m = m → bf.k = k →
    (∀ p ∈ added, Computed p.val) →
    ∃ bf', added.foldlM ealBfAdd bf = some bf' ∧ Serves bf bf' added

theorem toNat_mul_eight {m : UInt32} (hm : m.toNat < 2 ^ 29) :
    (m * 8).toNat = 8 * m.toNat := by
  rw [UInt32.toNat_mul]
  simp only [UInt32.reduceToNat]
  omega

/-- The first word is read where it lies. -/
theorem deref_zero (p : ValPtr) : p.deref 0 = p.val 0 := rfl

theorem positions_eq_hashBits {bf : LmBloomfilter} (p : ValPtr)
    (h : bf.k = 0 ∨ bf.k = 1 ∧ bf.m.toNat < 2 ^ 29) :
    positions bf p = hashBits bf.m bf.k p.val := by
  ext n
  simp only [positions, hashBits, position, Set.mem_ofPred_eq]
  obtain hk | ⟨hk, hm⟩ := h
  · simp [hk]
  · simp only [hk, UInt32.reduceToNat, Nat.lt_one_iff, exists_eq_left, deref_zero,
      toNat_mul_eight hm]
    constructor
    · intro hn
      exact ⟨0, rfl, hn⟩
    · rintro ⟨i, hi, hn⟩
      rwa [show i = 0 from Fin.ext hi] at hn

theorem bloomExact_of {m k : UInt32} (hm : 1 ≤ m) (h : k = 0 ∨ k = 1 ∧ m.toNat < 2 ^ 29) :
    BloomExact m k := by
  rintro bf added rfl rfl -
  have hne : bf.k ≠ 0 → bf.m * 8 ≠ 0 := by
    intro hk hzero
    have hlt := (h.resolve_left hk).2
    have hmul := toNat_mul_eight hlt
    rw [hzero] at hmul
    have hle := UInt32.le_iff_toNat_le.mp hm
    simp only [UInt32.reduceToNat] at hmul hle
    omega
  obtain ⟨bf', hadd, hm', hk', hbits⟩ := addAll_eq_some added hne
  simp only [positions_eq_hashBits _ h] at hbits
  have hanswer (p : ValPtr) : ∃ ret, ealBfFind bf' p = some ret ∧
      (ret = 0 ↔ hashBits bf.m bf.k p.val ⊆ bf'.bits) := by
    have hpos : positions bf' p = hashBits bf.m bf.k p.val := by
      rw [positions_eq_hashBits p (by rw [hm', hk']; exact h), hm', hk']
    rw [← hpos]
    exact ealBfFind_eq p (by rw [hm', hk']; exact hne)
  refine ⟨bf', hadd, ?_, ?_, hbits, fun p _ => hanswer p⟩
  · intro p hp behind
    obtain ⟨ret, hfind, hret⟩ := hanswer ⟨p.val, behind⟩
    rw [hfind, hret.mpr]
    rw [hbits]
    exact fun n hn => Or.inr ⟨p, hp, hn⟩
  · rw [hbits]
    exact Set.subset_union_left

/-! ## Where the filter goes wrong -/

/-- A filter that nothing was added to. -/
def emptyFilter (m k : UInt32) : LmBloomfilter where
  m := m
  k := k
  addr := List.replicate m.toNat 0
  sized := List.length_replicate

theorem bits_emptyFilter (m k : UInt32) : (emptyFilter m k).bits = ∅ := by
  ext n
  simp only [LmBloomfilter.bits, emptyFilter, Set.mem_ofPred_eq, List.getElem?_replicate,
    Set.mem_empty_iff_false, iff_false]
  by_cases h : n / 8 < m.toNat <;> simp [h]

theorem hashList_isSome {ctx : List UInt8} (hne : ctx ≠ []) (hlen : ctx.length < 2 ^ 32)
    (i : Fin 16) : (ealBfHashList i ctx).isSome := by
  have hlen' : lenOf ctx ≠ 0 := by
    have hpos := List.length_pos_iff.mpr hne
    intro h
    have := congrArg UInt32.toNat h
    rw [lenOf, UInt32.toNat_ofNat_of_lt' hlen] at this
    simp only [UInt32.reduceToNat] at this
    omega
  fin_cases i <;> simp [ealBfHashList, ealBfHflphash, ealBfHkhash, modulo, hlen']

/-- Every content has a value, unless it is empty: two of the hash functions divide by its
length. -/
theorem computed_of_ne_nil {ctx : List UInt8} (hne : ctx ≠ []) (hlen : ctx.length < 2 ^ 32) :
    ∃ val, Computed val ∧ val 0 = ealBfRshash ctx :=
  ⟨_, ⟨ctx, hlen, dif_pos (hashList_isSome hne hlen)⟩, rfl⟩

theorem mul_eight_ne_zero {m k : UInt32} (h : BloomExact m k) (hk : k ≠ 0) : m * 8 ≠ 0 := by
  intro hm
  obtain ⟨val, hval, -⟩ := @computed_of_ne_nil [0] (by decide) (by decide)
  obtain ⟨bf', hadd, -⟩ := h (emptyFilter m k) [⟨val, fun _ => 0⟩] rfl rfl
    (fun p hp => by rw [List.mem_singleton.mp hp]; exact hval)
  obtain ⟨j, hj⟩ : ∃ j, k.toNat = j + 1 := by
    refine Nat.exists_eq_succ_of_ne_zero fun h0 => hk (UInt32.toNat.inj h0)
  rw [List.foldlM_cons] at hadd
  have hnone : ealBfAdd (emptyFilter m k) ⟨val, fun _ => 0⟩ = none := by
    simp only [ealBfAdd, emptyFilter, hj, List.range_succ_eq_map, List.foldlM_cons, addWord,
      modulo, hm, if_true, Option.bind_eq_bind, Option.bind_none]
  rw [hnone] at hadd
  cases hadd

/-- A single value added to an empty filter. -/
theorem BloomExact.add {m k : UInt32} (h : BloomExact m k) (hk : k ≠ 0) {p : ValPtr}
    (hp : Computed p.val) :
    ∃ bf', bf'.m = m ∧ bf'.k = k ∧ bf'.bits = positions (emptyFilter m k) p ∧
      Serves (emptyFilter m k) bf' [p] := by
  obtain ⟨bf', hadd, hserves⟩ := h (emptyFilter m k) [p] rfl rfl
    (fun q hq => by rw [List.mem_singleton.mp hq]; exact hp)
  obtain ⟨bf₁, hadd₁, hm, hk, hbits⟩ :=
    @mem_bits_ealBfAdd (emptyFilter m k) p fun _ => mul_eight_ne_zero h hk
  obtain rfl : bf₁ = bf' := by
    rw [List.foldlM_cons, hadd₁] at hadd
    exact Option.some.inj hadd
  refine ⟨bf₁, hm, hk, ?_, hserves⟩
  rw [hbits, bits_emptyFilter, Set.empty_union]

/-- The word read for `i = 1` is not part of the value. It can change between the addition
and the search, and then a value that was added is not found. -/
theorem k_le_one_of_bloomExact {m k : UInt32} (h : BloomExact m k) : k.toNat ≤ 1 := by
  by_contra hk
  have hk0 : k ≠ 0 := by
    rintro rfl
    exact hk (Nat.zero_le _)
  have hne := mul_eight_ne_zero h hk0
  have hgt : 1 < (m * 8).toNat := by
    have h0 : (m * 8).toNat ≠ 0 := fun h0 => hne (UInt32.toNat.inj h0)
    rw [UInt32.toNat_mul] at h0 ⊢
    simp only [UInt32.reduceToNat] at h0 ⊢
    omega
  obtain ⟨val, hval, hval0⟩ := @computed_of_ne_nil [0] (by decide) (by decide)
  have hzero : val 0 = 0 := by
    rw [hval0]
    decide
  obtain ⟨bf', hm', hk', hbits, hserves⟩ := @BloomExact.add m k h hk0 ⟨val, fun _ => 0⟩ hval
  -- the words that were read for the addition are all zero
  have hadded : 1 ∉ bf'.bits := by
    rw [hbits]
    rintro ⟨i, -, hi⟩
    have hword : (ValPtr.deref ⟨val, fun _ => 0⟩ i) = 0 := by
      rw [ValPtr.deref, ValPtr.word]
      split
      · have : 16 * i = 0 := by omega
        simp only [this]
        exact hzero
      · rfl
    rw [position, hword] at hi
    simp at hi
  have hfind := hserves.noFalseNegative _ (List.mem_singleton_self _) fun _ => 1
  obtain ⟨ret, hfind', hret⟩ := @ealBfFind_eq bf' ⟨val, fun _ => 1⟩ (by
    rw [hm', hk']
    exact fun _ => hne)
  obtain rfl : ret = 0 := Option.some.inj (hfind'.symm.trans hfind)
  refine hadded (hret.mp rfl ⟨1, by rw [hk']; omega, ?_⟩)
  rw [hm', position]
  exact (Nat.mod_eq_of_lt hgt).symm

/-- A content whose first hash word is the greatest multiple of 8. -/
theorem rshash_top : ealBfRshash [71, 194, 20, 1, 174] = 4294967288 := by decide

/-- Where `m * 8` wraps, the code addresses another bit than that of the first word. -/
theorem m_lt_of_bloomExact {m : UInt32} (h : BloomExact m 1) : m.toNat < 2 ^ 29 := by
  by_contra hm
  have hne := mul_eight_ne_zero h (by decide)
  obtain ⟨val, hval, hval0⟩ :=
    @computed_of_ne_nil [71, 194, 20, 1, 174] (by decide) (by decide)
  rw [rshash_top] at hval0
  obtain ⟨bf', -, -, hbits, hserves⟩ :=
    @BloomExact.add m 1 h (by decide) ⟨val, fun _ => 0⟩ hval
  have hbit : 4294967288 % (m * 8).toNat ∈ bf'.bits := by
    rw [hbits]
    refine ⟨0, Nat.zero_lt_one, ?_⟩
    rw [position, deref_zero]
    exact congrArg (fun w : UInt32 => w.toNat % (m * 8).toNat) hval0.symm
  rw [hserves.update, bits_emptyFilter, Set.empty_union] at hbit
  obtain ⟨p, hp, i, hi, hn⟩ := hbit
  obtain rfl := List.mem_singleton.mp hp
  obtain rfl : i = 0 := Fin.ext (by simpa [emptyFilter] using hi)
  have h0 : (m * 8).toNat ≠ 0 := fun h0 => hne (UInt32.toNat.inj h0)
  have hmod := Nat.mod_lt 4294967288 (Nat.pos_of_ne_zero h0)
  have hle : (m * 8).toNat ≤ 4294967288 := by
    rw [UInt32.toNat_mul]
    simp only [UInt32.reduceToNat]
    omega
  have hlt : 4294967288 < 8 * m.toNat := by omega
  simp only [hval0, emptyFilter, UInt32.reduceToNat, Nat.mod_eq_of_lt hlt] at hn
  omega

/-- The filter does what it is meant to do only for `k ≤ 1` (the index `*val[i]` steps over
whole values), and there while `m * 8` fits in 32 bits. -/
theorem bloom_exact_iff (m k : UInt32) (hm : 1 ≤ m) :
    BloomExact m k ↔ k = 0 ∨ k = 1 ∧ m.toNat < 2 ^ 29 := by
  constructor
  · intro h
    have hle := k_le_one_of_bloomExact h
    obtain hk0 | hk1 := Nat.le_one_iff_eq_zero_or_eq_one.mp hle
    · exact .inl (UInt32.toNat.inj hk0)
    · obtain rfl : k = 1 := UInt32.toNat.inj hk1
      exact .inr ⟨rfl, m_lt_of_bloomExact h⟩
  · exact bloomExact_of hm

theorem bloom_exact_iff_oneWord : (1 : UInt32) ≤ 4096 ∧ BloomExact 4096 1 :=
  ⟨by decide, (bloom_exact_iff 4096 1 (by decide)).mpr (.inr ⟨rfl, by decide⟩)⟩

/-- With two words, the value of a single zero byte is added while zeros lie behind it, and
is not found while ones lie behind it. -/
theorem added_value_not_found :
    ((ealBfValue [0]).bind fun val =>
      (ealBfAdd (emptyFilter 1 2) ⟨val, fun _ => 0⟩).bind fun bf =>
        ealBfFind bf ⟨val, fun _ => 1⟩) = some 1 ∧
      ¬ ∀ m k : UInt32, 1 ≤ m → k ≤ 16 → BloomExact m k := by
  refine ⟨by decide, fun h => ?_⟩
  exact absurd (k_le_one_of_bloomExact (h 1 2 (by decide) (by decide))) (by decide)

end LMiced.Bloom
