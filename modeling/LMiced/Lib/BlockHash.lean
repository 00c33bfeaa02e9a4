import Mathlib

/-!
# Hashing in blocks

A hash function that reads blocks of `size` symbols. `compress` takes one block into the
chaining value, `chain` takes all complete blocks of an input. A `Reader` gets the input
symbol by symbol and buffers what does not fill a block. A `Padding` completes an input of
any length to complete blocks, the last of which ends with a code of that length.

* `Reader.feed_start`: a reader has chained the complete blocks and buffers the rest;
* `Padding.collides`: two inputs with the same digest have a collision of `compress` among
  the blocks that were hashed for them.
-/

namespace BlockHash

variable {σ β : Type*}

/-! ## Blocks -/

section Blocks

variable (size : Nat)

/-- The complete blocks of an input. -/
def blocks (input : List β) : List (List β) :=
  (List.range (input.length / size)).map fun i => (input.drop (i * size)).take size

/-- What follows the complete blocks. -/
def rest (input : List β) : List β :=
  input.drop (input.length / size * size)

@[simp] theorem length_blocks (input : List β) :
    (blocks size input).length = input.length / size := by
  simp [blocks]

@[simp] theorem length_rest (input : List β) :
    (rest size input).length = input.length % size := by
  rw [rest, List.length_drop]
  have hdiv := Nat.div_add_mod' input.length size
  omega

@[simp] theorem blocks_nil : blocks size ([] : List β) = [] := by
  simp [blocks]

@[simp] theorem rest_nil : rest size ([] : List β) = [] := by
  simp [rest]

variable {size}

theorem length_of_mem_blocks {input block : List β} (h : block ∈ blocks size input) :
    block.length = size := by
  obtain ⟨i, hi, rfl⟩ := List.mem_map.mp h
  have hlt : i < input.length / size := List.mem_range.mp hi
  have hle : (i + 1) * size ≤ input.length :=
    (Nat.mul_le_mul_right size hlt).trans (Nat.div_mul_le_self _ _)
  rw [Nat.add_one_mul] at hle
  rw [List.length_take, List.length_drop]
  omega

/-- A further symbol does not change the blocks that were complete. -/
theorem blocks_append_take {input : List β} {more : List β} {count : Nat}
    (h : count * size ≤ input.length) :
    (List.range count).map (fun i => ((input ++ more).drop (i * size)).take size) =
      (List.range count).map fun i => (input.drop (i * size)).take size := by
  refine List.map_congr_left fun i hi => ?_
  have hle : (i + 1) * size ≤ count * size := Nat.mul_le_mul_right size (List.mem_range.mp hi)
  rw [Nat.add_one_mul] at hle
  rw [List.drop_append_of_le_length (by omega), List.take_append_of_le_length]
  rw [List.length_drop]
  omega

/-- The last symbol of a block completes it. -/
theorem blocks_concat_full {input : List β} {x : β} (h : (rest size input).length + 1 = size) :
    blocks size (input ++ [x]) = blocks size input ++ [rest size input ++ [x]] ∧
      rest size (input ++ [x]) = [] := by
  have hmod : input.length % size + 1 = size := by
    rwa [length_rest] at h
  have hpos : 0 < size := by omega
  have hdiv := Nat.div_add_mod' input.length size
  -- With the element the message has one more block, and nothing behind it.
  have hlen : (input ++ [x]).length = (input.length / size + 1) * size := by
    rw [List.length_append, List.length_singleton, Nat.add_one_mul]
    omega
  have hcount : (input ++ [x]).length / size = input.length / size + 1 := by
    rw [hlen, Nat.mul_div_cancel _ hpos]
  constructor
  · rw [blocks, hcount, List.range_succ, List.map_append,
      blocks_append_take (Nat.div_mul_le_self _ _)]
    congr 1
    rw [List.map_singleton, List.drop_append_of_le_length (Nat.div_mul_le_self _ _)]
    congr 1
    apply List.take_of_length_le
    show (rest size input ++ [x]).length ≤ size
    rw [List.length_append, List.length_singleton]
    omega
  · rw [rest, hcount, ← hlen, List.drop_length]

/-- Before that, a further symbol joins the rest. -/
theorem blocks_concat_short {input : List β} {x : β}
    (h : (rest size input).length + 1 < size) :
    blocks size (input ++ [x]) = blocks size input ∧
      rest size (input ++ [x]) = rest size input ++ [x] := by
  have hmod : input.length % size + 1 < size := by
    rwa [length_rest] at h
  have hdiv := Nat.div_add_mod' input.length size
  have hcount : (input ++ [x]).length / size = input.length / size := by
    rw [List.length_append, List.length_singleton]
    apply Nat.div_eq_of_lt_le
    · omega
    · rw [Nat.add_one_mul]
      omega
  constructor
  · rw [blocks, hcount, blocks_append_take (Nat.div_mul_le_self _ _)]
    rfl
  · rw [rest, hcount, List.drop_append_of_le_length (Nat.div_mul_le_self _ _)]
    rfl

/-- More input that does not complete a block joins the rest. -/
theorem blocks_append_short {input more : List β}
    (h : (rest size input).length + more.length < size) :
    blocks size (input ++ more) = blocks size input ∧
      rest size (input ++ more) = rest size input ++ more := by
  induction more using List.reverseRecOn with
  | nil => simp
  | append_singleton more x ih =>
    rw [List.length_append, List.length_singleton] at h
    obtain ⟨hblocks, hrest⟩ := ih (by omega)
    have hlt : (rest size (input ++ more)).length + 1 < size := by
      rw [hrest, List.length_append]
      omega
    obtain ⟨hblocks', hrest'⟩ := blocks_concat_short (x := x) hlt
    rw [← List.append_assoc, hblocks', hrest', hblocks, hrest, List.append_assoc]
    exact ⟨rfl, rfl⟩

/-- More input that completes one block. -/
theorem blocks_append_full {input more : List β} (hne : more ≠ [])
    (h : (rest size input).length + more.length = size) :
    blocks size (input ++ more) = blocks size input ++ [rest size input ++ more] ∧
      rest size (input ++ more) = [] := by
  obtain ⟨more, x, rfl⟩ := more.eq_nil_or_concat.resolve_left hne
  rw [List.concat_eq_append] at hne h ⊢
  rw [List.length_append, List.length_singleton] at h
  have hlt : (rest size input).length + more.length < size := by omega
  obtain ⟨hblocks, hrest⟩ := blocks_append_short hlt
  have hfull : (rest size (input ++ more)).length + 1 = size := by
    rw [hrest, List.length_append]
    omega
  obtain ⟨hblocks', hrest'⟩ := blocks_concat_full (x := x) hfull
  rw [← List.append_assoc, hblocks', hrest', hblocks, hrest, List.append_assoc]
  exact ⟨rfl, rfl⟩

/-- Nothing is lost: the blocks and the rest are the input. -/
theorem flatten_blocks_append_rest (hpos : 0 < size) (input : List β) :
    (blocks size input).flatten ++ rest size input = input := by
  induction input using List.reverseRecOn with
  | nil => simp
  | append_singleton input x ih =>
    have hlt := Nat.mod_lt input.length hpos
    rw [← length_rest size input] at hlt
    rcases Nat.lt_or_ge ((rest size input).length + 1) size with hpartial | hfull
    · obtain ⟨hblocks, hrest⟩ := blocks_concat_short (x := x) hpartial
      rw [hblocks, hrest, ← List.append_assoc, ih]
    · obtain ⟨hblocks, hrest⟩ := blocks_concat_full (x := x) (le_antisymm hlt hfull)
      rw [hblocks, hrest, List.flatten_append, List.append_nil, List.flatten_singleton,
        ← List.append_assoc, ih]

theorem rest_eq_nil {input : List β} (h : size ∣ input.length) : rest size input = [] := by
  apply List.eq_nil_of_length_eq_zero
  rw [length_rest, Nat.mod_eq_zero_of_dvd h]

end Blocks

/-! ## The chaining value -/

/-- All complete blocks of the input, one after the other. -/
def chain (size : Nat) (compress : σ → List β → σ) (iv : σ) (input : List β) : σ :=
  (blocks size input).foldl compress iv

section Chain

variable {size : Nat} {compress : σ → List β → σ} {iv : σ} {input : List β} {x : β}

theorem chain_concat_full (h : (rest size input).length + 1 = size) :
    chain size compress iv (input ++ [x]) =
      compress (chain size compress iv input) (rest size input ++ [x]) := by
  rw [chain, (blocks_concat_full h).1, List.foldl_append]
  rfl

theorem chain_concat_short (h : (rest size input).length + 1 < size) :
    chain size compress iv (input ++ [x]) = chain size compress iv input := by
  rw [chain, (blocks_concat_short h).1, chain]

theorem chain_append_full {more : List β} (hne : more ≠ [])
    (h : (rest size input).length + more.length = size) :
    chain size compress iv (input ++ more) =
      compress (chain size compress iv input) (rest size input ++ more) := by
  rw [chain, (blocks_append_full hne h).1, List.foldl_append]
  rfl

end Chain

/-- The chaining value and the buffered symbols of a hash in progress. -/
@[ext] structure Reader (σ β : Type*) where
  state : σ
  buffer : List β

namespace Reader

variable {size : Nat} {compress : σ → List β → σ}

/-- One more symbol: it is buffered, and a full buffer is compressed. -/
def push (size : Nat) (compress : σ → List β → σ) (r : Reader σ β) (x : β) : Reader σ β :=
  if r.buffer.length + 1 = size then ⟨compress r.state (r.buffer ++ [x]), []⟩
  else ⟨r.state, r.buffer ++ [x]⟩

/-- Symbol by symbol. -/
def feed (size : Nat) (compress : σ → List β → σ) (r : Reader σ β) (input : List β) :
    Reader σ β :=
  input.foldl (push size compress) r

@[simp] theorem feed_nil (r : Reader σ β) : r.feed size compress [] = r := rfl

@[simp] theorem feed_cons (r : Reader σ β) (x : β) (input : List β) :
    r.feed size compress (x :: input) = (r.push size compress x).feed size compress input := rfl

theorem feed_append (r : Reader σ β) (input more : List β) :
    r.feed size compress (input ++ more) =
      (r.feed size compress input).feed size compress more :=
  List.foldl_append

/-- Symbols that do not fill the buffer. -/
theorem feed_of_lt {r : Reader σ β} {input : List β}
    (h : r.buffer.length + input.length < size) :
    r.feed size compress input = ⟨r.state, r.buffer ++ input⟩ := by
  induction input generalizing r with
  | nil => simp
  | cons x input ih =>
    rw [List.length_cons] at h
    have hne : r.buffer.length + 1 ≠ size := by omega
    have hlt : (r.buffer ++ [x]).length + input.length < size := by
      rw [List.length_append, List.length_singleton]
      omega
    rw [feed_cons, push, if_neg hne, ih (r := ⟨r.state, r.buffer ++ [x]⟩) hlt]
    simp

/-- Symbols that fill it. -/
theorem feed_of_eq {r : Reader σ β} {input : List β} (hne : input ≠ [])
    (h : r.buffer.length + input.length = size) :
    r.feed size compress input = ⟨compress r.state (r.buffer ++ input), []⟩ := by
  obtain ⟨input, x, rfl⟩ := input.eq_nil_or_concat.resolve_left hne
  rw [List.concat_eq_append] at hne h ⊢
  rw [List.length_append, List.length_singleton] at h
  have hfull : (r.buffer ++ input).length + 1 = size := by
    rw [List.length_append]
    omega
  have hlt : r.buffer.length + input.length < size := by omega
  rw [feed_append, feed_of_lt hlt, feed_cons, push, if_pos hfull]
  simp

/-- A reader that started with nothing buffered has chained the complete blocks and
buffers the rest. -/
theorem feed_start (hpos : 0 < size) (iv : σ) (input : List β) :
    feed size compress ⟨iv, []⟩ input = ⟨chain size compress iv input, rest size input⟩ := by
  induction input using List.reverseRecOn with
  | nil => simp [chain]
  | append_singleton input x ih =>
    have hlt := Nat.mod_lt input.length hpos
    rw [← length_rest size input] at hlt
    rw [feed_append, ih, feed_cons, feed_nil, push]
    rcases Nat.lt_or_ge ((rest size input).length + 1) size with hpartial | hfull
    · rw [if_neg hpartial.ne, chain_concat_short hpartial, (blocks_concat_short hpartial).2]
    · have heq : (rest size input).length + 1 = size := le_antisymm hlt hfull
      rw [if_pos heq, chain_concat_full heq, (blocks_concat_full heq).2]

end Reader

/-! ## Collisions -/

section Collisions

variable (compress : σ → List β → σ)

/-- The arguments that `compress` gets when these blocks are hashed. -/
def arguments (iv : σ) : List (List β) → List (σ × List β)
  | [] => []
  | block :: more => (iv, block) :: arguments (compress iv block) more

/-- Different arguments with the same result. -/
def Collides (xs ys : List (σ × List β)) : Prop :=
  ∃ x ∈ xs, ∃ y ∈ ys, x ≠ y ∧ compress x.1 x.2 = compress y.1 y.2

variable {compress}

theorem Collides.cons {xs ys : List (σ × List β)} (h : Collides compress xs ys)
    (x y : σ × List β) : Collides compress (x :: xs) (y :: ys) := by
  obtain ⟨x', hx, y', hy, h⟩ := h
  exact ⟨x', List.mem_cons_of_mem x hx, y', List.mem_cons_of_mem y hy, h⟩

theorem Collides.of_head {iv iv' : σ} {block block' : List β} {xs ys : List (σ × List β)}
    (hne : (iv, block) ≠ (iv', block')) (heq : compress iv block = compress iv' block') :
    Collides compress ((iv, block) :: xs) ((iv', block') :: ys) :=
  ⟨_, List.mem_cons_self, _, List.mem_cons_self, hne, heq⟩

/-- As many blocks: without a collision, everything that was hashed is the same. -/
theorem eq_or_collides {iv iv' : σ} {bs bs' : List (List β)} (hlen : bs.length = bs'.length)
    (h : bs.foldl compress iv = bs'.foldl compress iv') :
    (iv = iv' ∧ bs = bs') ∨
      Collides compress (arguments compress iv bs) (arguments compress iv' bs') := by
  induction bs generalizing iv iv' bs' with
  | nil =>
    obtain rfl := List.eq_nil_of_length_eq_zero hlen.symm
    exact Or.inl ⟨h, rfl⟩
  | cons block bs ih =>
    obtain ⟨block', bs', rfl⟩ := List.exists_cons_of_length_eq_add_one hlen.symm
    rcases ih (Nat.succ.inj hlen) h with ⟨heq, rfl⟩ | hcollides
    · by_cases hne : (iv, block) = (iv', block')
      · cases hne
        exact Or.inl ⟨rfl, rfl⟩
      · exact Or.inr (Collides.of_head hne heq)
    · exact Or.inr (hcollides.cons _ _)

theorem arguments_concat (iv : σ) (bs : List (List β)) (block : List β) :
    arguments compress iv (bs ++ [block]) =
      arguments compress iv bs ++ [(bs.foldl compress iv, block)] := by
  induction bs generalizing iv with
  | nil => rfl
  | cons b bs ih => simp [arguments, ih]

/-- The arguments that the complete blocks of an input become. -/
def inputArguments (size : Nat) (compress : σ → List β → σ) (iv : σ) (input : List β) :
    List (σ × List β) :=
  arguments compress iv (blocks size input)

/-- More input that completes one block adds one argument. -/
theorem inputArguments_append_full {size : Nat} {iv : σ} {input more : List β} (hne : more ≠ [])
    (h : (rest size input).length + more.length = size) :
    inputArguments size compress iv (input ++ more) = inputArguments size compress iv input ++
      [(chain size compress iv input, rest size input ++ more)] := by
  rw [inputArguments, (blocks_append_full hne h).1, arguments_concat]
  rfl

/-- The last blocks differ: they collide. -/
theorem collides_of_last_ne {iv iv' : σ} {bs bs' : List (List β)} {block block' : List β}
    (hne : block ≠ block')
    (h : (bs ++ [block]).foldl compress iv = (bs' ++ [block']).foldl compress iv') :
    Collides compress (arguments compress iv (bs ++ [block]))
      (arguments compress iv' (bs' ++ [block'])) := by
  rw [List.foldl_append, List.foldl_append] at h
  refine ⟨(bs.foldl compress iv, block), ?_, (bs'.foldl compress iv', block'), ?_, ?_, h⟩
  · rw [arguments_concat]
    exact List.mem_append_right _ (List.mem_singleton_self _)
  · rw [arguments_concat]
    exact List.mem_append_right _ (List.mem_singleton_self _)
  · intro heq
    exact hne (Prod.mk.inj heq).2

end Collisions

/-! ## Padding -/

/-- What completes an input of a length: a filling, and a code of the length. -/
structure Padding (β : Type*) (size : Nat) where
  fill : Nat → List β
  code : Nat → List β
  width : Nat
  width_pos : 0 < width
  width_le : width ≤ size
  length_code : ∀ n, (code n).length = width
  dvd_length : ∀ n, size ∣ n + (fill n).length + width

namespace Padding

variable {size : Nat} (pad : Padding β size)

/-- The input with its padding. -/
def apply (input : List β) : List β :=
  input ++ pad.fill input.length ++ pad.code input.length

/-- The digest of an input. -/
def digest (compress : σ → List β → σ) (iv : σ) (input : List β) : σ :=
  chain size compress iv (pad.apply input)

variable {pad} {compress : σ → List β → σ} {iv : σ} {input input' : List β}

theorem dvd_length_apply : size ∣ (pad.apply input).length := by
  rw [apply, List.length_append, List.length_append, pad.length_code]
  exact pad.dvd_length _

theorem size_pos (pad : Padding β size) : 0 < size := pad.width_pos.trans_le pad.width_le

theorem flatten_blocks_apply : (blocks size (pad.apply input)).flatten = pad.apply input := by
  have h := flatten_blocks_append_rest pad.size_pos (pad.apply input)
  rwa [rest_eq_nil dvd_length_apply, List.append_nil] at h

/-- The last block ends with the code of the length. -/
theorem exists_last_block (input : List β) :
    ∃ bs block, blocks size (pad.apply input) = bs ++ [block] ∧
      pad.code input.length <:+ block := by
  have hflat : (blocks size (pad.apply input)).flatten = pad.apply input := flatten_blocks_apply
  have hsuffix : pad.code input.length <:+ pad.apply input := List.suffix_append _ _
  rcases (blocks size (pad.apply input)).eq_nil_or_concat with hnil | ⟨bs, block, hconcat⟩
  · rw [hnil, List.flatten_nil] at hflat
    have hlen := hsuffix.length_le
    rw [← hflat, pad.length_code] at hlen
    exact absurd pad.width_pos (not_lt.mpr hlen)
  · rw [List.concat_eq_append] at hconcat
    refine ⟨bs, block, hconcat, ?_⟩
    have hlast : block <:+ pad.apply input := by
      rw [← hflat, hconcat, List.flatten_append, List.flatten_singleton]
      exact List.suffix_append _ _
    have hmem : block ∈ blocks size (pad.apply input) := by
      rw [hconcat]
      exact List.mem_append_right _ (List.mem_singleton_self block)
    have hblock : block.length = size := length_of_mem_blocks hmem
    refine List.suffix_of_suffix_length_le hsuffix hlast ?_
    rw [pad.length_code, hblock]
    exact pad.width_le

/-- Two inputs with the same digest, whose lengths have different codes if they differ: some
block hashed for the one and some block hashed for the other collide. -/
theorem collides (hcode : pad.code input.length = pad.code input'.length →
      input.length = input'.length)
    (hne : input ≠ input')
    (h : pad.digest compress iv input = pad.digest compress iv input') :
    Collides compress (arguments compress iv (blocks size (pad.apply input)))
      (arguments compress iv (blocks size (pad.apply input'))) := by
  by_cases hlen : input.length = input'.length
  · -- As many blocks on both sides: they are equal, or two of them collide.
    have hblocks : (blocks size (pad.apply input)).length =
        (blocks size (pad.apply input')).length := by
      simp [apply, hlen]
    refine (eq_or_collides hblocks h).resolve_left fun heq => hne ?_
    have happly : pad.apply input = pad.apply input' :=
      calc pad.apply input = (blocks size (pad.apply input)).flatten := flatten_blocks_apply.symm
        _ = (blocks size (pad.apply input')).flatten := by rw [heq.2]
        _ = pad.apply input' := flatten_blocks_apply
    rw [apply, apply, List.append_assoc, List.append_assoc] at happly
    exact (List.append_inj happly hlen).1
  · -- The last blocks end with the lengths, so they differ.
    obtain ⟨bs, block, hbs, hsuffix⟩ := pad.exists_last_block input
    obtain ⟨bs', block', hbs', hsuffix'⟩ := pad.exists_last_block input'
    rw [digest, digest, chain, chain, hbs, hbs'] at h
    rw [hbs, hbs']
    refine collides_of_last_ne ?_ h
    rintro rfl
    have hlens : (pad.code input.length).length = (pad.code input'.length).length := by
      rw [pad.length_code, pad.length_code]
    have hsub : pad.code input.length <:+ pad.code input'.length :=
      List.suffix_of_suffix_length_le hsuffix hsuffix' hlens.le
    exact hlen (hcode (hsub.eq_of_length hlens))

end Padding

end BlockHash
