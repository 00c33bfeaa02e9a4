import LMiced.Lib.BlockHash
import LMiced.Lib.Loop
import LMiced.Eal.Hash

/-!
# SHA-1

The message digest of `web/sha1.c`. A context gets a message in any number of pieces and
buffers what does not fill a block of 64 bytes; the length of the message is counted in two
words of 32 bits. `Fips` is the one-shot definition of the digest that the file refers to.

* `sha1_refines`: after any calls, in any order, a context stands for one of three things, a
  message that is being read, a digest, or a message that is rejected, and every result it has
  given is the one this has;
* `sha1Calls_eq`: the blocks that are hashed for a message, and the digests they are hashed into;
* `sha1_collides`: two messages with one digest have a collision of the block function among
  their blocks;
* `sha1Rounds_bijective`: the 80 rounds lose nothing of the words they work on.
-/

namespace LMiced

/-! ## The context -/

/-- `SHA1Context`. -/
structure SHA1Context where
  messageDigest : Vector UInt32 5
  lengthLow : UInt32
  lengthHigh : UInt32
  messageBlock : Vector UInt8 64
  messageBlockIndex : Nat
  computed : Bool
  corrupted : Bool
deriving DecidableEq, Repr

/-- The macro `SHA1CircularShift`. -/
def sha1CircularShift (bits word : UInt32) : UInt32 :=
  ((word <<< bits) &&& 0xFFFFFFFF) ||| (word >>> (32 - bits))

/-- The digest of the empty message, before it is padded. -/
def sha1Initial : Vector UInt32 5 := #v[0x67452301, 0xEFCDAB89, 0x98BADCFE, 0x10325476, 0xC3D2E1F0]

/-- `SHA1Reset`, which leaves `Message_Block` as it is. -/
def sha1Reset (context : SHA1Context) : SHA1Context :=
  { context with
    lengthLow := 0
    lengthHigh := 0
    messageBlockIndex := 0
    messageDigest := sha1Initial
    computed := false
    corrupted := false }

/-! ## A block -/

/-- The word buffers `A` to `E`. -/
@[ext] structure SHA1Words where
  a : UInt32
  b : UInt32
  c : UInt32
  d : UInt32
  e : UInt32
deriving DecidableEq, Repr

/-- `W[t]` for `t < 16`. -/
def sha1BlockWord (block : Bytes) (t : Nat) : UInt32 :=
  ((block.getD (t * 4) 0).toUInt32 <<< 24) ||| ((block.getD (t * 4 + 1) 0).toUInt32 <<< 16) |||
    ((block.getD (t * 4 + 2) 0).toUInt32 <<< 8) ||| (block.getD (t * 4 + 3) 0).toUInt32

/-- `W[t]` for `16 ≤ t`, from the words before it. -/
def sha1NextWord (w : List UInt32) (t : Nat) : UInt32 :=
  sha1CircularShift 1
    (w.getD (t - 3) 0 ^^^ w.getD (t - 8) 0 ^^^ w.getD (t - 14) 0 ^^^ w.getD (t - 16) 0)

/-- The word sequence `W`. -/
def sha1WordSequence (block : Bytes) : List UInt32 :=
  (List.range' 16 64).foldl (fun w t => w ++ [sha1NextWord w t])
    ((List.range 16).map (sha1BlockWord block))

/-- The body of the four loops over `t`, each of which has its function of `B`, `C` and `D` and
its constant `K`. -/
def sha1Round (f : UInt32 → UInt32 → UInt32 → UInt32) (k : UInt32) (s : SHA1Words) (w : UInt32) :
    SHA1Words :=
  let temp := (sha1CircularShift 5 s.a + f s.b s.c s.d + s.e + w + k) &&& 0xFFFFFFFF
  ⟨temp, s.a, sha1CircularShift 30 s.b, s.c, s.d⟩

/-- The loop from `t = 0`. -/
def sha1Round0 : SHA1Words → UInt32 → SHA1Words :=
  sha1Round (fun b c d => (b &&& c) ||| (~~~b &&& d)) 0x5A827999

/-- The loop from `t = 20`. -/
def sha1Round20 : SHA1Words → UInt32 → SHA1Words :=
  sha1Round (fun b c d => b ^^^ c ^^^ d) 0x6ED9EBA1

/-- The loop from `t = 40`. -/
def sha1Round40 : SHA1Words → UInt32 → SHA1Words :=
  sha1Round (fun b c d => (b &&& c) ||| (b &&& d) ||| (c &&& d)) 0x8F1BBCDC

/-- The loop from `t = 60`. -/
def sha1Round60 : SHA1Words → UInt32 → SHA1Words :=
  sha1Round (fun b c d => b ^^^ c ^^^ d) 0xCA62C1D6

/-- The four loops. -/
def sha1Rounds (block : Bytes) (s : SHA1Words) : SHA1Words :=
  let w := sha1WordSequence block
  let s := (w.take 20).foldl sha1Round0 s
  let s := ((w.drop 20).take 20).foldl sha1Round20 s
  let s := ((w.drop 40).take 20).foldl sha1Round40 s
  ((w.drop 60).take 20).foldl sha1Round60 s

/-- What the words of the digest are copied to. -/
def sha1Words (digest : Vector UInt32 5) : SHA1Words :=
  ⟨digest[0], digest[1], digest[2], digest[3], digest[4]⟩

/-- The words are added to the digest. -/
def sha1AddWords (digest : Vector UInt32 5) (s : SHA1Words) : Vector UInt32 5 :=
  #v[(digest[0] + s.a) &&& 0xFFFFFFFF, (digest[1] + s.b) &&& 0xFFFFFFFF,
    (digest[2] + s.c) &&& 0xFFFFFFFF, (digest[3] + s.d) &&& 0xFFFFFFFF,
    (digest[4] + s.e) &&& 0xFFFFFFFF]

/-- The digest after one more block. -/
def sha1Compress (digest : Vector UInt32 5) (block : Bytes) : Vector UInt32 5 :=
  sha1AddWords digest (sha1Rounds block (sha1Words digest))

/-- `SHA1ProcessMessageBlock`. -/
def sha1ProcessMessageBlock (context : SHA1Context) : SHA1Context :=
  { context with
    messageDigest := sha1Compress context.messageDigest context.messageBlock.toList
    messageBlockIndex := 0 }

/-! ## Input -/

/-- `context->Message_Block[context->Message_Block_Index++] = byte`. -/
def sha1Put (context : SHA1Context) (byte : UInt8) : SHA1Context :=
  { context with
    messageBlock := context.messageBlock.setIfInBounds context.messageBlockIndex byte
    messageBlockIndex := context.messageBlockIndex + 1 }

/-- Eight bits more in `Length_Low` and `Length_High`. -/
def sha1CountByte (context : SHA1Context) : SHA1Context :=
  let low := (context.lengthLow + 8) &&& 0xFFFFFFFF
  if low = 0 then
    let high := (context.lengthHigh + 1) &&& 0xFFFFFFFF
    { context with
      lengthLow := low
      lengthHigh := high
      corrupted := if high = 0 then true else context.corrupted }
  else { context with lengthLow := low }

/-- The body of the loop of `SHA1Input`. -/
def sha1InputByte (context : SHA1Context) (byte : UInt8) : SHA1Context :=
  let context := sha1CountByte (sha1Put context byte)
  if context.messageBlockIndex = 64 then sha1ProcessMessageBlock context else context

/-- The loop of `SHA1Input`. -/
def sha1InputLoop : Bytes → SHA1Context → SHA1Context
  | [], context => context
  | byte :: message, context =>
    if context.corrupted then context else sha1InputLoop message (sha1InputByte context byte)

/-- `SHA1Input`. -/
def sha1Input (message : Bytes) (context : SHA1Context) : SHA1Context :=
  if message.length = 0 then context
  else if context.computed || context.corrupted then { context with corrupted := true }
  else sha1InputLoop message context

/-! ## Result -/

/-- The loops `while(context->Message_Block_Index < bound)` of `SHA1PadMessage`. -/
def sha1FillZero (bound : Nat) (context : SHA1Context) : SHA1Context :=
  (List.replicate (bound - context.messageBlockIndex) 0).foldl sha1Put context

/-- The message length in `Message_Block[56]` to `Message_Block[63]`. -/
def sha1LengthOctets (high low : UInt32) : Bytes :=
  [(high >>> 24) &&& 0xFF, (high >>> 16) &&& 0xFF, (high >>> 8) &&& 0xFF, high &&& 0xFF,
    (low >>> 24) &&& 0xFF, (low >>> 16) &&& 0xFF, (low >>> 8) &&& 0xFF, low &&& 0xFF].map
      UInt32.toUInt8

/-- Octets stored from an index on. -/
def sha1Store : Nat → Bytes → Vector UInt8 64 → Vector UInt8 64
  | _, [], block => block
  | n, octet :: octets, block => sha1Store (n + 1) octets (block.setIfInBounds n octet)

/-- The assignments to `Message_Block[56]` to `Message_Block[63]`, which leave
`Message_Block_Index` as it is. -/
def sha1StoreLength (context : SHA1Context) : SHA1Context :=
  { context with
    messageBlock :=
      sha1Store 56 (sha1LengthOctets context.lengthHigh context.lengthLow) context.messageBlock }

/-- The one and the zeros, which take a second block where the first one is too small. -/
def sha1PadBits (context : SHA1Context) : SHA1Context :=
  if context.messageBlockIndex > 55 then
    sha1FillZero 56 (sha1ProcessMessageBlock (sha1FillZero 64 (sha1Put context 0x80)))
  else sha1FillZero 56 (sha1Put context 0x80)

/-- `SHA1PadMessage`. -/
def sha1PadMessage (context : SHA1Context) : SHA1Context :=
  sha1ProcessMessageBlock (sha1StoreLength (sha1PadBits context))

/-- `SHA1Result`. -/
def sha1Result (context : SHA1Context) : Bool × SHA1Context :=
  if context.corrupted then (false, context)
  else if !context.computed then
    (true, { sha1PadMessage context with computed := true })
  else (true, context)

/-! ## The calls of `SHA1ProcessMessageBlock` -/

/-- What a call reads: the digest so far and the block. -/
def SHA1Context.argument (context : SHA1Context) : Vector UInt32 5 × Bytes :=
  (context.messageDigest, context.messageBlock.toList)

/-- The calls in the loop of `SHA1Input`. -/
def sha1InputCalls : Bytes → SHA1Context → List (Vector UInt32 5 × Bytes)
  | [], _ => []
  | byte :: message, context =>
    if context.corrupted then []
    else
      let counted := sha1CountByte (sha1Put context byte)
      (if counted.messageBlockIndex = 64 then [counted.argument] else []) ++
        sha1InputCalls message (sha1InputByte context byte)

/-- The calls in `SHA1PadMessage`. -/
def sha1PadCalls (context : SHA1Context) : List (Vector UInt32 5 × Bytes) :=
  (if context.messageBlockIndex > 55 then [(sha1FillZero 64 (sha1Put context 0x80)).argument]
    else []) ++ [(sha1StoreLength (sha1PadBits context)).argument]

/-- The calls while a context gets a message in pieces and gives its digest. -/
def sha1Calls : List Bytes → SHA1Context → List (Vector UInt32 5 × Bytes)
  | [], context => if context.corrupted || context.computed then [] else sha1PadCalls context
  | piece :: pieces, context =>
    (if context.computed || context.corrupted then [] else sha1InputCalls piece context) ++
      sha1Calls pieces (sha1Input piece context)

/-! ## The standard -/

namespace Fips

/-- The circular left shift by `n` bits. -/
def rotl (n : Nat) (x : UInt32) : UInt32 := ⟨x.toBitVec.rotateLeft n⟩

/-- The function of round `t`. -/
def f (t : Nat) (b c d : UInt32) : UInt32 :=
  if t < 20 then (b &&& c) ||| (~~~b &&& d)
  else if 40 ≤ t ∧ t < 60 then (b &&& c) ||| (b &&& d) ||| (c &&& d)
  else b ^^^ c ^^^ d

/-- The constant of round `t`. -/
def k (t : Nat) : UInt32 :=
  if t < 20 then 0x5A827999
  else if t < 40 then 0x6ED9EBA1
  else if t < 60 then 0x8F1BBCDC
  else 0xCA62C1D6

/-- The words of a block, the most significant byte first, and the words that follow from
them. -/
def w (block : Bytes) (t : Nat) : UInt32 :=
  if t < 16 then sha1BlockWord block t
  else rotl 1 (w block (t - 3) ^^^ w block (t - 8) ^^^ w block (t - 14) ^^^ w block (t - 16))

/-- Round `t`. -/
def round (block : Bytes) (s : SHA1Words) (t : Nat) : SHA1Words :=
  ⟨rotl 5 s.a + f t s.b s.c s.d + s.e + w block t + k t, s.a, rotl 30 s.b, s.c, s.d⟩

/-- The words are added to the digest. -/
def add (digest : Vector UInt32 5) (s : SHA1Words) : Vector UInt32 5 :=
  #v[digest[0] + s.a, digest[1] + s.b, digest[2] + s.c, digest[3] + s.d, digest[4] + s.e]

/-- The digest after one more block. -/
def compress (digest : Vector UInt32 5) (block : Bytes) : Vector UInt32 5 :=
  add digest ((List.range 80).foldl (round block) (sha1Words digest))

/-- A one, zeros, and the number of bits in 64 bits. -/
def padding : BlockHash.Padding UInt8 64 where
  fill n := 0x80 :: List.replicate ((119 - n % 64) % 64) 0
  code n := (leBytes 8 (8 * n)).reverse
  width := 8
  width_pos := by decide
  width_le := by decide
  length_code n := by rw [List.length_reverse, length_leBytes]
  dvd_length n := by
    rw [List.length_cons, List.length_replicate]
    omega

/-- The digest of a message. -/
def sha1 (message : Bytes) : Vector UInt32 5 := padding.digest compress sha1Initial message

end Fips

/-! ### Rounds -/

theorem toNat_and_max (x : UInt32) : x &&& 0xFFFFFFFF = x := by
  apply UInt32.toNat.inj
  rw [UInt32.toNat_and]
  show x.toNat &&& (2 ^ 32 - 1) = x.toNat
  rw [Nat.and_two_pow_sub_one_eq_mod, Nat.mod_eq_of_lt x.toNat_lt]

theorem sha1CircularShift_eq {n : Nat} (hpos : 0 < n) (hlt : n < 32) (x : UInt32) :
    sha1CircularShift (UInt32.ofNat n) x = Fips.rotl n x := by
  have hn : (UInt32.ofNat n).toNat = n := by
    rw [UInt32.toNat_ofNat']
    exact Nat.mod_eq_of_lt (hlt.trans (by decide))
  have hsub : (32 - UInt32.ofNat n).toNat = 32 - n := by
    rw [UInt32.toNat_sub_of_le _ _ (by rw [UInt32.le_iff_toNat_le, hn]; exact hlt.le), hn]
    rfl
  rw [sha1CircularShift, toNat_and_max, Fips.rotl, BitVec.rotateLeft_def, Nat.mod_eq_of_lt hlt]
  apply UInt32.toNat.inj
  rw [UInt32.toNat_or, UInt32.toNat_shiftLeft, UInt32.toNat_shiftRight, hn, hsub,
    Nat.mod_eq_of_lt hlt, Nat.mod_eq_of_lt (show 32 - n < 32 by omega)]
  show _ = (x.toBitVec <<< n ||| x.toBitVec >>> (32 - n)).toNat
  rw [BitVec.toNat_or, BitVec.toNat_shiftLeft, BitVec.toNat_ushiftRight]
  rfl

/-- The word sequence is the one of the standard, as far as it has been computed. -/
theorem foldl_sha1NextWord (block : Bytes) (n : Nat) :
    (List.range' 16 n).foldl (fun w t => w ++ [sha1NextWord w t])
        ((List.range 16).map (sha1BlockWord block)) =
      (List.range (16 + n)).map (Fips.w block) := by
  induction n with
  | zero =>
    refine List.map_congr_left fun t ht => ?_
    rw [Fips.w, if_pos (List.mem_range.mp ht)]
  | succ n ih =>
    have hword : ∀ t < 16 + n,
        ((List.range (16 + n)).map (Fips.w block)).getD t 0 = Fips.w block t := by
      intro t ht
      rw [List.getD_eq_getElem _ _ (by simpa using ht)]
      simp
    have hnext : Fips.w block (16 + n) = Fips.rotl 1 (Fips.w block (16 + n - 3) ^^^
        Fips.w block (16 + n - 8) ^^^ Fips.w block (16 + n - 14) ^^^
          Fips.w block (16 + n - 16)) := by
      rw [Fips.w, if_neg (by omega)]
    rw [List.range'_1_concat, List.foldl_append, ih, ← Nat.add_assoc, List.range_succ,
      List.map_append, List.map_singleton, List.foldl_cons, List.foldl_nil]
    congr 2
    rw [sha1NextWord, hword _ (by omega), hword _ (by omega), hword _ (by omega),
      hword _ (by omega), hnext]
    exact sha1CircularShift_eq (n := 1) (by decide) (by decide) _

theorem sha1WordSequence_eq (block : Bytes) :
    sha1WordSequence block = (List.range 80).map (Fips.w block) :=
  foldl_sha1NextWord block 64

theorem sha1Round_eq {f : UInt32 → UInt32 → UInt32 → UInt32} {c : UInt32} {t : Nat}
    (hf : f = Fips.f t) (hc : c = Fips.k t) (block : Bytes) (s : SHA1Words) :
    sha1Round f c s (Fips.w block t) = Fips.round block s t := by
  have h5 : sha1CircularShift 5 s.a = Fips.rotl 5 s.a :=
    sha1CircularShift_eq (by decide) (by decide) s.a
  have h30 : sha1CircularShift 30 s.b = Fips.rotl 30 s.b :=
    sha1CircularShift_eq (by decide) (by decide) s.b
  rw [sha1Round, toNat_and_max, h5, h30, hf, hc, Fips.round]

/-- A loop of twenty rounds. -/
theorem foldl_sha1Round {round : SHA1Words → UInt32 → SHA1Words} {block : Bytes} {start : Nat}
    (h : ∀ s t, start ≤ t → t < start + 20 → round s (Fips.w block t) = Fips.round block s t)
    (s : SHA1Words) :
    ((List.range' start 20).map (Fips.w block)).foldl round s =
      (List.range' start 20).foldl (Fips.round block) s := by
  rw [List.foldl_map]
  refine List.foldl_ext _ _ _ fun s t ht => ?_
  obtain ⟨hle, hlt⟩ := List.mem_range'_1.mp ht
  exact h s t hle hlt

/-- The four loops are the rounds of the standard. -/
theorem sha1Rounds_eq (block : Bytes) (s : SHA1Words) :
    sha1Rounds block s = (List.range 80).foldl (Fips.round block) s := by
  have h0 : ∀ s t, 0 ≤ t → t < 0 + 20 →
      sha1Round0 s (Fips.w block t) = Fips.round block s t := by
    intro s t _ hlt
    refine sha1Round_eq ?_ ?_ block s
    · funext b c d
      rw [Fips.f, if_pos hlt]
    · rw [Fips.k, if_pos hlt]
  have h20 : ∀ s t, 20 ≤ t → t < 20 + 20 →
      sha1Round20 s (Fips.w block t) = Fips.round block s t := by
    intro s t hle hlt
    refine sha1Round_eq ?_ ?_ block s
    · funext b c d
      rw [Fips.f, if_neg hle.not_gt, if_neg (by omega)]
    · rw [Fips.k, if_neg hle.not_gt, if_pos hlt]
  have h40 : ∀ s t, 40 ≤ t → t < 40 + 20 →
      sha1Round40 s (Fips.w block t) = Fips.round block s t := by
    intro s t hle hlt
    refine sha1Round_eq ?_ ?_ block s
    · funext b c d
      rw [Fips.f, if_neg (by omega), if_pos ⟨hle, hlt⟩]
    · rw [Fips.k, if_neg (by omega), if_neg hle.not_gt, if_pos hlt]
  have h60 : ∀ s t, 60 ≤ t → t < 60 + 20 →
      sha1Round60 s (Fips.w block t) = Fips.round block s t := by
    intro s t hle _
    refine sha1Round_eq ?_ ?_ block s
    · funext b c d
      rw [Fips.f, if_neg (by omega), if_neg (by omega)]
    · rw [Fips.k, if_neg (by omega), if_neg (by omega), if_neg hle.not_gt]
  -- The four loops, one after the other, are the 80 rounds.
  have hsplit : List.range 80 =
      List.range' 0 20 ++ List.range' 20 20 ++ List.range' 40 20 ++ List.range' 60 20 := by
    decide
  have hfirst : (List.range 80).take 20 = List.range' 0 20 := by decide
  have hsecond : ((List.range 80).drop 20).take 20 = List.range' 20 20 := by decide
  have hthird : ((List.range 80).drop 40).take 20 = List.range' 40 20 := by decide
  have hfourth : ((List.range 80).drop 60).take 20 = List.range' 60 20 := by decide
  rw [sha1Rounds, sha1WordSequence_eq]
  simp only [← List.map_take, ← List.map_drop]
  rw [hfirst, hsecond, hthird, hfourth, foldl_sha1Round h0, foldl_sha1Round h20,
    foldl_sha1Round h40, foldl_sha1Round h60, hsplit, List.foldl_append, List.foldl_append,
    List.foldl_append]

theorem sha1AddWords_eq (digest : Vector UInt32 5) (s : SHA1Words) :
    sha1AddWords digest s = Fips.add digest s := by
  simp only [sha1AddWords, Fips.add, toNat_and_max]

theorem sha1Compress_eq : sha1Compress = Fips.compress := by
  funext digest block
  rw [sha1Compress, sha1Rounds_eq, sha1AddWords_eq, Fips.compress]


/-! ## What a context holds -/

/-- A context in which a message is being read: the digest of the complete blocks, and the
octets that are buffered. -/
structure SHA1Context.Holds (context : SHA1Context) (digest : Vector UInt32 5)
    (buffer : Bytes) : Prop where
  digest : context.messageDigest = digest
  index : context.messageBlockIndex = buffer.length
  buffer : context.messageBlock.toList.take buffer.length = buffer

theorem take_setIfInBounds {block : Vector UInt8 64} {buffer : Bytes}
    (h : block.toList.take buffer.length = buffer) (hlt : buffer.length < 64) (byte : UInt8) :
    (block.setIfInBounds buffer.length byte).toList.take (buffer.length + 1) =
      buffer ++ [byte] := by
  have hsize : buffer.length < block.toList.length := by
    rwa [Vector.length_toList]
  rw [Vector.toList_setIfInBounds, List.take_add_one, List.take_set_of_le (le_refl _), h,
    List.getElem?_set_self hsize]
  rfl

theorem sha1ProcessMessageBlock_messageDigest (context : SHA1Context) :
    (sha1ProcessMessageBlock context).messageDigest =
      sha1Compress context.messageDigest context.messageBlock.toList := rfl

theorem sha1StoreLength_messageDigest (context : SHA1Context) :
    (sha1StoreLength context).messageDigest = context.messageDigest := by
  rw [sha1StoreLength]

theorem sha1StoreLength_messageBlock (context : SHA1Context) :
    (sha1StoreLength context).messageBlock = sha1Store 56
      (sha1LengthOctets context.lengthHigh context.lengthLow) context.messageBlock := by
  rw [sha1StoreLength]

namespace SHA1Context.Holds

variable {context : SHA1Context} {digest : Vector UInt32 5} {buffer : Bytes}

/-- One more octet in the buffer. -/
theorem put (h : context.Holds digest buffer) (hlt : buffer.length < 64) (byte : UInt8) :
    (sha1Put context byte).Holds digest (buffer ++ [byte]) := by
  have hlen : (buffer ++ [byte]).length = buffer.length + 1 := by
    rw [List.length_append, List.length_singleton]
  refine ⟨h.digest, ?_, ?_⟩
  · show context.messageBlockIndex + 1 = (buffer ++ [byte]).length
    rw [h.index, hlen]
  · show (context.messageBlock.setIfInBounds context.messageBlockIndex byte).toList.take
      (buffer ++ [byte]).length = buffer ++ [byte]
    rw [h.index, hlen, take_setIfInBounds h.buffer hlt]

/-- A full buffer is what a call reads. -/
theorem argument (h : context.Holds digest buffer) (hlen : buffer.length = 64) :
    context.argument = (digest, buffer) := by
  have hblock : context.messageBlock.toList = buffer := by
    rw [← h.buffer, hlen, List.take_of_length_le]
    rw [Vector.length_toList]
  rw [SHA1Context.argument, h.digest, hblock]

/-- A full buffer is hashed. -/
theorem process (h : context.Holds digest buffer) (hlen : buffer.length = 64) :
    (sha1ProcessMessageBlock context).Holds (sha1Compress digest buffer) [] := by
  have hcall := h.argument hlen
  rw [SHA1Context.argument] at hcall
  obtain ⟨hdigest, hblock⟩ := Prod.mk.inj hcall
  refine ⟨?_, rfl, rfl⟩
  rw [sha1ProcessMessageBlock_messageDigest, hdigest, hblock]

/-- Zeros up to the bound. -/
theorem fillZero (h : context.Holds digest buffer) {bound : Nat} (hle : bound ≤ 64) :
    (sha1FillZero bound context).Holds digest
      (buffer ++ List.replicate (bound - buffer.length) 0) := by
  rw [sha1FillZero, h.index]
  generalize hn : bound - buffer.length = n
  induction n generalizing context buffer with
  | zero => simpa using h
  | succ n ih =>
    have hput := h.put (by omega) 0
    have hrest := ih hput (by rw [List.length_append, List.length_singleton]; omega)
    rw [List.append_assoc] at hrest
    exact hrest

end SHA1Context.Holds

/-! ## The padding -/

@[simp] theorem sha1Put_lengthHigh (context : SHA1Context) (byte : UInt8) :
    (sha1Put context byte).lengthHigh = context.lengthHigh := rfl

@[simp] theorem sha1Put_lengthLow (context : SHA1Context) (byte : UInt8) :
    (sha1Put context byte).lengthLow = context.lengthLow := rfl

@[simp] theorem sha1ProcessMessageBlock_lengthHigh (context : SHA1Context) :
    (sha1ProcessMessageBlock context).lengthHigh = context.lengthHigh := rfl

@[simp] theorem sha1ProcessMessageBlock_lengthLow (context : SHA1Context) :
    (sha1ProcessMessageBlock context).lengthLow = context.lengthLow := rfl

@[simp] theorem foldl_sha1Put_lengthHigh (octets : Bytes) (context : SHA1Context) :
    (octets.foldl sha1Put context).lengthHigh = context.lengthHigh := by
  induction octets generalizing context with
  | nil => rfl
  | cons octet octets ih => rw [List.foldl_cons, ih, sha1Put_lengthHigh]

@[simp] theorem foldl_sha1Put_lengthLow (octets : Bytes) (context : SHA1Context) :
    (octets.foldl sha1Put context).lengthLow = context.lengthLow := by
  induction octets generalizing context with
  | nil => rfl
  | cons octet octets ih => rw [List.foldl_cons, ih, sha1Put_lengthLow]

theorem take_sha1Store {octets buffer : Bytes} {block : Vector UInt8 64}
    (hlen : buffer.length + octets.length ≤ 64)
    (h : block.toList.take buffer.length = buffer) :
    (sha1Store buffer.length octets block).toList.take (buffer.length + octets.length) =
      buffer ++ octets := by
  induction octets generalizing buffer block with
  | nil => simpa [sha1Store] using h
  | cons octet octets ih =>
    rw [List.length_cons] at hlen
    have hsucc : (buffer ++ [octet]).length = buffer.length + 1 := by
      rw [List.length_append, List.length_singleton]
    have hset := take_setIfInBounds h (by omega) octet
    rw [← hsucc] at hset
    have hrest := ih (by omega) hset
    rw [hsucc, List.append_assoc, Nat.add_assoc, Nat.add_comm 1] at hrest
    exact hrest

namespace SHA1Context.Holds

variable {context : SHA1Context} {digest : Vector UInt32 5} {buffer : Bytes}

/-- The block with the length is complete. -/
theorem storeLength (h : context.Holds digest buffer) (hlen : buffer.length = 56) :
    (sha1StoreLength context).argument =
      (digest, buffer ++ sha1LengthOctets context.lengthHigh context.lengthLow) := by
  have hle : buffer.length +
      (sha1LengthOctets context.lengthHigh context.lengthLow).length ≤ 64 := by
    rw [hlen]
    exact le_refl 64
  have hstore := take_sha1Store hle h.buffer
  rw [hlen, List.take_of_length_le (by rw [Vector.length_toList]; exact le_refl 64)] at hstore
  rw [SHA1Context.argument, sha1StoreLength_messageDigest, sha1StoreLength_messageBlock, hstore,
    h.digest]

/-- The padding fits into the block. -/
theorem padCalls_of_le (h : context.Holds digest buffer) (hle : buffer.length ≤ 55) :
    sha1PadCalls context = [(digest, buffer ++ [0x80] ++
      List.replicate (55 - buffer.length) 0 ++
        sha1LengthOctets context.lengthHigh context.lengthLow)] := by
  have hfill := (h.put (by omega) 0x80).fillZero (show 56 ≤ 64 by decide)
  have hput : 56 - (buffer ++ [(0x80 : UInt8)]).length = 55 - buffer.length := by
    rw [List.length_append, List.length_singleton]
    omega
  rw [hput] at hfill
  have hlen : (buffer ++ [(0x80 : UInt8)] ++
      List.replicate (55 - buffer.length) 0).length = 56 := by
    rw [List.length_append, List.length_append, List.length_singleton, List.length_replicate]
    omega
  have hlast := hfill.storeLength hlen
  simp only [sha1FillZero, foldl_sha1Put_lengthHigh, foldl_sha1Put_lengthLow,
    sha1Put_lengthHigh, sha1Put_lengthLow] at hlast
  rw [sha1PadCalls, sha1PadBits, h.index, if_neg hle.not_gt, if_neg hle.not_gt]
  exact congrArg (fun call => [call]) hlast

/-- The padding needs a second block. -/
theorem padCalls_of_gt (h : context.Holds digest buffer) (hgt : 55 < buffer.length)
    (hlt : buffer.length < 64) :
    let first := buffer ++ [0x80] ++ List.replicate (63 - buffer.length) 0
    sha1PadCalls context = [(digest, first), (sha1Compress digest first,
      List.replicate 56 0 ++ sha1LengthOctets context.lengthHigh context.lengthLow)] := by
  intro first
  have hfill := (h.put hlt 0x80).fillZero (le_refl 64)
  have hput : 64 - (buffer ++ [(0x80 : UInt8)]).length = 63 - buffer.length := by
    rw [List.length_append, List.length_singleton]
    omega
  rw [hput] at hfill
  have hlen : (buffer ++ [(0x80 : UInt8)] ++
      List.replicate (63 - buffer.length) 0).length = 64 := by
    rw [List.length_append, List.length_append, List.length_singleton, List.length_replicate]
    omega
  have hfirst := hfill.argument hlen
  have hlast := ((hfill.process hlen).fillZero (show 56 ≤ 64 by decide)).storeLength rfl
  simp only [sha1FillZero, foldl_sha1Put_lengthHigh, foldl_sha1Put_lengthLow,
    sha1Put_lengthHigh, sha1Put_lengthLow, sha1ProcessMessageBlock_lengthHigh,
    sha1ProcessMessageBlock_lengthLow] at hlast
  rw [sha1PadCalls, sha1PadBits, h.index, if_pos hgt, if_pos hgt, hfirst]
  exact congrArg (fun call => [(digest, first), call]) hlast

/-- The last call gives the digest. -/
theorem padMessage_of_calls {calls : List (Vector UInt32 5 × Bytes)} {block : Bytes}
    (h : sha1PadCalls context = calls ++ [(digest, block)]) :
    (sha1PadMessage context).messageDigest = sha1Compress digest block := by
  obtain ⟨_, hlast⟩ := List.append_inj' h rfl
  have hcall := List.singleton_inj.mp hlast
  rw [SHA1Context.argument] at hcall
  obtain ⟨hdigest, hblock⟩ := Prod.mk.inj hcall
  rw [sha1PadMessage, sha1ProcessMessageBlock_messageDigest, hdigest, hblock]

/-- `SHA1PadMessage` hashes the buffered octets, a one, zeros and the length. -/
theorem padMessage (h : context.Holds digest buffer) (hlt : buffer.length < 64) :
    (sha1PadMessage context).messageDigest =
      (BlockHash.Reader.feed 64 sha1Compress ⟨digest, buffer⟩
        (0x80 :: List.replicate ((119 - buffer.length) % 64) 0 ++
          sha1LengthOctets context.lengthHigh context.lengthLow)).state := by
  have hoctets : (sha1LengthOctets context.lengthHigh context.lengthLow).length = 8 := rfl
  generalize hlength : sha1LengthOctets context.lengthHigh context.lengthLow = octets at *
  rcases Nat.lt_or_ge 55 buffer.length with hgt | hle
  · -- No room for the length behind the data: the padding ends in a second block.
    have hzeros : (119 - buffer.length) % 64 = (63 - buffer.length) + 56 := by
      omega
    have hfirst : BlockHash.Reader.feed 64 sha1Compress ⟨digest, buffer⟩
        (0x80 :: List.replicate (63 - buffer.length) 0) =
          ⟨sha1Compress digest (buffer ++ 0x80 :: List.replicate (63 - buffer.length) 0), []⟩ := by
      apply BlockHash.Reader.feed_of_eq (List.cons_ne_nil _ _)
      rw [List.length_cons, List.length_replicate]
      show buffer.length + _ = 64
      omega
    have hsecond : ∀ digest, BlockHash.Reader.feed 64 sha1Compress ⟨digest, []⟩
        (List.replicate 56 0 ++ octets) =
          ⟨sha1Compress digest (List.replicate 56 0 ++ octets), []⟩ := by
      intro digest
      apply BlockHash.Reader.feed_of_eq (by simp)
      rw [List.length_append, List.length_replicate, hoctets]
      rfl
    have hsplit : 0x80 :: List.replicate ((119 - buffer.length) % 64) 0 ++ octets =
        (0x80 :: List.replicate (63 - buffer.length) 0) ++ (List.replicate 56 0 ++ octets) := by
      rw [hzeros, List.replicate_add, ← List.cons_append, List.append_assoc]
    have hcalls : sha1PadCalls context = [_] ++ [_] := h.padCalls_of_gt hgt hlt
    rw [padMessage_of_calls hcalls, hlength, hsplit, BlockHash.Reader.feed_append, hfirst, hsecond,
      List.append_assoc]
    rfl
  · have hzeros : (119 - buffer.length) % 64 = 55 - buffer.length := by
      omega
    have honly : BlockHash.Reader.feed 64 sha1Compress ⟨digest, buffer⟩
        (0x80 :: List.replicate (55 - buffer.length) 0 ++ octets) =
          ⟨sha1Compress digest
            (buffer ++ (0x80 :: List.replicate (55 - buffer.length) 0 ++ octets)), []⟩ := by
      apply BlockHash.Reader.feed_of_eq (by simp)
      rw [List.length_append, List.length_cons, List.length_replicate, hoctets]
      show buffer.length + _ = 64
      omega
    have hcalls : sha1PadCalls context = [] ++ [_] := h.padCalls_of_le hle
    rw [padMessage_of_calls hcalls, hlength, hzeros, honly, List.append_assoc, List.append_assoc]
    rfl

end SHA1Context.Holds


/-! ## The length -/

/-- A word on its bytes: the lower half, and the upper half. -/
theorem leBytes_add {m : Nat} (n : Nat) {x : Nat} (y : Nat) (hx : x < 256 ^ m) :
    leBytes (m + n) (y * 256 ^ m + x) = leBytes m x ++ leBytes n y := by
  induction m generalizing x with
  | zero =>
    obtain rfl : x = 0 := by simpa using hx
    simp [leBytes]
  | succ m ih =>
    have hpow : y * 256 ^ (m + 1) + x = (y * 256 ^ m + x / 256) * 256 + x % 256 := by
      calc
        y * 256 ^ (m + 1) + x = y * 256 ^ m * 256 + (x / 256 * 256 + x % 256) := by
          rw [Nat.div_add_mod', pow_succ, Nat.mul_assoc]
        _ = (y * 256 ^ m + x / 256) * 256 + x % 256 := by
          rw [Nat.add_mul, Nat.add_assoc]
    have hdiv : (y * 256 ^ (m + 1) + x) / 256 = y * 256 ^ m + x / 256 := by
      omega
    have hbyte : UInt8.ofNat (y * 256 ^ (m + 1) + x) = UInt8.ofNat x := by
      apply UInt8.toNat.inj
      rw [UInt8.toNat_ofNat', UInt8.toNat_ofNat']
      omega
    have hlt : x / 256 < 256 ^ m := by
      rw [pow_succ] at hx
      omega
    rw [Nat.add_right_comm, leBytes, hdiv, ih hlt, hbyte]
    rfl

theorem toUInt8_shiftRight (x : UInt32) {n : Nat} (hn : n < 32) :
    ((x >>> UInt32.ofNat n) &&& 0xFF).toUInt8 = UInt8.ofNat (x.toNat / 2 ^ n) := by
  apply UInt8.toNat.inj
  have hsize : (UInt32.ofNat n).toNat = n := by
    rw [UInt32.toNat_ofNat']
    exact Nat.mod_eq_of_lt (hn.trans (by decide))
  rw [UInt32.toNat_toUInt8, UInt32.toNat_and, UInt32.toNat_shiftRight, hsize,
    Nat.mod_eq_of_lt hn, Nat.shiftRight_eq_div_pow, UInt8.toNat_ofNat']
  show (x.toNat / 2 ^ n &&& (2 ^ 8 - 1)) % 2 ^ 8 = _
  rw [Nat.and_two_pow_sub_one_eq_mod, Nat.mod_mod]

/-- The four octets of a word. -/
theorem octets_eq (x : UInt32) :
    [((x >>> 24) &&& 0xFF).toUInt8, ((x >>> 16) &&& 0xFF).toUInt8,
      ((x >>> 8) &&& 0xFF).toUInt8, (x &&& 0xFF).toUInt8] = (leBytes 4 x.toNat).reverse := by
  have h24 := toUInt8_shiftRight x (n := 24) (by decide)
  have h16 := toUInt8_shiftRight x (n := 16) (by decide)
  have h8 := toUInt8_shiftRight x (n := 8) (by decide)
  have h0 := toUInt8_shiftRight x (n := 0) (by decide)
  have hzero : x >>> UInt32.ofNat 0 = x := by
    apply UInt32.toNat.inj
    simp
  rw [hzero, pow_zero, Nat.div_one] at h0
  simp only [leBytes, List.reverse_cons, List.reverse_nil, List.nil_append, List.cons_append,
    Nat.div_div_eq_div_mul]
  rw [h0]
  exact congrArg₂ _ h24 (congrArg₂ _ h16 (congrArg₂ _ h8 rfl))

/-- The octets of the length are those of the standard. -/
theorem sha1LengthOctets_eq {high low : UInt32} {n : Nat}
    (h : high.toNat * 2 ^ 32 + low.toNat = 8 * n) :
    sha1LengthOctets high low = Fips.padding.code n := by
  have hsplit := leBytes_add (m := 4) 4 high.toNat (x := low.toNat) low.toNat_lt
  show _ = (leBytes 8 (8 * n)).reverse
  rw [← h, show 2 ^ 32 = 256 ^ 4 from rfl, hsplit, List.reverse_append, ← octets_eq,
    ← octets_eq]
  rfl


/-! ## Reading a message -/

/-- The context has read this message, and is ready for more of it. -/
structure SHA1Context.Reading (context : SHA1Context) (message : Bytes) : Prop where
  holds : context.Holds (BlockHash.chain 64 sha1Compress sha1Initial message)
    (BlockHash.rest 64 message)
  length : context.lengthHigh.toNat * 2 ^ 32 + context.lengthLow.toNat = 8 * message.length
  computed : context.computed = false
  corrupted : context.corrupted = false

theorem sha1Reset_reading (context : SHA1Context) : (sha1Reset context).Reading [] := by
  refine ⟨⟨?_, ?_, ?_⟩, by simp [sha1Reset], rfl, rfl⟩
  · rw [BlockHash.chain, BlockHash.blocks_nil, List.foldl_nil, sha1Reset]
  · rw [BlockHash.rest_nil, sha1Reset, List.length_nil]
  · rw [BlockHash.rest_nil, List.length_nil, List.take_zero]

/-- Counting an octet touches neither the digest nor the buffer. -/
theorem SHA1Context.Holds.countByte {context : SHA1Context} {digest : Vector UInt32 5}
    {buffer : Bytes} (h : context.Holds digest buffer) :
    (sha1CountByte context).Holds digest buffer := by
  rw [sha1CountByte]
  split
  · exact ⟨h.digest, h.index, h.buffer⟩
  · exact ⟨h.digest, h.index, h.buffer⟩

theorem sha1CountByte_computed (context : SHA1Context) :
    (sha1CountByte context).computed = context.computed := by
  rw [sha1CountByte]
  split <;> rfl

/-- The two words count up to `2 ^ 64` bits, where the context gets corrupted. -/
theorem sha1CountByte_length {context : SHA1Context} {n : Nat}
    (h : context.lengthHigh.toNat * 2 ^ 32 + context.lengthLow.toNat = 8 * n)
    (hcorrupted : context.corrupted = false) :
    (n + 1 < 2 ^ 61 → (sha1CountByte context).corrupted = false ∧
        (sha1CountByte context).lengthHigh.toNat * 2 ^ 32 +
          (sha1CountByte context).lengthLow.toNat = 8 * (n + 1)) ∧
      (n + 1 = 2 ^ 61 → (sha1CountByte context).corrupted = true) := by
  have hlow := context.lengthLow.toNat_lt
  have hhigh := context.lengthHigh.toNat_lt
  have hlowadd : (context.lengthLow + 8).toNat = (context.lengthLow.toNat + 8) % 2 ^ 32 :=
    UInt32.toNat_add _ _
  have hhighadd : (context.lengthHigh + 1).toNat = (context.lengthHigh.toNat + 1) % 2 ^ 32 :=
    UInt32.toNat_add _ _
  have hzero : ∀ x : UInt32, x = 0 ↔ x.toNat = 0 := fun x => UInt32.toNat_inj.symm
  rw [sha1CountByte]
  simp only [toNat_and_max, hzero, hlowadd, hhighadd]
  split
  · next hwrap =>
    -- The low word wraps around, and the carry goes to the high one.
    simp only [hlowadd, hhighadd, hcorrupted]
    constructor
    · intro hn
      rw [if_neg (by omega)]
      have hfull : context.lengthLow.toNat + 8 = 2 ^ 32 := by omega
      have hhighlt : context.lengthHigh.toNat + 1 < 2 ^ 32 := by omega
      refine ⟨rfl, ?_⟩
      calc
        _ = context.lengthHigh.toNat * 2 ^ 32 + (context.lengthLow.toNat + 8) := by
          rw [hwrap, Nat.mod_eq_of_lt hhighlt, Nat.add_one_mul, hfull, Nat.add_zero]
        _ = 8 * n + 8 := by
          rw [← Nat.add_assoc, h]
    · intro hn
      rw [if_pos (by omega)]
  · next hwrap =>
    simp only [hlowadd]
    exact ⟨fun _ => ⟨hcorrupted, by omega⟩, fun hn => by omega⟩

namespace SHA1Context.Reading

variable {context : SHA1Context} {message : Bytes}

/-- One turn of the loop of `SHA1Input`. -/
theorem inputByte (h : context.Reading message) (byte : UInt8) :
    (message.length + 1 < 2 ^ 61 → (sha1InputByte context byte).Reading (message ++ [byte])) ∧
      (message.length + 1 = 2 ^ 61 → (sha1InputByte context byte).corrupted = true) := by
  have hlt := Nat.mod_lt message.length (show 0 < 64 by decide)
  rw [← BlockHash.length_rest 64 message] at hlt
  have hcounted := (h.holds.put hlt byte).countByte
  have hcount := @sha1CountByte_length (sha1Put context byte) _ h.length h.corrupted
  have hlen : (BlockHash.rest 64 message ++ [byte]).length =
      (BlockHash.rest 64 message).length + 1 := by
    rw [List.length_append, List.length_singleton]
  have hmessage : (message ++ [byte]).length = message.length + 1 := by
    rw [List.length_append, List.length_singleton]
  have hcomputed : (sha1CountByte (sha1Put context byte)).computed = false :=
    (sha1CountByte_computed _).trans h.computed
  rw [sha1InputByte]
  simp only [hcounted.index, hlen]
  split
  · next hfull =>
    -- The octet completes the block, which is processed at once.
    have hprocess := hcounted.process (hlen.trans hfull)
    have hchain : BlockHash.chain 64 sha1Compress sha1Initial (message ++ [byte]) = _ :=
      BlockHash.chain_concat_full hfull
    rw [← hchain] at hprocess
    refine ⟨fun hn => ⟨?_, ?_, hcomputed, (hcount.1 hn).1⟩, fun hn => hcount.2 hn⟩
    · rw [(BlockHash.blocks_concat_full hfull).2]
      exact hprocess
    · rw [hmessage]
      exact (hcount.1 hn).2
  · next hpartial =>
    have hlt' : (BlockHash.rest 64 message).length + 1 < 64 := by omega
    refine ⟨fun hn => ⟨?_, ?_, hcomputed, (hcount.1 hn).1⟩, fun hn => hcount.2 hn⟩
    · rw [BlockHash.chain_concat_short hlt', (BlockHash.blocks_concat_short hlt').2]
      exact hcounted
    · rw [hmessage]
      exact (hcount.1 hn).2

/-- The loop of `SHA1Input` reads all of its argument, or stops at `2 ^ 61` octets. -/
theorem inputLoop (h : context.Reading message) (hle : message.length < 2 ^ 61) (more : Bytes) :
    (message.length + more.length < 2 ^ 61 →
        (sha1InputLoop more context).Reading (message ++ more)) ∧
      (2 ^ 61 ≤ message.length + more.length →
        (sha1InputLoop more context).corrupted = true) := by
  -- Octet by octet; the one that makes it `2 ^ 61` marks the context, and the loop ends.
  induction more generalizing context message with
  | nil => exact ⟨fun _ => by simpa [sha1InputLoop] using h, fun hn => by simp at hn; omega⟩
  | cons byte more ih =>
    obtain ⟨hread, hcorrupt⟩ := h.inputByte byte
    have hmessage : (message ++ [byte]).length = message.length + 1 := by
      rw [List.length_append, List.length_singleton]
    rw [sha1InputLoop, if_neg (by rw [h.corrupted]; exact Bool.false_ne_true), List.length_cons]
    rcases Nat.lt_or_ge (message.length + 1) (2 ^ 61) with hlt | hge
    · obtain ⟨hrest, hstop⟩ := ih (hread hlt) (by rwa [hmessage])
      rw [hmessage] at hrest hstop
      refine ⟨fun hn => ?_, fun hn => hstop (by omega)⟩
      have happend := hrest (by omega)
      rwa [List.append_assoc] at happend
    · have hbad := hcorrupt (by omega)
      refine ⟨fun hn => by omega, fun _ => ?_⟩
      cases more with
      | nil => exact hbad
      | cons byte' more =>
        rw [sha1InputLoop, if_pos hbad]
        exact hbad

/-- `SHA1Result` of a message. -/
theorem padMessage (h : context.Reading message) :
    (sha1PadMessage context).messageDigest = Fips.sha1 message := by
  have hlt := Nat.mod_lt message.length (show 0 < 64 by decide)
  rw [← BlockHash.length_rest 64 message] at hlt
  rw [h.holds.padMessage hlt, ← BlockHash.Reader.feed_start (by decide),
    ← BlockHash.Reader.feed_append, BlockHash.Reader.feed_start (by decide),
    sha1LengthOctets_eq h.length, BlockHash.length_rest, sha1Compress_eq, Fips.sha1,
    BlockHash.Padding.digest, BlockHash.Padding.apply, List.append_assoc]
  rfl

end SHA1Context.Reading


/-! ## Calls in any order -/

/-- What a context stands for, to its callers. -/
inductive SHA1State
  | reading (message : Bytes)
  | done (digest : Vector UInt32 5)
  | rejected

/-- More octets. A digest that has been given takes none. -/
def SHA1State.input (piece : Bytes) : SHA1State → SHA1State
  | .reading message =>
    if message.length + piece.length < 2 ^ 61 then .reading (message ++ piece) else .rejected
  | .done digest => if piece = [] then .done digest else .rejected
  | .rejected => .rejected

/-- The digest, and what the context stands for from then on. -/
def SHA1State.result : SHA1State → Option (Vector UInt32 5) × SHA1State
  | .reading message => (some (Fips.sha1 message), .done (Fips.sha1 message))
  | .done digest => (some digest, .done digest)
  | .rejected => (none, .rejected)

/-- The three functions of `web/sha1.h`. -/
inductive SHA1Call
  | reset
  | input (piece : Bytes)
  | result

namespace SHA1Call

/-- A call on a context. `SHA1Result` gives a digest when it returns 1. -/
def run : SHA1Call → SHA1Context → List (Option (Vector UInt32 5)) × SHA1Context
  | reset, context => ([], sha1Reset context)
  | input piece, context => ([], sha1Input piece context)
  | result, context =>
    let (success, context) := sha1Result context
    ([if success then some context.messageDigest else none], context)

/-- The same call on what the context stands for. -/
def spec : SHA1Call → SHA1State → List (Option (Vector UInt32 5)) × SHA1State
  | reset, _ => ([], .reading [])
  | input piece, s => ([], s.input piece)
  | result, s => ([s.result.1], s.result.2)

/-- Calls one after the other, with all results. -/
def runs {σ : Type} (call : SHA1Call → σ → List (Option (Vector UInt32 5)) × σ) :
    List SHA1Call → σ → List (Option (Vector UInt32 5)) × σ
  | [], s => ([], s)
  | c :: calls, s =>
    let (results, s) := call c s
    let (more, s) := runs call calls s
    (results ++ more, s)

end SHA1Call

/-- The context stands for this. -/
def SHA1Context.Stands (context : SHA1Context) : SHA1State → Prop
  | .reading message => message.length < 2 ^ 61 ∧ context.Reading message
  | .done digest =>
    context.computed = true ∧ context.corrupted = false ∧ context.messageDigest = digest
  | .rejected => context.corrupted = true

@[simp] theorem sha1Put_corrupted (context : SHA1Context) (byte : UInt8) :
    (sha1Put context byte).corrupted = context.corrupted := rfl

@[simp] theorem sha1ProcessMessageBlock_corrupted (context : SHA1Context) :
    (sha1ProcessMessageBlock context).corrupted = context.corrupted := rfl

@[simp] theorem sha1StoreLength_corrupted (context : SHA1Context) :
    (sha1StoreLength context).corrupted = context.corrupted := by
  rw [sha1StoreLength]

@[simp] theorem sha1FillZero_corrupted (bound : Nat) (context : SHA1Context) :
    (sha1FillZero bound context).corrupted = context.corrupted := by
  rw [sha1FillZero]
  generalize bound - context.messageBlockIndex = n
  induction n generalizing context with
  | zero => rfl
  | succ n ih => rw [List.replicate_succ, List.foldl_cons, ih, sha1Put_corrupted]

theorem sha1PadMessage_corrupted (context : SHA1Context) :
    (sha1PadMessage context).corrupted = context.corrupted := by
  rw [sha1PadMessage, sha1ProcessMessageBlock_corrupted, sha1StoreLength_corrupted, sha1PadBits]
  split <;> simp

namespace SHA1Context.Stands

variable {context : SHA1Context} {s : SHA1State}

/-- `SHA1Input` appends to the message that the context stands for. -/
theorem input (h : context.Stands s) (piece : Bytes) :
    (sha1Input piece context).Stands (s.input piece) := by
  by_cases hpiece : piece = []
  · subst hpiece
    rw [sha1Input, if_pos List.length_nil]
    cases s with
    | reading message =>
      rw [SHA1State.input, if_pos (by simpa using h.1), List.append_nil]
      exact h
    | done digest => exact h
    | rejected => exact h
  · rw [sha1Input, if_neg (fun hlen => hpiece (List.eq_nil_of_length_eq_zero hlen))]
    cases s with
    | reading message =>
      obtain ⟨hlt, hreading⟩ := h
      obtain ⟨hread, hstop⟩ := hreading.inputLoop hlt piece
      rw [hreading.computed, hreading.corrupted, if_neg (by decide), SHA1State.input]
      split
      · next hlen => exact ⟨by rwa [List.length_append], hread hlen⟩
      · next hlen => exact hstop (Nat.le_of_not_lt hlen)
    | done digest =>
      rw [h.1, SHA1State.input, if_neg hpiece]
      rfl
    | rejected =>
      have hcorrupted : context.corrupted = true := h
      rw [hcorrupted, Bool.or_true, if_pos rfl]
      rfl

/-- `SHA1Result` gives the digest of the message that the context stands for. -/
theorem result (h : context.Stands s) :
    (if (sha1Result context).1 then some (sha1Result context).2.messageDigest else none) =
        s.result.1 ∧
      (sha1Result context).2.Stands s.result.2 := by
  cases s with
  | reading message =>
    have hpad := h.2.padMessage
    have hcorrupted := (sha1PadMessage_corrupted context).trans h.2.corrupted
    rw [sha1Result, h.2.corrupted, h.2.computed, SHA1State.result]
    generalize sha1PadMessage context = padded at hpad hcorrupted
    generalize Fips.sha1 message = digest at hpad
    exact ⟨congrArg some hpad, rfl, hcorrupted, hpad⟩
  | done digest =>
    obtain ⟨hcomputed, hcorrupted, hdigest⟩ := h
    have hresult : sha1Result context = (true, context) := by
      rw [sha1Result, hcorrupted, hcomputed]
      rfl
    rw [hresult]
    exact ⟨congrArg some hdigest, hcomputed, hcorrupted, hdigest⟩
  | rejected =>
    have hcorrupted : context.corrupted = true := h
    have hresult : sha1Result context = (false, context) := by
      rw [sha1Result, hcorrupted]
      rfl
    rw [hresult]
    exact ⟨rfl, hcorrupted⟩

/-- Any call keeps the relation, and gives the specified results. -/
theorem call (h : context.Stands s) (c : SHA1Call) :
    (c.run context).1 = (c.spec s).1 ∧ (c.run context).2.Stands (c.spec s).2 := by
  cases c with
  | reset => exact ⟨rfl, by decide, sha1Reset_reading context⟩
  | input piece => exact ⟨rfl, h.input piece⟩
  | result =>
    obtain ⟨hdigest, hstands⟩ := h.result
    exact ⟨congrArg (fun digest => [digest]) hdigest, hstands⟩

theorem calls (h : context.Stands s) (cs : List SHA1Call) :
    (SHA1Call.runs SHA1Call.run cs context).1 = (SHA1Call.runs SHA1Call.spec cs s).1 ∧
      (SHA1Call.runs SHA1Call.run cs context).2.Stands
        (SHA1Call.runs SHA1Call.spec cs s).2 := by
  induction cs generalizing context s with
  | nil => exact ⟨rfl, h⟩
  | cons c cs ih =>
    obtain ⟨hresults, hstands⟩ := h.call c
    obtain ⟨hmore, hstands'⟩ := ih hstands
    exact ⟨congrArg₂ _ hresults hmore, hstands'⟩

end SHA1Context.Stands

/-- After `SHA1Reset` and any calls in any order, the context stands for what the calls amount
to, and every result on the way was the digest of all octets since the last reset, or a
rejection. -/
theorem sha1_refines (context : SHA1Context) (calls : List SHA1Call) :
    (SHA1Call.runs SHA1Call.run calls (sha1Reset context)).1 =
        (SHA1Call.runs SHA1Call.spec calls (.reading [])).1 ∧
      (SHA1Call.runs SHA1Call.run calls (sha1Reset context)).2.Stands
        (SHA1Call.runs SHA1Call.spec calls (.reading [])).2 := by
  have hstart : (sha1Reset context).Stands (.reading []) := ⟨by decide, sha1Reset_reading context⟩
  exact hstart.calls calls

example : (SHA1Call.runs SHA1Call.run [.input [97], .input [98, 99], .result]
    (sha1Reset ⟨sha1Initial, 0, 0, Vector.replicate 64 0, 0, true, true⟩)).1 =
      [some #v[0xA9993E36, 0x4706816A, 0xBA3E2571, 0x7850C26C, 0x9CD0D89D]] := by
  decide +kernel


/-! ## Digests and their messages -/

/-- The digest of a message that comes in pieces. -/
def sha1Digest (context : SHA1Context) (pieces : List Bytes) : Option (Vector UInt32 5) :=
  let (success, context) :=
    sha1Result (pieces.foldl (fun context piece => sha1Input piece context) (sha1Reset context))
  if success then some context.messageDigest else none

theorem SHA1Context.Stands.pieces {context : SHA1Context} {s : SHA1State} (h : context.Stands s)
    (pieces : List Bytes) :
    (pieces.foldl (fun context piece => sha1Input piece context) context).Stands
      (pieces.foldl (fun s piece => s.input piece) s) := by
  induction pieces generalizing context s with
  | nil => exact h
  | cons piece pieces ih => exact ih (h.input piece)

theorem foldl_rejected (pieces : List Bytes) :
    pieces.foldl (fun s piece => SHA1State.input piece s) .rejected = .rejected := by
  induction pieces with
  | nil => rfl
  | cons piece pieces ih => exact ih

/-- Pieces add up. -/
theorem foldl_reading {message : Bytes} (hlen : message.length < 2 ^ 61) (pieces : List Bytes) :
    pieces.foldl (fun s piece => SHA1State.input piece s) (.reading message) =
      if message.length + pieces.flatten.length < 2 ^ 61 then .reading (message ++ pieces.flatten)
      else .rejected := by
  induction pieces generalizing message with
  | nil => rw [List.foldl_nil, List.flatten_nil, List.length_nil, Nat.add_zero, if_pos hlen,
      List.append_nil]
  | cons piece pieces ih =>
    rw [List.foldl_cons, SHA1State.input, List.flatten_cons, List.length_append]
    by_cases hpiece : message.length + piece.length < 2 ^ 61
    · rw [if_pos hpiece, ih (by rwa [List.length_append]), List.length_append, Nat.add_assoc,
        List.append_assoc]
    · rw [if_neg hpiece, foldl_rejected, if_neg (by omega)]

/-- The digest only depends on the octets, and there is one for fewer than `2 ^ 61` octets. -/
theorem sha1Digest_eq (context : SHA1Context) (pieces : List Bytes) :
    sha1Digest context pieces =
      if pieces.flatten.length < 2 ^ 61 then some (Fips.sha1 pieces.flatten) else none := by
  have hstart : (sha1Reset context).Stands (.reading []) := ⟨by decide, sha1Reset_reading context⟩
  have hresult := (hstart.pieces pieces).result.1
  have hlen : ([] : Bytes).length + pieces.flatten.length = pieces.flatten.length :=
    Nat.zero_add _
  rw [foldl_reading (by decide), hlen, List.nil_append] at hresult
  rw [sha1Digest]
  refine hresult.trans ?_
  split <;> rfl

/-- The blocks that are hashed for a message, with the digests they are hashed into. -/
def sha1Arguments (message : Bytes) : List (Vector UInt32 5 × Bytes) :=
  BlockHash.arguments sha1Compress sha1Initial
    (BlockHash.blocks 64 (Fips.padding.apply message))

namespace SHA1Context.Reading

variable {context : SHA1Context} {message : Bytes}

/-- An octet that completes a block is followed by a call. -/
theorem inputByteCalls (h : context.Reading message) (byte : UInt8) :
    let counted := sha1CountByte (sha1Put context byte)
    BlockHash.inputArguments 64 sha1Compress sha1Initial (message ++ [byte]) =
      BlockHash.inputArguments 64 sha1Compress sha1Initial message ++
        if counted.messageBlockIndex = 64 then [counted.argument] else [] := by
  intro counted
  have hlt := Nat.mod_lt message.length (show 0 < 64 by decide)
  rw [← BlockHash.length_rest 64 message] at hlt
  have hcounted := (h.holds.put hlt byte).countByte
  have hlen : (BlockHash.rest 64 message ++ [byte]).length =
      (BlockHash.rest 64 message).length + 1 := by
    rw [List.length_append, List.length_singleton]
  rw [show counted.messageBlockIndex = _ from hcounted.index, hlen]
  split
  · next hfull =>
    rw [show counted.argument = _ from hcounted.argument (hlen.trans hfull)]
    exact BlockHash.inputArguments_append_full (List.cons_ne_nil _ _) hfull
  · next hpartial =>
    rw [List.append_nil, BlockHash.inputArguments, BlockHash.inputArguments,
      (BlockHash.blocks_concat_short (by omega)).1]

/-- The calls for the octets that are read. -/
theorem inputCalls (h : context.Reading message) {more : Bytes}
    (hlen : message.length + more.length < 2 ^ 61) :
    BlockHash.inputArguments 64 sha1Compress sha1Initial (message ++ more) =
      BlockHash.inputArguments 64 sha1Compress sha1Initial message ++
        sha1InputCalls more context := by
  induction more generalizing context message with
  | nil => rw [sha1InputCalls, List.append_nil, List.append_nil]
  | cons byte more ih =>
    rw [List.length_cons] at hlen
    have hmessage : (message ++ [byte]).length = message.length + 1 := by
      rw [List.length_append, List.length_singleton]
    have hread := (h.inputByte byte).1 (by omega)
    have hrest := ih hread (by omega)
    rw [List.append_assoc, h.inputByteCalls byte] at hrest
    rw [sha1InputCalls, if_neg (by rw [h.corrupted]; exact Bool.false_ne_true)]
    exact hrest.trans (List.append_assoc _ _ _)

/-- The calls for the padding. -/
theorem padCalls (h : context.Reading message) :
    sha1Arguments message = BlockHash.inputArguments 64 sha1Compress sha1Initial message ++
      sha1PadCalls context := by
  have hlt := Nat.mod_lt message.length (show 0 < 64 by decide)
  rw [← BlockHash.length_rest 64 message] at hlt
  have hoctets : (sha1LengthOctets context.lengthHigh context.lengthLow).length = 8 := rfl
  have hpadded : Fips.padding.apply message = message ++
      (0x80 :: List.replicate ((119 - (BlockHash.rest 64 message).length) % 64) 0) ++
        sha1LengthOctets context.lengthHigh context.lengthLow := by
    rw [sha1LengthOctets_eq h.length, BlockHash.length_rest]
    rfl
  show BlockHash.inputArguments 64 sha1Compress sha1Initial (Fips.padding.apply message) = _
  rw [hpadded]
  generalize hr : (BlockHash.rest 64 message).length = r at hlt ⊢
  generalize hlength : sha1LengthOctets context.lengthHigh context.lengthLow = octets at *
  rcases Nat.lt_or_ge 55 r with hgt | hle
  · have hzeros : (119 - r) % 64 = (63 - r) + 56 := by omega
    have hsplit : message ++ (0x80 :: List.replicate ((119 - r) % 64) 0) ++ octets =
        (message ++ 0x80 :: List.replicate (63 - r) 0) ++ (List.replicate 56 0 ++ octets) := by
      rw [hzeros, List.replicate_add, ← List.cons_append, List.append_assoc, List.append_assoc,
        List.append_assoc]
    have hfirst : (BlockHash.rest 64 message).length +
        (0x80 :: List.replicate (63 - r) (0 : UInt8)).length = 64 := by
      rw [List.length_cons, List.length_replicate]
      omega
    have hsecond : (BlockHash.rest 64 (message ++ 0x80 :: List.replicate (63 - r) 0)).length +
        (List.replicate 56 (0 : UInt8) ++ octets).length = 64 := by
      rw [(BlockHash.blocks_append_full (List.cons_ne_nil _ _) hfirst).2, List.length_append,
        List.length_replicate, hoctets]
      rfl
    rw [hsplit, BlockHash.inputArguments_append_full (by simp) hsecond,
      BlockHash.inputArguments_append_full (List.cons_ne_nil _ _) hfirst,
      BlockHash.chain_append_full (List.cons_ne_nil _ _) hfirst,
      (BlockHash.blocks_append_full (List.cons_ne_nil _ _) hfirst).2,
      h.holds.padCalls_of_gt (hr ▸ hgt) (hr ▸ hlt), hlength, hr, List.append_assoc,
      List.append_assoc]
    rfl
  · have hzeros : (119 - r) % 64 = 55 - r := by omega
    have honly : (BlockHash.rest 64 message).length +
        (0x80 :: List.replicate (55 - r) 0 ++ octets).length = 64 := by
      rw [List.length_append, List.length_cons, List.length_replicate, hoctets]
      omega
    rw [hzeros, List.append_assoc, BlockHash.inputArguments_append_full (by simp) honly,
      h.holds.padCalls_of_le (hr ▸ hle), hlength, hr, List.append_assoc, List.append_assoc]
    rfl

/-- The calls for further pieces and the padding. -/
theorem calls (h : context.Reading message) {pieces : List Bytes}
    (hlen : message.length + pieces.flatten.length < 2 ^ 61) :
    sha1Arguments (message ++ pieces.flatten) =
      BlockHash.inputArguments 64 sha1Compress sha1Initial message ++
        sha1Calls pieces context := by
  induction pieces generalizing context message with
  | nil =>
    rw [List.flatten_nil, List.append_nil, sha1Calls, h.corrupted, h.computed]
    exact h.padCalls
  | cons piece pieces ih =>
    rw [List.flatten_cons, List.length_append] at hlen
    have hstands : context.Stands (.reading message) := ⟨by omega, h⟩
    have hinput := hstands.input piece
    rw [SHA1State.input, if_pos (by omega)] at hinput
    have hrest := ih hinput.2 (by rw [List.length_append]; omega)
    rw [List.flatten_cons, ← List.append_assoc, hrest, h.inputCalls (by omega), sha1Calls,
      h.computed, h.corrupted, List.append_assoc]
    rfl

end SHA1Context.Reading

/-- These are the arguments of the calls of `SHA1ProcessMessageBlock`, however the message is
cut into pieces. -/
theorem sha1Calls_eq (context : SHA1Context) {pieces : List Bytes}
    (hlen : pieces.flatten.length < 2 ^ 61) :
    sha1Calls pieces (sha1Reset context) = sha1Arguments pieces.flatten := by
  have hcalls : sha1Arguments ([] ++ pieces.flatten) = _ :=
    (sha1Reset_reading context).calls (by rwa [List.length_nil, Nat.zero_add])
  have hnil : BlockHash.inputArguments 64 sha1Compress sha1Initial [] = [] := by
    rw [BlockHash.inputArguments, BlockHash.blocks_nil, BlockHash.arguments]
  rw [hnil] at hcalls
  exact hcalls.symm

/-- The code of a length keeps lengths apart that can be counted. -/
theorem code_inj {n n' : Nat} (hn : n < 2 ^ 61) (hn' : n' < 2 ^ 61)
    (h : Fips.padding.code n = Fips.padding.code n') : n = n' := by
  have hbytes : leBytes 8 (8 * n) = leBytes 8 (8 * n') := List.reverse_injective h
  have hmul := leBytes_inj (by omega) (by omega) hbytes
  omega

theorem collides_of_sha1_eq {message message' : Bytes} (hlen : message.length < 2 ^ 61)
    (hlen' : message'.length < 2 ^ 61) (hne : message ≠ message')
    (h : Fips.sha1 message = Fips.sha1 message') :
    BlockHash.Collides sha1Compress (sha1Arguments message) (sha1Arguments message') := by
  rw [Fips.sha1, Fips.sha1, ← sha1Compress_eq] at h
  exact BlockHash.Padding.collides (code_inj hlen hlen') hne h

/-- Two messages with the same digest are equal, or `SHA1ProcessMessageBlock` collides on two
blocks that it has processed for them. -/
theorem sha1_collides (context context' : SHA1Context) (pieces pieces' : List Bytes) :
    sha1Digest context pieces = none ∨
      sha1Digest context pieces ≠ sha1Digest context' pieces' ∨
      pieces.flatten = pieces'.flatten ∨
      BlockHash.Collides sha1Compress (sha1Arguments pieces.flatten)
        (sha1Arguments pieces'.flatten) := by
  rw [sha1Digest_eq, sha1Digest_eq]
  by_cases hlen : pieces.flatten.length < 2 ^ 61
  · by_cases hlen' : pieces'.flatten.length < 2 ^ 61
    · by_cases heq : Fips.sha1 pieces.flatten = Fips.sha1 pieces'.flatten
      · by_cases hne : pieces.flatten = pieces'.flatten
        · exact Or.inr (Or.inr (Or.inl hne))
        · exact Or.inr (Or.inr (Or.inr (collides_of_sha1_eq hlen hlen' hne heq)))
      · refine Or.inr (Or.inl ?_)
        rw [if_pos hlen, if_pos hlen']
        exact fun h => heq (Option.some.inj h)
    · refine Or.inr (Or.inl ?_)
      rw [if_pos hlen, if_neg hlen']
      exact Option.some_ne_none _
  · exact Or.inl (if_neg hlen)

/-! ## The rounds lose nothing -/

theorem rotl_bijective {n : Nat} (hn : n < 32) : Function.Bijective (Fips.rotl n) := by
  have hbits : ∀ (x : UInt32) (i : Nat), i < 32 →
      (Fips.rotl n x).toBitVec.getLsbD ((i + n) % 32) = x.toBitVec.getLsbD i := by
    intro x i hi
    show (x.toBitVec.rotateLeft n).getLsbD _ = _
    rw [BitVec.getLsbD_rotateLeft_of_le hn]
    rcases Nat.lt_or_ge (i + n) 32 with hlt | hge
    · simp [Nat.mod_eq_of_lt hlt, hlt]
    · have hmod : (i + n) % 32 = i + n - 32 := by omega
      have hwrap : i + n - 32 < n := by omega
      have hback : 32 - n + (i + n - 32) = i := by omega
      simp [hmod, hwrap, hback]
  have hinj : Function.Injective (Fips.rotl n) := by
    intro x y h
    apply UInt32.toBitVec_inj.mp
    apply BitVec.eq_of_getLsbD_eq
    intro i hi
    rw [← hbits x i hi, ← hbits y i hi, h]
  exact hinj.bijective_of_finite

/-- A round can be undone, whatever its function of `B`, `C` and `D` is. -/
theorem sha1Round_bijective (f : UInt32 → UInt32 → UInt32 → UInt32) (k w : UInt32) :
    Function.Bijective fun s => sha1Round f k s w := by
  have hrotate : ∀ b, sha1CircularShift 30 b = Fips.rotl 30 b :=
    sha1CircularShift_eq (by decide) (by decide)
  have hbijective := rotl_bijective (n := 30) (by decide)
  constructor
  · intro s t h
    obtain ⟨htemp, ha, hb, hc, hd⟩ := SHA1Words.mk.inj h
    rw [hrotate, hrotate] at hb
    have hb := hbijective.injective hb
    rw [toNat_and_max, toNat_and_max, ha, hb, hc, hd] at htemp
    have he : s.e = t.e :=
      add_left_cancel (add_right_cancel (add_right_cancel htemp))
    exact SHA1Words.ext ha hb hc hd he
  · intro t
    obtain ⟨b, hb⟩ := hbijective.surjective t.c
    refine ⟨⟨t.b, b, t.d, t.e,
      t.a - (sha1CircularShift 5 t.b + f b t.d t.e) - w - k⟩, ?_⟩
    refine SHA1Words.ext ?_ rfl ((hrotate b).trans hb) rfl rfl
    show (sha1CircularShift 5 t.b + f b t.d t.e + _ + w + k) &&& 0xFFFFFFFF = t.a
    rw [toNat_and_max]
    grind

/-- The 80 rounds over any block are a permutation of the word buffers. -/
theorem sha1Rounds_bijective (block : Bytes) : Function.Bijective (sha1Rounds block) := by
  unfold sha1Rounds
  generalize sha1WordSequence block = w
  have hfirst := Loop.foldl_bijective (f := sha1Round0) (sha1Round_bijective _ _) (w.take 20)
  have hsecond := Loop.foldl_bijective (f := sha1Round20) (sha1Round_bijective _ _)
    ((w.drop 20).take 20)
  have hthird := Loop.foldl_bijective (f := sha1Round40) (sha1Round_bijective _ _)
    ((w.drop 40).take 20)
  have hfourth := Loop.foldl_bijective (f := sha1Round60) (sha1Round_bijective _ _)
    ((w.drop 60).take 20)
  exact hfourth.comp (hthird.comp (hsecond.comp hfirst))

end LMiced
