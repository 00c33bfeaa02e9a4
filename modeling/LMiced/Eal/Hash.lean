import LMiced.Lib.Loop

/-!
# FNV-1a hashing

The hash functions of `eal/lmice_eal_hash.c`. The names of all shared memories
and events are computed by them, so every process has to get the same values. The
prime of FNV-1a is multiplied in one of two ways, chosen when the sources are
compiled: by a multiplication (`_DEBUG`), or by shifts and additions.

* `hashes_agree`: the two builds compute the same hashes, and a string can be hashed
  piece by piece;
* `ealHash64MoreFnv1a_bijective`: hashing more bytes keeps different values apart.
-/

namespace LMiced

/-! ## Bytes in memory -/

/-- The contents of a string. -/
abbrev Bytes := List UInt8

/-- The bytes of a literal. -/
def bytesOf (s : String) : Bytes := s.toList.map fun c => UInt8.ofNat c.toNat

/-- The lowest `n` bytes of a word, the least significant first. -/
def leBytes : Nat → Nat → List UInt8
  | 0, _ => []
  | n + 1, x => UInt8.ofNat x :: leBytes n (x / 256)

theorem length_leBytes (n x : Nat) : (leBytes n x).length = n := by
  induction n generalizing x with
  | zero => rfl
  | succ n ih => simp [leBytes, ih]

/-- The bytes determine the word. -/
theorem leBytes_inj {n x y : Nat} (hx : x < 256 ^ n) (hy : y < 256 ^ n)
    (h : leBytes n x = leBytes n y) : x = y := by
  induction n generalizing x y with
  | zero =>
    simp only [pow_zero, Nat.lt_one_iff] at hx hy
    rw [hx, hy]
  | succ n ih =>
    obtain ⟨hhead, htail⟩ := List.cons.inj h
    have hlow : x % 256 = y % 256 := by
      simpa using congrArg UInt8.toNat hhead
    have hhigh : x / 256 = y / 256 := by
      rw [pow_succ] at hx hy
      exact ih (by omega) (by omega) htail
    omega

/-- The bytes of a 64-bit word in memory. -/
def bytes64 (x : UInt64) : List UInt8 := leBytes 8 x.toNat

/-- The bytes of a 32-bit signed word in memory. -/
def bytes32 (x : Int32) : List UInt8 := leBytes 4 x.toUInt32.toNat

theorem bytes64_injective : Function.Injective bytes64 := by
  intro x y h
  exact UInt64.toNat.inj (leBytes_inj x.toNat_lt y.toNat_lt h)

/-! ## The hash functions -/

/-- How the sources are compiled: with or without `_DEBUG`. -/
inductive Build
  | debug
  | release
deriving DecidableEq, Repr

/-- The multiplication by the 64-bit FNV prime. -/
def mulPrime64 : Build → UInt64 → UInt64
  | .debug, hval => hval * 1099511628211
  | .release, hval =>
    hval + ((hval <<< 1) + (hval <<< 4) + (hval <<< 5) + (hval <<< 7) + (hval <<< 8) +
      (hval <<< 40))

/-- The multiplication by the 32-bit FNV prime. -/
def mulPrime32 : Build → UInt32 → UInt32
  | .debug, hval => hval * 16777619
  | .release, hval =>
    hval + ((hval <<< 1) + (hval <<< 4) + (hval <<< 7) + (hval <<< 8) + (hval <<< 24))

/-- One turn of the loop of the 64-bit hash functions. -/
def fnvStep64 (build : Build) (hval : UInt64) (byte : UInt8) : UInt64 :=
  mulPrime64 build (hval ^^^ byte.toUInt64)

/-- One turn of the loop of `eal_hash32_fnv1a`. -/
def fnvStep32 (build : Build) (hval : UInt32) (byte : UInt8) : UInt32 :=
  mulPrime32 build (hval ^^^ byte.toUInt32)

/-- `eal_hash64_fnv1a`. -/
def ealHash64Fnv1a (build : Build) (data : List UInt8) : UInt64 :=
  data.foldl (fnvStep64 build) 14695981039346656037

/-- `eal_hash32_fnv1a`. -/
def ealHash32Fnv1a (build : Build) (data : List UInt8) : UInt32 :=
  data.foldl (fnvStep32 build) 2166136261

/-- `eal_hash64_more_fnv1a`. -/
def ealHash64MoreFnv1a (build : Build) (data : List UInt8) (oldval : UInt64) : UInt64 :=
  data.foldl (fnvStep64 build) oldval

/-! ## The two builds -/

theorem mulPrime64_eq (build : Build) (hval : UInt64) :
    mulPrime64 build hval = hval * 1099511628211 := by
  cases build with
  | debug => rfl
  | release =>
    apply UInt64.toNat.inj
    simp only [mulPrime64, UInt64.toNat_add, UInt64.toNat_mul, UInt64.toNat_shiftLeft,
      UInt64.reduceToNat, Nat.shiftLeft_eq, Nat.reduceMod, Nat.reducePow]
    omega

theorem mulPrime32_eq (build : Build) (hval : UInt32) :
    mulPrime32 build hval = hval * 16777619 := by
  cases build with
  | debug => rfl
  | release =>
    apply UInt32.toNat.inj
    simp only [mulPrime32, UInt32.toNat_add, UInt32.toNat_mul, UInt32.toNat_shiftLeft,
      UInt32.reduceToNat, Nat.shiftLeft_eq, Nat.reduceMod, Nat.reducePow]
    omega

theorem fnvStep64_build (build build' : Build) : fnvStep64 build = fnvStep64 build' := by
  funext hval byte
  rw [fnvStep64, fnvStep64, mulPrime64_eq, mulPrime64_eq]

theorem fnvStep32_build (build build' : Build) : fnvStep32 build = fnvStep32 build' := by
  funext hval byte
  rw [fnvStep32, fnvStep32, mulPrime32_eq, mulPrime32_eq]

theorem ealHash64Fnv1a_append (build : Build) (a b : List UInt8) :
    ealHash64Fnv1a build (a ++ b) = ealHash64MoreFnv1a build b (ealHash64Fnv1a build a) :=
  List.foldl_append

/-- The two builds compute the same hashes, those of the multiplication by the FNV
primes, and the hash of a string is that of its second part continued from the
hash of its first part. -/
theorem hashes_agree :
    (∀ hval, mulPrime64 .release hval = hval * 1099511628211) ∧
    (∀ hval, mulPrime32 .release hval = hval * 16777619) ∧
    (∀ data, ealHash64Fnv1a .debug data = ealHash64Fnv1a .release data) ∧
    (∀ data oldval,
      ealHash64MoreFnv1a .debug data oldval = ealHash64MoreFnv1a .release data oldval) ∧
    (∀ data, ealHash32Fnv1a .debug data = ealHash32Fnv1a .release data) ∧
    ∀ build a b,
      ealHash64Fnv1a build (a ++ b) = ealHash64MoreFnv1a build b (ealHash64Fnv1a build a) := by
  refine ⟨mulPrime64_eq .release, mulPrime32_eq .release, fun data => ?_, fun data oldval => ?_,
    fun data => ?_, ealHash64Fnv1a_append⟩
  · rw [ealHash64Fnv1a, ealHash64Fnv1a, fnvStep64_build .debug .release]
  · rw [ealHash64MoreFnv1a, ealHash64MoreFnv1a, fnvStep64_build .debug .release]
  · rw [ealHash32Fnv1a, ealHash32Fnv1a, fnvStep32_build .debug .release]

-- The values that the test of the repository expects.
example : ealHash32Fnv1a .release [104, 101, 108, 108, 111] = 1335831723 := by decide

example : ealHash64Fnv1a .release [104, 101, 108, 108, 111] = 11831194018420276491 := by decide

/-! ## Different values stay apart -/

/-- The FNV prime is odd, so it can be divided by. -/
theorem mulPrime64_bijective (build : Build) : Function.Bijective (mulPrime64 build) := by
  refine Function.bijective_iff_has_inverse.mpr
    ⟨fun hval => hval * 14886173955864302971, fun hval => ?_, fun hval => ?_⟩
  · show mulPrime64 build hval * 14886173955864302971 = hval
    rw [mulPrime64_eq, UInt64.mul_assoc]
    simp
  · rw [mulPrime64_eq, UInt64.mul_assoc]
    simp

theorem fnvStep64_bijective (build : Build) (byte : UInt8) :
    Function.Bijective fun hval => fnvStep64 build hval byte := by
  have hxor : Function.Involutive fun hval : UInt64 => hval ^^^ byte.toUInt64 := fun hval => by
    show (hval ^^^ byte.toUInt64) ^^^ byte.toUInt64 = hval
    rw [UInt64.xor_assoc, UInt64.xor_self, UInt64.xor_zero]
  exact (mulPrime64_bijective build).comp hxor.bijective

theorem ealHash64MoreFnv1a_bijective (build : Build) (data : List UInt8) :
    Function.Bijective (ealHash64MoreFnv1a build data) :=
  Loop.foldl_bijective (fnvStep64_bijective build) data

end LMiced
