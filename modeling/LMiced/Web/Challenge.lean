import LMiced.Web.Sha1
import LMiced.Web.User

/-!
# Challenges and answers

The functions of `web/user.cpp` that hash, with the contexts of `web/sha1.c` in place of a
SHA-1 function. The size of a string is cast to `unsigned` where it is given to `SHA1Input`.

* `makeChallengeIn_eq`: a challenge is always made, and it is the digest of its pieces;
* `answer_identifies`: an answer that is accepted for two challenges of one length belongs to
  one challenge and one password, unless the block function collides on the blocks hashed for
  them.
-/

namespace LMiced

/-- `SHA1Input` with the size of a string. -/
def sha1Size (s : Bytes) : Bytes := s.take (s.length % 2 ^ 32)

/-- `%08x%08x%08x%08x%08x` of `Message_Digest`. -/
def digestString (digest : Vector UInt32 5) : Bytes := digest.toList.flatMap hex8

/-- `lmtoken::make_challenge` with the context `ctx`. `none` is the exception. -/
def LmToken.makeChallengeIn (ctx : SHA1Context) (tv : UInt64) (token : LmToken) :
    Option LmToken :=
  let ctx := sha1Input salt (sha1Reset ctx)
  let ctx := sha1Input (sha1Size token.localIp) ctx
  let ctx := sha1Input (sha1Size token.remoteIp) ctx
  let ctx := sha1Input (bytes64 tv) ctx
  let (success, ctx) := sha1Result (sha1Input salt ctx)
  if success then some { token with challenge := digestString ctx.messageDigest } else none

/-- `user_compare_password` with the context `ctx`, whose result is not looked at. -/
def userComparePasswordIn (ctx : SHA1Context) (id : Int32) (challenge password : CharPtr)
    (users : UserSet) : Option Int :=
  match users.find? fun user => user.id = id with
  | none => some (-1)
  | some user => do
    let challenge ← challenge
    let password ← password
    let ctx := sha1Input (sha1Size challenge) (sha1Reset ctx)
    let (_, ctx) := sha1Result (sha1Input (sha1Size user.password) ctx)
    some (strncmp 40 password (digestString ctx.messageDigest))

/-! ## The SHA-1 function -/

/-- The words of the digest. -/
def sha1 : Sha1 := fun input i => (Fips.sha1 input)[i]

theorem hexDigest_sha1 (input : Bytes) : hexDigest sha1 input = digestString (Fips.sha1 input) := by
  rw [hexDigest, digestString]
  congr 1
  show List.ofFn (fun i : Fin 5 => (Fips.sha1 input)[i]) = _
  rw [← Vector.toList_ofFn]
  exact congrArg Vector.toList (Vector.ofFn_getElem : Vector.ofFn _ = Fips.sha1 input)

theorem length_sha1Size_lt (s : Bytes) : (sha1Size s).length < 2 ^ 32 := by
  rw [sha1Size, List.length_take]
  omega

theorem sha1Size_of_lt {s : Bytes} (h : s.length < 2 ^ 32) : sha1Size s = s := by
  rw [sha1Size, Nat.mod_eq_of_lt h, List.take_length]

/-- The result for fewer than `2 ^ 61` octets in pieces. -/
theorem sha1Result_of_lt (ctx : SHA1Context) {pieces : List Bytes}
    (h : pieces.flatten.length < 2 ^ 61) :
    (sha1Result (pieces.foldl (fun ctx piece => sha1Input piece ctx) (sha1Reset ctx))).1 = true ∧
      (sha1Result (pieces.foldl (fun ctx piece => sha1Input piece ctx)
        (sha1Reset ctx))).2.messageDigest = Fips.sha1 pieces.flatten := by
  have hdigest := sha1Digest_eq ctx pieces
  rw [if_pos h, sha1Digest] at hdigest
  generalize sha1Result (pieces.foldl (fun ctx piece => sha1Input piece ctx) (sha1Reset ctx)) =
    result at hdigest ⊢
  obtain ⟨success, ctx⟩ := result
  cases success with
  | true => exact ⟨rfl, Option.some.inj hdigest⟩
  | false => exact absurd hdigest (Option.some_ne_none _).symm

/-- `make_challenge` never throws. -/
theorem makeChallengeIn_eq (ctx : SHA1Context) (tv : UInt64) (token : LmToken) :
    token.makeChallengeIn ctx tv =
      some { token with
        challenge := hexDigest sha1 (salt ++ sha1Size token.localIp ++
          sha1Size token.remoteIp ++ bytes64 tv ++ salt) } := by
  have hlocal := length_sha1Size_lt token.localIp
  have hremote := length_sha1Size_lt token.remoteIp
  have hflatten : [salt, sha1Size token.localIp, sha1Size token.remoteIp, bytes64 tv,
      salt].flatten = salt ++ sha1Size token.localIp ++ sha1Size token.remoteIp ++
        bytes64 tv ++ salt := by
    simp
  have hlen : (salt ++ sha1Size token.localIp ++ sha1Size token.remoteIp ++ bytes64 tv ++
      salt).length < 2 ^ 61 := by
    have hsalt : salt.length = 17 := by decide
    have htime : (bytes64 tv).length = 8 := length_leBytes 8 _
    simp only [List.length_append, hsalt, htime]
    omega
  obtain ⟨hsuccess, hdigest⟩ := sha1Result_of_lt ctx (hflatten ▸ hlen)
  rw [hflatten] at hdigest
  rw [hexDigest_sha1, ← hdigest]
  exact if_pos hsuccess

/-- `user_compare_password` compares with the digest of the challenge and the password. -/
theorem userComparePasswordIn_eq (ctx : SHA1Context) {id : Int32} {challenge password : Bytes}
    {users : UserSet} {user : LmUser} (hfind : users.find? (fun user => user.id = id) = some user) :
    userComparePasswordIn ctx id (some challenge) (some password) users =
      some (strncmp 40 password
        (hexDigest sha1 (sha1Size challenge ++ sha1Size user.password))) := by
  have hchallenge := length_sha1Size_lt challenge
  have hpassword := length_sha1Size_lt user.password
  have hflatten : [sha1Size challenge, sha1Size user.password].flatten =
      sha1Size challenge ++ sha1Size user.password := by
    simp
  have hlen : (sha1Size challenge ++ sha1Size user.password).length < 2 ^ 61 := by
    rw [List.length_append]
    omega
  have hdigest := (sha1Result_of_lt ctx (hflatten ▸ hlen)).2
  rw [hflatten] at hdigest
  rw [userComparePasswordIn, hfind, hexDigest_sha1, ← hdigest]
  rfl

/-! ## Hexadecimal digits -/

theorem hexDigit_inj {m n : Nat} (hm : m < 16) (hn : n < 16) (h : hexDigit m = hexDigit n) :
    m = n := by
  have hall : ∀ m n : Fin 16, hexDigit m = hexDigit n → m = n := by decide
  exact congrArg Fin.val (hall ⟨m, hm⟩ ⟨n, hn⟩ h)

/-- The digits in base 16 determine a number. -/
theorem eq_of_hexDigits {n x y : Nat} (hx : x < 16 ^ n) (hy : y < 16 ^ n)
    (h : ∀ i < n, x / 16 ^ i % 16 = y / 16 ^ i % 16) : x = y := by
  induction n generalizing x y with
  | zero =>
    rw [pow_zero] at hx hy
    omega
  | succ n ih =>
    have hlow := h 0 (Nat.succ_pos n)
    rw [pow_succ] at hx hy
    have hhigh : x / 16 = y / 16 := by
      refine ih (by omega) (by omega) fun i hi => ?_
      have hdigit := h (i + 1) (by omega)
      rwa [pow_succ', ← Nat.div_div_eq_div_mul, ← Nat.div_div_eq_div_mul] at hdigit
    rw [pow_zero, Nat.div_one, Nat.div_one] at hlow
    omega

theorem hex8_injective : Function.Injective hex8 := by
  intro x y h
  have hdigits : ∀ i < 8, x.toNat / 16 ^ i % 16 = y.toNat / 16 ^ i % 16 := by
    intro i hi
    have hget := List.map_inj_left.mp h (7 - i) (List.mem_range.mpr (by omega))
    have hdigit := hexDigit_inj (Nat.mod_lt _ (by decide)) (Nat.mod_lt _ (by decide)) hget
    rwa [show 7 - (7 - i) = i by omega] at hdigit
  exact UInt32.toNat.inj (eq_of_hexDigits x.toNat_lt y.toNat_lt hdigits)

theorem length_hex8 (word : UInt32) : (hex8 word).length = 8 := by
  rw [hex8, List.length_map, List.length_range]

theorem flatMap_hex8_inj {xs ys : List UInt32} (hlen : xs.length = ys.length)
    (h : xs.flatMap hex8 = ys.flatMap hex8) : xs = ys := by
  induction xs generalizing ys with
  | nil => exact (List.eq_nil_of_length_eq_zero hlen.symm).symm
  | cons x xs ih =>
    obtain ⟨y, ys, rfl⟩ := List.exists_cons_of_length_eq_add_one hlen.symm
    rw [List.flatMap_cons, List.flatMap_cons] at h
    obtain ⟨hhead, htail⟩ := List.append_inj h (by rw [length_hex8, length_hex8])
    rw [hex8_injective hhead, ih (Nat.succ.inj hlen) htail]

theorem digestString_injective : Function.Injective digestString := by
  intro digest digest' h
  have hlen : digest.toList.length = digest'.toList.length := by
    rw [Vector.length_toList, Vector.length_toList]
  exact Vector.toList_inj.mp (flatMap_hex8_inj hlen h)

/-! ## Answers -/

/-- One answer that is accepted for two challenges of the same length: the challenges are the
same and so are the passwords, or `SHA1ProcessMessageBlock` collides on two of the blocks that
were hashed. -/
theorem answer_identifies (ctx ctx' : SHA1Context) {users users' : UserSet} {id id' : Int32}
    {challenge challenge' answer : Bytes} {user user' : LmUser}
    (hfind : users.find? (fun user => user.id = id) = some user)
    (hfind' : users'.find? (fun user => user.id = id') = some user')
    (hsize : challenge.length < 2 ^ 32) (hlen : challenge.length = challenge'.length)
    (hpassword : user.password.length < 2 ^ 32) (hpassword' : user'.password.length < 2 ^ 32)
    (h : userComparePasswordIn ctx id (some challenge) (some answer) users = some 0)
    (h' : userComparePasswordIn ctx' id' (some challenge') (some answer) users' = some 0) :
    (challenge = challenge' ∧ user.password = user'.password) ∨
      BlockHash.Collides sha1Compress (sha1Arguments (challenge ++ user.password))
        (sha1Arguments (challenge' ++ user'.password)) := by
  -- A digest has 40 characters and no zero, so the comparison reads all of it.
  have haccept : ∀ message : Bytes, strncmp 40 answer (hexDigest sha1 message) = 0 →
      answer.take 40 = digestString (Fips.sha1 message) := by
    intro message hzero
    rw [← hexDigest_sha1]
    exact (strncmp_eq_zero_iff (length_hexDigest sha1 message)
      (zero_notMem_hexDigest sha1 message)).mp hzero
  rw [userComparePasswordIn_eq ctx hfind, sha1Size_of_lt hsize, sha1Size_of_lt hpassword] at h
  rw [userComparePasswordIn_eq ctx' hfind', sha1Size_of_lt (hlen ▸ hsize),
    sha1Size_of_lt hpassword'] at h'
  have hdigest : Fips.sha1 (challenge ++ user.password) =
      Fips.sha1 (challenge' ++ user'.password) := by
    apply digestString_injective
    rw [← haccept _ (Option.some.inj h), ← haccept _ (Option.some.inj h')]
  by_cases hmessage : challenge ++ user.password = challenge' ++ user'.password
  · exact Or.inl (List.append_inj hmessage hlen)
  · refine Or.inr (collides_of_sha1_eq ?_ ?_ hmessage hdigest)
    · rw [List.length_append]
      omega
    · rw [List.length_append]
      omega

/-- The user whose answer to the challenge `a` is the digest of `abc`. -/
def answeringUser : LmUser := ⟨1, bytesOf "u", bytesOf "u", bytesOf "u@v", bytesOf "bc"⟩

/-- Another user with the same password. -/
def secondUser : LmUser := ⟨2, bytesOf "w", bytesOf "w", bytesOf "w@v", bytesOf "bc"⟩

/-- A context that has never been reset. -/
def freshContext : SHA1Context := ⟨sha1Initial, 0, 0, Vector.replicate 64 0, 0, false, false⟩

/-- The answer to the challenge `a` is accepted from the one user, and in a larger table, and with
a context that was used before, from the other. -/
theorem answer_identifies_abc :
    (bytesOf "a" = bytesOf "a" ∧ answeringUser.password = secondUser.password) ∨
      BlockHash.Collides sha1Compress (sha1Arguments (bytesOf "a" ++ answeringUser.password))
        (sha1Arguments (bytesOf "a" ++ secondUser.password)) := by
  let users : UserSet := MultiIndex.empty.insert answeringUser
  let users' : UserSet := users.insert secondUser
  let context' : SHA1Context := { freshContext with computed := true, corrupted := true }
  have hfind : users.find? (fun user => user.id = 1) = some answeringUser := by decide
  have hfind' : users'.find? (fun user => user.id = 2) = some secondUser := by decide
  have haccept : userComparePasswordIn freshContext 1 (some (bytesOf "a"))
      (some (bytesOf "a9993e364706816aba3e25717850c26c9cd0d89d")) users = some 0 := by
    decide +kernel
  have haccept' : userComparePasswordIn context' 2 (some (bytesOf "a"))
      (some (bytesOf "a9993e364706816aba3e25717850c26c9cd0d89d")) users' = some 0 := by
    decide +kernel
  exact answer_identifies freshContext context' hfind hfind' (by decide) rfl (by decide)
    (by decide) haccept haccept'

end LMiced
