import LMiced.Lib.MultiIndex
import LMiced.Lib.Run
import LMiced.Eal.Hash

/-!
# Tokens and users of the web server

The two containers of `web/user.cpp`. `token_set` has a token for each connection, with
the challenge the connection has to answer and the user who has logged in on it;
`user_set` has the users. The sets are multi-index containers, which refuse an element that
agrees with another one in a unique key. The SHA-1 function is a parameter, and so is the
system time, which goes into the challenges.

* `TokenOp.step` is the event system of the token operations;
* `token_of_run`: every connection has a token in a run in which tokens are inserted one at a
  time, and `token_refused` shows two connections at once.
-/

namespace LMiced

/-! ## Strings and hashes -/

/-- A pointer to a C string, `none` for a null pointer. -/
abbrev CharPtr := Option Bytes

/-- SHA-1: the five words of `Message_Digest`. -/
abbrev Sha1 := Bytes → Fin 5 → UInt32

/-- One digit of `%08x`. -/
def hexDigit (n : Nat) : UInt8 := if n < 10 then UInt8.ofNat (48 + n) else UInt8.ofNat (87 + n)

/-- `%08x`. -/
def hex8 (word : UInt32) : Bytes :=
  (List.range 8).map fun i => hexDigit (word.toNat / 16 ^ (7 - i) % 16)

/-- `%08x%08x%08x%08x%08x` of the digest. -/
def hexDigest (sha1 : Sha1) (input : Bytes) : Bytes := (List.ofFn (sha1 input)).flatMap hex8

/-- `salt`, with its terminating zero. -/
def salt : Bytes := bytesOf "ety2dfhgfj6wg.,m" ++ [0]

/-- `strncmp`. -/
def strncmp : Nat → Bytes → Bytes → Int
  | 0, _, _ => 0
  | n + 1, a, b =>
    if a.headD 0 ≠ b.headD 0 then (a.headD 0).toNat - (b.headD 0).toNat
    else if a.headD 0 = 0 then 0
    else strncmp n a.tail b.tail

theorem length_hexDigest (sha1 : Sha1) (input : Bytes) : (hexDigest sha1 input).length = 40 := by
  simp [hexDigest, hex8]

theorem zero_notMem_hexDigest (sha1 : Sha1) (input : Bytes) : 0 ∉ hexDigest sha1 input := by
  have hdigit : ∀ n : Fin 16, hexDigit n ≠ 0 := by decide
  intro hmem
  obtain ⟨word, _, hword⟩ := List.mem_flatMap.mp hmem
  obtain ⟨i, _, hi⟩ := List.mem_map.mp hword
  exact hdigit ⟨_, Nat.mod_lt _ (by decide)⟩ hi

/-- Comparing with a string of the full length, which has no terminating zero in it. -/
theorem strncmp_eq_zero_iff {n : Nat} {a b : Bytes} (hlen : b.length = n) (hzero : 0 ∉ b) :
    strncmp n a b = 0 ↔ a.take n = b := by
  induction n generalizing a b with
  | zero =>
    obtain rfl := List.eq_nil_of_length_eq_zero hlen
    simp [strncmp]
  | succ n ih =>
    cases b with
    | nil => cases hlen
    | cons y b =>
      rw [List.mem_cons, not_or] at hzero
      have hne : ∀ x : UInt8, x ≠ y → (x.toNat : Int) - y.toNat ≠ 0 := by
        intro x hx hsub
        exact hx (UInt8.toNat.inj (by omega))
      cases a with
      | nil => simpa [strncmp, hzero.1] using hne 0 hzero.1
      | cons x a =>
        by_cases hx : x = y
        · simp [strncmp, hx, Ne.symm hzero.1, ih (Nat.succ.inj hlen) hzero.2]
        · simp [strncmp, hx, hne x hx]

/-- `ELMICE_OK` and the error codes of `web/user.h`. -/
inductive WebErr
  | ok
  | userNameExist
  | userEmailExist
  | userIdExist
  | tokenInvalidChallenge
  | tokenConnExist
deriving DecidableEq, Repr

/-! ## Tokens -/

/-- The address of a connection. -/
abbrev Conn := Int64

/-- `lmtoken`, without the time of the last message, which nothing reads. -/
structure LmToken where
  id : Int32
  userId : Int32
  challenge : Bytes
  token : Bytes
  localIp : Bytes
  remoteIp : Bytes
  conn : Conn
deriving DecidableEq, Repr

/-- The unique keys of `token_set_type`. -/
def LmToken.Clash (a b : LmToken) : Prop := a.id = b.id ∨ a.conn = b.conn ∨ a.token = b.token

instance : DecidableRel LmToken.Clash := fun a b =>
  inferInstanceAs (Decidable (a.id = b.id ∨ a.conn = b.conn ∨ a.token = b.token))

instance : Std.Symm LmToken.Clash :=
  ⟨fun _ _ => Or.imp Eq.symm (Or.imp Eq.symm Eq.symm)⟩

/-- `token_set` and the counter of `token_insert`. -/
structure TokenSet where
  set : MultiIndex LmToken LmToken.Clash
  nextId : Int32

/-- Before the first connection. -/
def TokenSet.init : TokenSet := ⟨.empty, 0⟩

/-- `lmtoken::make_challenge` at the system time `tv`. -/
def LmToken.makeChallenge (sha1 : Sha1) (tv : UInt64) (token : LmToken) : LmToken :=
  { token with
    challenge := hexDigest sha1
      (salt ++ token.localIp ++ token.remoteIp ++ bytes64 tv ++ salt) }

/-- The lookup in `token_conn_set`. -/
def TokenSet.find (conn : Conn) (tokens : TokenSet) : Option LmToken :=
  tokens.set.find? fun token => token.conn = conn

/-- `token_get_challenge`. -/
def tokenGetChallenge (conn : Conn) (tokens : TokenSet) : WebErr × CharPtr :=
  match tokens.find conn with
  | some token => (.ok, some token.challenge)
  | none => (.tokenInvalidChallenge, none)

/-- `token_compare_challenge`. A comparison with a null pointer is undefined. -/
def tokenCompareChallenge (conn : Conn) (challenge : CharPtr) (tokens : TokenSet) :
    Option WebErr :=
  match tokens.find conn with
  | some token => challenge.map fun challenge =>
      if token.challenge = challenge then .ok else .tokenInvalidChallenge
  | none => some .tokenInvalidChallenge

/-- `token_insert`. The result of the insertion is not looked at. -/
def tokenInsert (sha1 : Sha1) (conn : Conn) (localIp remoteIp : Bytes) (tv : UInt64)
    (tokens : TokenSet) : WebErr × TokenSet :=
  let token := LmToken.makeChallenge sha1 tv
    { id := tokens.nextId, userId := 0, challenge := [], token := [], localIp, remoteIp, conn }
  let nextId := tokens.nextId + 1
  match tokens.find conn with
  | some _ => (.tokenConnExist, { tokens with nextId })
  | none => (.ok, ⟨tokens.set.insert token, nextId⟩)

/-- `token_erase`. -/
def tokenErase (conn : Conn) (tokens : TokenSet) : TokenSet :=
  { tokens with set := tokens.set.erase fun token => token.conn = conn }

/-- `token_reset`. -/
def tokenReset (sha1 : Sha1) (conn : Conn) (tv : UInt64) (tokens : TokenSet) :
    WebErr × TokenSet :=
  match tokens.find conn with
  | none => (.tokenConnExist, tokens)
  | some token =>
    let token := LmToken.makeChallenge sha1 tv { token with token := [], userId := 0 }
    (.ok, { tokens with set := tokens.set.replace (fun token => token.conn = conn) token })

/-- `token_update_user`. Without a token for the connection it is undefined. -/
def tokenUpdateUser (conn : Conn) (uid : Int32) (tokens : TokenSet) : Option TokenSet :=
  (tokens.set.modify (fun token => token.conn = conn) fun token => { token with userId := uid }).map
    fun set => { tokens with set }

section Tokens

variable {sha1 : Sha1} {tokens tokens' : TokenSet} {conn conn' : Conn} {t : LmToken}

/-- Two tokens of one connection clash. -/
theorem clash_of_conn (conn : Conn) (a b : LmToken) (ha : decide (a.conn = conn) = true)
    (hb : decide (b.conn = conn) = true) : a.Clash b :=
  Or.inr (Or.inl ((of_decide_eq_true ha).trans (of_decide_eq_true hb).symm))

theorem find_eq_some_iff : tokens.find conn = some t ↔ t ∈ tokens.set.elems ∧ t.conn = conn := by
  constructor
  · intro h
    have hconn := List.find?_some h
    exact ⟨MultiIndex.mem_of_find? h, by simpa using hconn⟩
  · rintro ⟨hmem, hconn⟩
    exact MultiIndex.find?_eq_some (clash_of_conn conn) hmem (decide_eq_true hconn)

theorem find_eq_none_iff : tokens.find conn = none ↔ ∀ t ∈ tokens.set.elems, t.conn ≠ conn := by
  simp [TokenSet.find, MultiIndex.find?_eq_none]

/-- No operation sets the token string, which is a unique key: there is at most one token. -/
def TokenSet.Blank (tokens : TokenSet) : Prop := ∀ t ∈ tokens.set.elems, t.token = []

theorem TokenSet.Blank.eq (hblank : tokens.Blank) {t t' : LmToken} (h : t ∈ tokens.set.elems)
    (h' : t' ∈ tokens.set.elems) : t = t' := by
  by_contra hne
  exact MultiIndex.not_clash h h' hne (Or.inr (Or.inr ((hblank t h).trans (hblank t' h').symm)))

theorem mem_tokenErase :
    t ∈ (tokenErase conn tokens).set.elems ↔ t ∈ tokens.set.elems ∧ t.conn ≠ conn := by
  simp [tokenErase, MultiIndex.mem_erase]

/-- `token_insert` adds a token without a user, or nothing. -/
theorem of_mem_tokenInsert {localIp remoteIp : Bytes} {tv : UInt64}
    (h : t ∈ (tokenInsert sha1 conn localIp remoteIp tv tokens).2.set.elems) :
    t ∈ tokens.set.elems ∨ (t.conn = conn ∧ t.userId = 0 ∧ t.token = []) := by
  unfold tokenInsert at h
  split at h
  · exact Or.inl h
  · rcases MultiIndex.mem_insert.mp h with h | ⟨rfl, _⟩
    · exact Or.inl h
    · exact Or.inr ⟨rfl, rfl, rfl⟩

/-- `token_insert` adds a token when no other connection has one. -/
theorem exists_mem_tokenInsert {localIp remoteIp : Bytes} {tv : UInt64}
    (h : ∀ t ∈ tokens.set.elems, t.conn = conn) :
    ∃ t ∈ (tokenInsert sha1 conn localIp remoteIp tv tokens).2.set.elems, t.conn = conn := by
  unfold tokenInsert
  split
  · next t hfind =>
    obtain ⟨hmem, hconn⟩ := find_eq_some_iff.mp hfind
    exact ⟨t, hmem, hconn⟩
  · next hfind =>
    have hempty : ∀ a : LmToken, ¬ tokens.set.Refuses a := by
      rintro a ⟨t, ht, _⟩
      exact find_eq_none_iff.mp hfind t ht (h t ht)
    exact ⟨_, (MultiIndex.mem_insert_of_not_refuses (hempty _)).mpr (Or.inr rfl), rfl⟩

theorem mem_tokenInsert_of_mem {localIp remoteIp : Bytes} {tv : UInt64}
    (h : t ∈ tokens.set.elems) :
    t ∈ (tokenInsert sha1 conn localIp remoteIp tv tokens).2.set.elems := by
  unfold tokenInsert
  split
  · exact h
  · exact MultiIndex.mem_insert.mpr (Or.inl h)

/-- `token_reset` clears the user of the connection. -/
theorem mem_tokenReset (hblank : tokens.Blank) {tv : UInt64} {old : LmToken}
    (hold : tokens.find conn = some old) :
    t ∈ (tokenReset sha1 conn tv tokens).2.set.elems ↔
      (t ∈ tokens.set.elems ∧ t.conn ≠ conn) ∨
        t = LmToken.makeChallenge sha1 tv { old with token := [], userId := 0 } := by
  obtain ⟨hmem, hconn⟩ := find_eq_some_iff.mp hold
  have hkeys : ∀ b, (LmToken.makeChallenge sha1 tv
      { old with token := [], userId := 0 }).Clash b → old.Clash b := by
    intro b hclash
    exact hclash.imp_right (Or.imp_right fun htoken => (hblank old hmem).trans htoken)
  simp only [tokenReset, hold]
  rw [MultiIndex.mem_replace hmem (decide_eq_true hconn) hkeys]
  simp

theorem tokenReset_of_find_none {tv : UInt64} (h : tokens.find conn = none) :
    tokenReset sha1 conn tv tokens = (.tokenConnExist, tokens) := by
  simp [tokenReset, h]

/-- `token_update_user` writes the user of the connection. -/
theorem mem_tokenUpdateUser {uid : Int32} (h : tokenUpdateUser conn uid tokens = some tokens') :
    ∃ old, tokens.find conn = some old ∧ ∀ t, t ∈ tokens'.set.elems ↔
      (t ∈ tokens.set.elems ∧ t.conn ≠ conn) ∨ t = { old with userId := uid } := by
  obtain ⟨set, hset, rfl⟩ := Option.map_eq_some_iff.mp h
  obtain ⟨old, hold, hmem⟩ := MultiIndex.mem_modify hset fun _ _ hclash => hclash
  refine ⟨old, hold, fun t => ?_⟩
  rw [hmem t]
  simp

namespace TokenSet.Blank

theorem insert (hblank : tokens.Blank) {localIp remoteIp : Bytes} {tv : UInt64} :
    (tokenInsert sha1 conn localIp remoteIp tv tokens).2.Blank := by
  intro t ht
  rcases of_mem_tokenInsert ht with ht | ⟨_, _, htoken⟩
  · exact hblank t ht
  · exact htoken

theorem erase (hblank : tokens.Blank) : (tokenErase conn tokens).Blank :=
  fun t ht => hblank t (mem_tokenErase.mp ht).1

theorem reset (hblank : tokens.Blank) {tv : UInt64} :
    (tokenReset sha1 conn tv tokens).2.Blank := by
  intro t ht
  cases hfind : tokens.find conn with
  | none =>
    rw [tokenReset_of_find_none hfind] at ht
    exact hblank t ht
  | some old =>
    rcases (mem_tokenReset hblank hfind).mp ht with ⟨ht, _⟩ | rfl
    · exact hblank t ht
    · rfl

theorem updateUser (hblank : tokens.Blank) {uid : Int32}
    (h : tokenUpdateUser conn uid tokens = some tokens') : tokens'.Blank := by
  obtain ⟨old, hold, hmem⟩ := mem_tokenUpdateUser h
  intro t ht
  rcases (hmem t).mp ht with ⟨ht, _⟩ | rfl
  · exact hblank t ht
  · exact hblank old (find_eq_some_iff.mp hold).1

end TokenSet.Blank

end Tokens

/-! ## Sequences of token operations -/

/-- The calls of the token operations; the system time is given with them. -/
inductive TokenOp
  | insert (conn : Conn) (localIp remoteIp : Bytes) (tv : UInt64)
  | erase (conn : Conn)
  | reset (conn : Conn) (tv : UInt64)
  | updateUser (conn : Conn) (uid : Int32)
deriving DecidableEq, Repr

/-- The tokens, and the connections whose `token_insert` has returned `ELMICE_OK` and that
have not been erased. -/
structure TokenState where
  tokens : TokenSet
  live : List Conn

def TokenState.init : TokenState := ⟨.init, []⟩

namespace TokenOp

def step (sha1 : Sha1) : TokenOp → TokenState → Option TokenState
  | insert conn localIp remoteIp tv, s =>
    let inserted := tokenInsert sha1 conn localIp remoteIp tv s.tokens
    some ⟨inserted.2, if inserted.1 = .ok then conn :: s.live else s.live⟩
  | erase conn, s => some ⟨tokenErase conn s.tokens, s.live.filter (· ≠ conn)⟩
  | reset conn tv, s => some { s with tokens := (tokenReset sha1 conn tv s.tokens).2 }
  | updateUser conn uid, s =>
    (tokenUpdateUser conn uid s.tokens).map fun tokens => { s with tokens }

/-- A token is inserted only when no other connection has one. -/
def Alone : TokenOp → TokenState → Prop
  | insert conn _ _ _, s => ∀ t ∈ s.tokens.set.elems, t.conn = conn
  | _, _ => True

instance decidableAlone : (op : TokenOp) → (s : TokenState) → Decidable (op.Alone s)
  | insert conn _ _ _, s => inferInstanceAs (Decidable (∀ t ∈ s.tokens.set.elems, t.conn = conn))
  | erase _, _ => inferInstanceAs (Decidable True)
  | reset _ _, _ => inferInstanceAs (Decidable True)
  | updateUser _ _, _ => inferInstanceAs (Decidable True)

end TokenOp

/-- Every connection that is live has a token. -/
structure TokenInv (s : TokenState) : Prop where
  blank : s.tokens.Blank
  token : ∀ conn ∈ s.live, ∃ t ∈ s.tokens.set.elems, t.conn = conn

theorem TokenInv.step {sha1 : Sha1} {op : TokenOp} {s s' : TokenState} (hs : TokenInv s)
    (hop : op.Alone s) (h : op.step sha1 s = some s') : TokenInv s' := by
  cases op with
  | insert conn localIp remoteIp tv =>
    cases h
    refine ⟨hs.blank.insert, fun conn' hlive => ?_⟩
    have hcases : conn' = conn ∨ conn' ∈ s.live := by
      dsimp only at hlive
      split at hlive
      · exact List.mem_cons.mp hlive
      · exact Or.inr hlive
    rcases hcases with rfl | hlive
    · exact exists_mem_tokenInsert hop
    · obtain ⟨t, ht, hconn⟩ := hs.token conn' hlive
      exact ⟨t, mem_tokenInsert_of_mem ht, hconn⟩
  | erase conn =>
    cases h
    refine ⟨hs.blank.erase, fun conn' hlive => ?_⟩
    obtain ⟨hlive, hne⟩ := List.mem_filter.mp hlive
    obtain ⟨t, ht, rfl⟩ := hs.token conn' hlive
    exact ⟨t, mem_tokenErase.mpr ⟨ht, by simpa using hne⟩, rfl⟩
  | reset conn tv =>
    cases h
    refine ⟨hs.blank.reset, fun conn' hlive => ?_⟩
    obtain ⟨t, ht, hconn⟩ := hs.token conn' hlive
    cases hfind : s.tokens.find conn with
    | none =>
      rw [tokenReset_of_find_none hfind]
      exact ⟨t, ht, hconn⟩
    | some old =>
      rcases eq_or_ne conn' conn with rfl | hne
      · exact ⟨_, (mem_tokenReset hs.blank hfind).mpr (Or.inr rfl), (find_eq_some_iff.mp hfind).2⟩
      · exact ⟨t, (mem_tokenReset hs.blank hfind).mpr (Or.inl ⟨ht, hconn.trans_ne hne⟩), hconn⟩
  | updateUser conn uid =>
    obtain ⟨tokens, htokens, rfl⟩ := Option.map_eq_some_iff.mp h
    obtain ⟨old, hold, hmem⟩ := mem_tokenUpdateUser htokens
    refine ⟨hs.blank.updateUser htokens, fun conn' hlive => ?_⟩
    obtain ⟨t, ht, hconn⟩ := hs.token conn' hlive
    rcases eq_or_ne conn' conn with rfl | hne
    · exact ⟨_, (hmem _).mpr (Or.inr rfl), (find_eq_some_iff.mp hold).2⟩
    · exact ⟨t, (hmem t).mpr (Or.inl ⟨ht, hconn.trans_ne hne⟩), hconn⟩

/-- In every run in which tokens are inserted only when no other connection has one, every
live connection has exactly one token, and its challenge is found. -/
theorem token_of_run {sha1 : Sha1} {s : TokenState}
    (h : Run.Reachable (TokenOp.step sha1) TokenOp.Alone .init s) {conn : Conn}
    (hlive : conn ∈ s.live) :
    ∃ t, s.tokens.set.elems.filter (fun t => t.conn = conn) = [t] ∧
      tokenGetChallenge conn s.tokens = (.ok, some t.challenge) := by
  have hinit : TokenInv .init := ⟨fun _ ht => absurd ht List.not_mem_nil,
    fun _ hc => absurd hc List.not_mem_nil⟩
  have hs : TokenInv s := h.invariant (fun _ _ _ hop hstep hs => hs.step hop hstep) hinit
  obtain ⟨t, ht, hconn⟩ := hs.token conn hlive
  refine ⟨t, MultiIndex.filter_eq_singleton (clash_of_conn conn) ht (decide_eq_true hconn), ?_⟩
  rw [tokenGetChallenge, find_eq_some_iff.mpr ⟨ht, hconn⟩]

/-- A connection is opened, closed, and another one is opened. -/
theorem token_of_run_two :
    ∃ s : TokenState, s.live = [2] ∧
      ∃ t, s.tokens.set.elems.filter (fun t => t.conn = 2) = [t] ∧
        tokenGetChallenge 2 s.tokens = (.ok, some t.challenge) := by
  obtain ⟨s, hreach, hs⟩ := Run.exists_reachable_of_execute (TokenOp.step fun _ _ => 0)
    TokenOp.Alone [.insert 1 [] [] 0, .erase 1, .insert 2 [] [] 0] (s := .init)
    (p := fun s => s.live = [2]) (by decide +kernel)
  have hlive := of_decide_eq_true hs
  exact ⟨s, hlive, token_of_run hreach (by simp [hlive])⟩

/-- Two connections are open: the token of the second one is refused, since no token string
is ever set and the string is a unique key; `token_insert` returns `ELMICE_OK` all the
same. -/
theorem token_refused :
    ¬ ∀ (sha1 : Sha1) (s : TokenState),
      Run.Reachable (TokenOp.step sha1) (fun _ _ => True) .init s →
      ∀ conn ∈ s.live, (∃ t, s.tokens.set.elems.filter (fun t => t.conn = conn) = [t]) ∧
        (tokenGetChallenge conn s.tokens).1 = .ok := by
  intro h
  obtain ⟨s, hreach, hs⟩ := Run.exists_reachable_of_execute (TokenOp.step fun _ _ => 0)
    (fun _ _ => True) [.insert 1 [] [] 0, .insert 2 [] [] 0] (s := .init)
    (p := fun s => 2 ∈ s.live ∧ (tokenGetChallenge 2 s.tokens).1 = .tokenInvalidChallenge)
    (by decide +kernel)
  obtain ⟨hlive, hno⟩ := of_decide_eq_true hs
  have hok := (h _ s hreach 2 hlive).2
  rw [hno] at hok
  cases hok

/-! ## Users -/

/-- `lmuser`. -/
structure LmUser where
  id : Int32
  name : Bytes
  displayName : Bytes
  email : Bytes
  password : Bytes
deriving DecidableEq, Repr

/-- The unique keys of `user_set_type`. -/
def LmUser.Clash (a b : LmUser) : Prop := a.id = b.id ∨ a.email = b.email ∨ a.name = b.name

instance : DecidableRel LmUser.Clash := fun a b =>
  inferInstanceAs (Decidable (a.id = b.id ∨ a.email = b.email ∨ a.name = b.name))

/-- `user_set`. -/
abbrev UserSet := MultiIndex LmUser LmUser.Clash

/-- `user_add_new`. -/
def userAddNew (name displayName email password : Bytes) (users : UserSet) : WebErr × UserSet :=
  if (users.find? fun user => user.name = name).isSome then (.userNameExist, users)
  else
    let id := Int32.ofNat (users.size + 1)
    if (users.find? fun user => user.id = id).isSome then (.userIdExist, users)
    else if (users.find? fun user => user.email = email).isSome then (.userEmailExist, users)
    else (.ok, users.insert ⟨id, name, displayName, email, password⟩)

/-- `user_find_name`. The lookup of a null pointer is undefined. -/
def userFindName (name : CharPtr) (users : UserSet) : Option (Option LmUser) :=
  name.map fun name => users.find? fun user => user.name = name

/-- `user_compare_password`. A null pointer is undefined. -/
def userComparePassword (sha1 : Sha1) (id : Int32) (challenge password : CharPtr)
    (users : UserSet) : Option Int :=
  match users.find? fun user => user.id = id with
  | none => some (-1)
  | some user => do
    let challenge ← challenge
    let password ← password
    some (strncmp 40 password (hexDigest sha1 (challenge ++ user.password)))

end LMiced
