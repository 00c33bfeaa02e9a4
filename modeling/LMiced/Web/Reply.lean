import LMiced.Web.Request

/-!
# Replies to bad requests

What `parse_response` of `web/json_request.cpp` does with a request that it refuses, and with
members that are no strings.

* `refusal_keeps_sets_iff`: a reply with a false status leaves the tokens and the users as they
  were, unless it is the one to a logout whose token is no string. The connection is reset
  before the token is looked at;
* `calls_notNull_iff`: no null pointer is handed to the functions of `web/user.cpp`, unless a
  member of a `loginType2` that is needed is no string. `register` checks its members.
-/

namespace LMiced

/-! ## Refused requests -/

/-- The same tokens and users. -/
def SameSets (web web' : Web) : Prop :=
  (∀ t, t ∈ web'.tokens.set.elems ↔ t ∈ web.tokens.set.elems) ∧
    ∀ user, user ∈ web'.users.elems ↔ user ∈ web.users.elems

/-- A logout with a token that is no string. -/
def BadLogout (request : Option JsonFields) : Prop :=
  ∃ root, request = some root ∧
    jsonObjectGetString root "action" = some (some (bytesOf "logout")) ∧
    jsonObjectGetString root "token" = some none

/-- The connection has a token that is not as a reset leaves it, and no other token has the
empty token string of the new one. -/
def ResetChanges (sha1 : Sha1) (conn : Conn) (tv : UInt64) (tokens : TokenSet) : Prop :=
  ∃ old, tokens.find conn = some old ∧
    (∀ t ∈ tokens.set.elems, t.conn ≠ conn → t.token ≠ []) ∧
    LmToken.makeChallenge sha1 tv { old with token := [], userId := 0 } ≠ old

section Refused

variable {sha1 : Sha1} {conn : Conn} {tv : UInt64} {root : JsonFields} {web web' : Web}
  {tokens : TokenSet} {old : LmToken}

/-- The new token is refused for the sake of its token string only. -/
theorem refuses_reset_iff (hold : tokens.find conn = some old) :
    (tokens.set.erase fun t => t.conn = conn).Refuses
        (LmToken.makeChallenge sha1 tv { old with token := [], userId := 0 }) ↔
      ∃ t ∈ tokens.set.elems, t.conn ≠ conn ∧ t.token = [] := by
  obtain ⟨hmem, hconn⟩ := find_eq_some_iff.mp hold
  constructor
  · rintro ⟨t, ht, hclash⟩
    obtain ⟨ht, hne⟩ := MultiIndex.mem_erase.mp ht
    have hne : t.conn ≠ conn := of_decide_eq_false hne
    have hdiff : old ≠ t := by
      rintro rfl
      exact hne hconn
    rcases hclash with hid | hc | htoken
    · exact absurd (.inl hid) (MultiIndex.not_clash hmem ht hdiff)
    · exact absurd (hc.symm.trans hconn) hne
    · exact ⟨t, ht, hne, htoken.symm⟩
  · rintro ⟨t, ht, hne, htoken⟩
    exact ⟨t, MultiIndex.mem_erase.mpr ⟨ht, decide_eq_false hne⟩, .inr (.inr htoken.symm)⟩

/-- The token of a connection is replaced by another one of the same connection. -/
theorem replaced_same_iff {new : LmToken} (hold : tokens.find conn = some old)
    (hnew : new.conn = conn) :
    (∀ t, t ∈ tokens.set.elems ∧ t.conn ≠ conn ∨ t = new ↔ t ∈ tokens.set.elems) ↔
      new = old := by
  obtain ⟨hmem, hconn⟩ := find_eq_some_iff.mp hold
  have hunique : ∀ t ∈ tokens.set.elems, t.conn = conn → t = old := fun t ht hc =>
    MultiIndex.eq_of_key (clash_of_conn conn) hmem (decide_eq_true hconn) ht (decide_eq_true hc)
  constructor
  · intro hsame
    exact hunique new ((hsame new).mp (.inr rfl)) hnew
  · rintro rfl t
    constructor
    · rintro (⟨ht, _⟩ | rfl)
      · exact ht
      · exact hmem
    · intro ht
      rcases eq_or_ne t.conn conn with hc | hne
      · exact .inr (hunique t ht hc)
      · exact .inl ⟨ht, hne⟩

theorem tokenReset_same_iff :
    (∀ t, t ∈ (tokenReset sha1 conn tv tokens).2.set.elems ↔ t ∈ tokens.set.elems) ↔
      ¬ ResetChanges sha1 conn tv tokens := by
  cases hfind : tokens.find conn with
  | none => simp [tokenReset_of_find_none hfind, ResetChanges, hfind]
  | some old =>
    have hrefuses : (tokens.set.erase fun t => t.conn = conn).Refuses
        (LmToken.makeChallenge sha1 tv { old with token := [], userId := 0 }) ↔ _ :=
      refuses_reset_iff hfind
    have hchanges : ResetChanges sha1 conn tv tokens ↔
        (¬ ∃ t ∈ tokens.set.elems, t.conn ≠ conn ∧ t.token = []) ∧
          LmToken.makeChallenge sha1 tv { old with token := [], userId := 0 } ≠ old := by
      simp [ResetChanges, hfind]
    rw [hchanges, ← hrefuses]
    generalize hnew : LmToken.makeChallenge sha1 tv { old with token := [], userId := 0 } = new
    have hnewconn : new.conn = conn := by
      rw [← hnew]
      exact (find_eq_some_iff.mp hfind).2
    simp only [tokenReset, hfind, hnew, MultiIndex.replace]
    split
    · next hrefused => simp [hrefused]
    · next hno =>
      simp only [MultiIndex.mem_insert_of_not_refuses hno, MultiIndex.mem_erase,
        decide_eq_false_iff_not]
      rw [replaced_same_iff hfind hnewconn]
      exact ⟨fun heq hchanges => hchanges.2 heq, fun hnot => not_not.mp fun hne => hnot ⟨hno, hne⟩⟩

theorem register_of_refused (h : (register root web).1.status = false) :
    (register root web).2 = web := by
  unfold register at h ⊢
  dsimp only at h ⊢
  split
  · split
    · rfl
    · rfl
    · rfl
    · split <;> simp_all [okResponse]
  · rfl

/-- The reply to a logout with a token that is no string. -/
theorem parseResponse_of_badLogout {request : Option JsonFields} (h : BadLogout request) :
    parseResponse sha1 conn tv request web =
      some (some (errorResponse "errorResponse" "Client status is incorrect"),
        { web with tokens := (tokenReset sha1 conn tv web.tokens).2 }) := by
  obtain ⟨root, rfl, haction, htoken⟩ := h
  have hne1 : bytesOf "logout" ≠ bytesOf "loginType1" := by decide
  have hne2 : bytesOf "logout" ≠ bytesOf "loginType2" := by decide
  simp [parseResponse, haction, hne1, hne2, logout, htoken]

/-- A refused request changes nothing, unless it is such a logout. -/
theorem of_refused {request : Option JsonFields} {response : Response}
    (h : parseResponse sha1 conn tv request web = some (some response, web'))
    (hstatus : response.status = false) : web' = web ∨ BadLogout request := by
  unfold parseResponse at h
  split at h
  · cases h
    exact .inl rfl
  · next root =>
    split at h
    · cases h
      exact .inl rfl
    · cases h
      exact .inl rfl
    · next action haction =>
      split at h
      · cases h
        exact .inl rfl
      · split at h
        · next hlogin =>
          obtain ⟨answered, hanswered, hdone⟩ := Option.map_eq_some_iff.mp h
          cases hdone
          rcases loginType2_cases (by rw [haction, hlogin]) hanswered with hsame | ⟨_, _, _, _, hok⟩
          · exact .inl hsame
          · rw [hok] at hstatus
            cases hstatus
        · split at h
          · next hlogout =>
            cases htoken : jsonObjectGetString root "token" with
            | none =>
              simp only [logout, htoken] at h
              cases h
              exact .inl rfl
            | some token =>
              cases token with
              | none => exact .inr ⟨root, rfl, by rw [haction, hlogout], htoken⟩
              | some token =>
                simp only [logout, htoken] at h
                cases h
                cases hstatus
          · split at h
            · cases h
              exact .inl (register_of_refused hstatus)
            · cases h

/-- **A refused request leaves the tokens and the users as they were if and only if it is no
logout with a token that is no string, or the reset of its connection changes nothing.** -/
theorem refusal_keeps_sets_iff (sha1 : Sha1) (conn : Conn) (tv : UInt64)
    (request : Option JsonFields) (web : Web) :
    (∀ response web', parseResponse sha1 conn tv request web = some (some response, web') →
      response.status = false → SameSets web web') ↔
      ¬ (BadLogout request ∧ ResetChanges sha1 conn tv web.tokens) := by
  constructor
  · rintro h ⟨hbad, hchanges⟩
    have hsame := h _ _ (parseResponse_of_badLogout hbad) rfl
    exact tokenReset_same_iff.mp hsame.1 hchanges
  · intro hnot response web' h hstatus
    rcases of_refused h hstatus with rfl | hbad
    · exact ⟨fun _ => Iff.rfl, fun _ => Iff.rfl⟩
    · rw [parseResponse_of_badLogout hbad] at h
      cases h
      exact ⟨tokenReset_same_iff.mpr fun hchanges => hnot ⟨hbad, hchanges⟩, fun _ => Iff.rfl⟩

end Refused

/-- A logout with a number for its token. -/
def numberLogout : JsonFields := fun name =>
  if name = "action" then some (.string (bytesOf "logout"))
  else if name = "token" then some .other
  else none

/-- A single connection, on which the user 1 has logged in. -/
def loggedInWeb : Web :=
  ⟨⟨⟨[⟨0, 1, [], [], [], [], 1⟩], List.pairwise_singleton _ _⟩, 1⟩, .empty⟩

theorem refusal_changes_sets :
    ¬ ∀ (sha1 : Sha1) (conn : Conn) (tv : UInt64) (request : Option JsonFields) (web : Web),
      ∀ response web', parseResponse sha1 conn tv request web = some (some response, web') →
        response.status = false → SameSets web web' := by
  intro h
  have hbad : BadLogout (some numberLogout) := ⟨numberLogout, rfl, by decide, by decide⟩
  have hsame := h (fun _ _ => 0) 1 0 (some numberLogout) loggedInWeb _ _
    (parseResponse_of_badLogout hbad) rfl
  have hmem := (hsame.1 ⟨0, 1, [], [], [], [], 1⟩).mpr List.mem_cons_self
  revert hmem
  decide +kernel

/-! ## Null pointers -/

/-- The calls of the functions of `web/user.cpp` that take strings from the request, with these
strings. -/
inductive WebCall
  | tokenCompareChallenge (challenge : CharPtr)
  | userFindName (name : CharPtr)
  | userComparePassword (challenge password : CharPtr)
  | userAddNew (name displayName email password : CharPtr)
deriving DecidableEq, Repr

/-- No string of the call is a null pointer. -/
def WebCall.NotNull : WebCall → Prop
  | tokenCompareChallenge challenge => challenge.isSome
  | userFindName name => name.isSome
  | userComparePassword challenge password => challenge.isSome ∧ password.isSome
  | userAddNew name displayName email password =>
    name.isSome ∧ displayName.isSome ∧ email.isSome ∧ password.isSome

section Calls

variable (conn : Conn) (root : JsonFields) (web : Web)

/-- The calls of the branch `loginType2`, up to the first one that is undefined. -/
def loginType2Calls : List WebCall :=
  match jsonObjectGetString root "name", jsonObjectGetString root "password",
      jsonObjectGetString root "challenge" with
  | some name, some pass, some challenge =>
    .tokenCompareChallenge challenge ::
      if tokenCompareChallenge conn challenge web.tokens = some .ok then
        .userFindName name ::
          match userFindName name web.users with
          | some (some _) => [.userComparePassword challenge pass]
          | _ => []
      else []
  | _, _, _ => []

/-- The calls of the branch `register`. -/
def registerCalls : List WebCall :=
  match jsonObjectGetString root "name", jsonObjectGetString root "password",
      jsonObjectGetString root "display_name", jsonObjectGetString root "email" with
  | some name, some password, some displayName, some email =>
    if name.isNone then []
    else if password.isNone then []
    else
      let displayName := if displayName.isNone then name else displayName
      if email.isNone then [] else [.userAddNew name displayName email password]
  | _, _, _, _ => []

/-- The calls of `parse_response`. -/
def parseResponseCalls (request : Option JsonFields) : List WebCall :=
  match request with
  | none => []
  | some root =>
    match jsonObjectGetString root "action" with
    | some (some action) =>
      if action = bytesOf "loginType2" then loginType2Calls conn root web
      else if action = bytesOf "register" then registerCalls root
      else []
    | _ => []

end Calls

/-- A `loginType2` in which a member is no string that is reached: the challenge, or the name
behind the right challenge, or the password behind the name of a user. -/
def NullLogin (conn : Conn) (request : Option JsonFields) (web : Web) : Prop :=
  ∃ root name pass challenge, request = some root ∧
    jsonObjectGetString root "action" = some (some (bytesOf "loginType2")) ∧
    jsonObjectGetString root "name" = some name ∧
    jsonObjectGetString root "password" = some pass ∧
    jsonObjectGetString root "challenge" = some challenge ∧
    (challenge = none ∨ tokenCompareChallenge conn challenge web.tokens = some .ok ∧
      (name = none ∨ (∃ user, userFindName name web.users = some (some user)) ∧ pass = none))

section NotNull

variable {sha1 : Sha1} {conn : Conn} {tv : UInt64} {root : JsonFields} {web : Web}

/-- `register` looks at each string before it is used. -/
theorem registerCalls_notNull : ∀ call ∈ registerCalls root, call.NotNull := by
  unfold registerCalls
  split
  · next name password displayName email _ _ _ _ =>
    cases name with
    | none => simp
    | some name =>
      cases password with
      | none => simp
      | some password =>
        cases email with
        | none => simp
        | some email => cases displayName <;> simp [WebCall.NotNull]
  · simp

theorem loginType2Calls_notNull_iff
    (haction : jsonObjectGetString root "action" = some (some (bytesOf "loginType2"))) :
    (∀ call ∈ loginType2Calls conn root web, call.NotNull) ↔ ¬ NullLogin conn (some root) web := by
  unfold loginType2Calls
  split
  · next name pass challenge hname hpass hchallenge =>
    have hnull : NullLogin conn (some root) web ↔
        (challenge = none ∨ tokenCompareChallenge conn challenge web.tokens = some .ok ∧
          (name = none ∨ (∃ user, userFindName name web.users = some (some user)) ∧
            pass = none)) := by
      constructor
      · rintro ⟨_, _, _, _, ⟨⟩, _, hname', hpass', hchallenge', h⟩
        obtain rfl := Option.some.inj (hname.symm.trans hname')
        obtain rfl := Option.some.inj (hpass.symm.trans hpass')
        obtain rfl := Option.some.inj (hchallenge.symm.trans hchallenge')
        exact h
      · exact fun h => ⟨root, name, pass, challenge, rfl, haction, hname, hpass, hchallenge, h⟩
    rw [hnull]
    cases challenge with
    | none => simp [WebCall.NotNull]
    | some challenge =>
      split
      · next hok =>
        cases name with
        | none => simp [WebCall.NotNull, hok]
        | some name =>
          split
          · next user huser =>
            cases pass with
            | none => simp [WebCall.NotNull, hok, huser]
            | some pass => simp [WebCall.NotNull]
          · next huser =>
            have hnone : ¬ ∃ user, userFindName (some name) web.users = some (some user) :=
              fun ⟨user, h⟩ => huser user h
            simp [WebCall.NotNull, hnone]
      · next hok => simp [WebCall.NotNull, hok]
  · next hnot =>
    constructor
    · rintro _ ⟨_, name, pass, challenge, ⟨⟩, _, hname, hpass, hchallenge, _⟩
      exact hnot name pass challenge hname hpass hchallenge
    · simp

/-- **No null pointer is handed on if and only if the request is no `loginType2` that reaches a
member that is no string.** -/
theorem calls_notNull_iff (conn : Conn) (request : Option JsonFields) (web : Web) :
    (∀ call ∈ parseResponseCalls conn web request, call.NotNull) ↔
      ¬ NullLogin conn request web := by
  have hother : (∀ root, request = some root →
      jsonObjectGetString root "action" ≠ some (some (bytesOf "loginType2"))) →
      ¬ NullLogin conn request web := by
    rintro hne ⟨root, _, _, _, hroot, haction, _⟩
    exact hne root hroot haction
  unfold parseResponseCalls
  split
  · exact iff_of_true (by simp) (hother (by simp))
  · next root =>
    split
    · next action haction =>
      split
      · next hlogin => exact loginType2Calls_notNull_iff (by rw [haction, hlogin])
      · next hlogin =>
        have hnot := hother (by simpa [haction] using hlogin)
        split
        · exact iff_of_true registerCalls_notNull hnot
        · exact iff_of_true (by simp) hnot
    · next hno =>
      refine iff_of_true (by simp) (hother ?_)
      rintro _ ⟨⟩ haction
      exact hno _ haction

theorem loginType2_isSome_of_notNull
    (h : ∀ call ∈ loginType2Calls conn root web, call.NotNull) :
    (loginType2 sha1 conn root web).isSome := by
  unfold loginType2Calls at h
  split at h
  · next name pass challenge hname hpass hchallenge =>
    rw [List.forall_mem_cons] at h
    obtain ⟨challenge, rfl⟩ := Option.isSome_iff_exists.mp h.1
    have h := h.2
    split at h
    · next hok =>
      rw [List.forall_mem_cons] at h
      obtain ⟨name, rfl⟩ := Option.isSome_iff_exists.mp h.1
      have h := h.2
      split at h
      · rw [List.forall_mem_singleton] at h
        obtain ⟨pass, rfl⟩ := Option.isSome_iff_exists.mp h.2
        exact loginType2_isSome hname hpass hchallenge
      · next huser =>
        cases hfind : web.users.find? fun user => user.name = name with
        | some user => exact absurd (by rw [userFindName, Option.map_some, hfind]) (huser user)
        | none => simp [loginType2, hname, hpass, hchallenge, hok, userFindName, hfind]
    · next hok =>
      obtain ⟨ret, hret⟩ := exists_tokenCompareChallenge conn challenge web.tokens
      have hne : ret ≠ .ok := by
        rintro rfl
        exact hok hret
      simp [loginType2, hname, hpass, hchallenge, hret, hne]
  · next hno =>
    unfold loginType2
    dsimp only
    split
    · next name pass challenge hname hpass hchallenge =>
      exact absurd hchallenge (hno name pass challenge hname hpass)
    · rfl

/-- A request that hands on no null pointer is answered. -/
theorem parseResponse_isSome_of_notNull {request : Option JsonFields}
    (h : ∀ call ∈ parseResponseCalls conn web request, call.NotNull) :
    (parseResponse sha1 conn tv request web).isSome := by
  unfold parseResponse
  dsimp only
  split
  · rfl
  · next root =>
    split
    · rfl
    · rfl
    · next action haction =>
      split
      · rfl
      · split
        · next hlogin =>
          rw [Option.isSome_map]
          refine loginType2_isSome_of_notNull ?_
          simpa [parseResponseCalls, haction, hlogin] using h
        · split
          · rfl
          · split <;> rfl

end NotNull

/-- A login with the number 0 for its name, its password and its challenge. -/
def numberLogin : JsonFields := fun name =>
  if name = "action" then some (.string (bytesOf "loginType2"))
  else if name = "name" ∨ name = "password" ∨ name = "challenge" then some .other
  else none

theorem null_is_passed :
    ¬ ∀ (conn : Conn) (request : Option JsonFields) (web : Web),
      ∀ call ∈ parseResponseCalls conn web request, call.NotNull := by
  intro h
  have hnull : WebCall.tokenCompareChallenge none ∈
      parseResponseCalls 1 loggedInWeb (some numberLogin) := by decide +kernel
  have hsome := h 1 (some numberLogin) loggedInWeb _ hnull
  cases hsome

end LMiced
