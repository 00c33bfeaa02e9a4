import LMiced.Web.User

/-!
# Requests to the web server

`parse_response` of `web/json_request.cpp` answers the JSON requests of a connection:
`loginType1` asks for the challenge of the connection, `loginType2` answers it with a user
name and a hashed password, `logout` resets the connection, and `register` adds a user.

The history of the server is a log of its events, each with the state before it.

* `parseResponse_cases`: what a request can do to the state;
* `WebInv` is preserved by every event;
* `user_id_of_run`: a connection has a user only after the right answer to its challenge.
-/

namespace LMiced

/-! ## JSON -/

/-- A value of a JSON object, of which only the strings are told apart. -/
inductive JsonValue
  | string (s : Bytes)
  | other
deriving DecidableEq, Repr

/-- The members of a JSON object. A value that is no object has none. -/
abbrev JsonFields := String → Option JsonValue

/-- `json_string_value`. -/
def jsonStringValue : JsonValue → CharPtr
  | .string s => some s
  | .other => none

/-- The macro `json_object_get_string`; `none` is the exception for a missing member. -/
def jsonObjectGetString (root : JsonFields) (name : String) : Option CharPtr :=
  (root name).map jsonStringValue

/-- A response, with its members other than the action, the status and the error. -/
structure Response where
  action : Bytes
  status : Bool
  error : Bytes
  members : List (String × Bytes)
deriving DecidableEq, Repr

/-- The response to an exception. -/
def errorResponse (resaction what : String) : Response :=
  ⟨bytesOf resaction, false, bytesOf what, []⟩

/-- The response to a request that went well. -/
def okResponse (resaction : String) (members : List (String × Bytes)) : Response :=
  ⟨bytesOf resaction, true, bytesOf "OK", members⟩

/-- The text of the exception of `json_object_get_string`. -/
def noParam : String := "Request did not contain name param"

/-! ## Requests -/

/-- The state of the server. -/
structure Web where
  tokens : TokenSet
  users : UserSet

section Requests

variable (sha1 : Sha1) (conn : Conn) (root : JsonFields)

/-- The branch `loginType1`. -/
def loginType1 (web : Web) : Response :=
  match tokenGetChallenge conn web.tokens with
  | (.ok, some challenge) => okResponse "loginType1Response" [("challenge", challenge)]
  | _ => errorResponse "loginType1Response" "Client connection is invalid"

/-- The branch `loginType2`; `none` when a null pointer is used as a string. -/
def loginType2 (web : Web) : Option (Response × Web) :=
  let fail := fun what => (errorResponse "loginType2Response" what, web)
  match jsonObjectGetString root "name", jsonObjectGetString root "password",
      jsonObjectGetString root "challenge" with
  | some name, some pass, some challenge => do
    let ret ← tokenCompareChallenge conn challenge web.tokens
    if ret ≠ .ok then return fail "Client status is incorrect"
    match ← userFindName name web.users with
    | none => return fail "User name is invalid"
    | some user =>
      let ret ← userComparePassword sha1 user.id challenge pass web.users
      if ret ≠ 0 then return fail "Password is incorrect"
      let tokens ← tokenUpdateUser conn user.id web.tokens
      return (okResponse "loginType2Response" [("token", bytesOf "123"),
        ("displayName", user.displayName), ("email", user.email)], { web with tokens })
  | _, _, _ => some (fail noParam)

/-- The branch `logout` at the system time `tv`. -/
def logout (tv : UInt64) (web : Web) : Response × Web :=
  match jsonObjectGetString root "token" with
  | none => (errorResponse "errorResponse" noParam, web)
  | some token =>
    let web := { web with tokens := (tokenReset sha1 conn tv web.tokens).2 }
    match token with
    | none => (errorResponse "errorResponse" "Client status is incorrect", web)
    | some _ => (okResponse "logoutResponse" [], web)

/-- The branch `register`. -/
def register (web : Web) : Response × Web :=
  let fail := fun what => (errorResponse "registerResponse" what, web)
  match jsonObjectGetString root "name", jsonObjectGetString root "password",
      jsonObjectGetString root "display_name", jsonObjectGetString root "email" with
  | some name, some password, some displayName, some email =>
    match name, password, email with
    | none, _, _ => fail "Name is null"
    | some _, none, _ => fail "Password is null"
    | some _, some _, none => fail "Email is null"
    | some name, some password, some email =>
      let added := userAddNew name (displayName.getD name) email password web.users
      match added.1 with
      | .userIdExist => fail "Create new user failed(ID)"
      | .userNameExist => fail "Create new user failed(Name)"
      | .userEmailExist => fail "Create new user failed(Email)"
      | _ => (okResponse "registerResponse" [], { web with users := added.2 })
  | _, _, _, _ => fail noParam

/-- `parse_response`; the request is `none` when it is no valid JSON. An action that is not
known gets no response. -/
def parseResponse (tv : UInt64) (request : Option JsonFields) (web : Web) :
    Option (Option Response × Web) :=
  match request with
  | none => some (errorResponse "errorResponse" "Request is not a valid JSON object", web)
  | some root =>
    match jsonObjectGetString root "action" with
    | none => some (errorResponse "errorResponse" noParam, web)
    | some none => some (errorResponse "errorResponse" "Request type is unknown", web)
    | some (some action) =>
      if action = bytesOf "loginType1" then some (loginType1 conn web, web)
      else if action = bytesOf "loginType2" then
        (loginType2 sha1 conn root web).map fun answered => (some answered.1, answered.2)
      else if action = bytesOf "logout" then
        let answered := logout sha1 conn root tv web
        some (some answered.1, answered.2)
      else if action = bytesOf "register" then
        let answered := register root web
        some (some answered.1, answered.2)
      else some (none, web)

end Requests

/-! ## What a request does -/

/-- The request is a logout that resets its connection. -/
def Resets (request : Option JsonFields) : Prop :=
  ∃ root, request = some root ∧
    jsonObjectGetString root "action" = some (some (bytesOf "logout")) ∧
    (jsonObjectGetString root "token").isSome

/-- The request is a `loginType2` that names the user `u`, presents the challenge that the
connection has, and gives a password that begins with the digest of the challenge and the
password of the user. -/
def Answers (sha1 : Sha1) (conn : Conn) (u : Int32) (request : Option JsonFields) (web : Web) :
    Prop :=
  ∃ root pass user token, request = some root ∧
    jsonObjectGetString root "action" = some (some (bytesOf "loginType2")) ∧
    user ∈ web.users.elems ∧ user.id = u ∧
    jsonObjectGetString root "name" = some (some user.name) ∧
    web.tokens.find conn = some token ∧
    jsonObjectGetString root "challenge" = some (some token.challenge) ∧
    jsonObjectGetString root "password" = some (some pass) ∧
    pass.take 40 = hexDigest sha1 (token.challenge ++ user.password)

section Cases

variable {sha1 : Sha1} {conn : Conn} {root : JsonFields} {web web' : Web}

/-- The challenge that is compared is the one of the connection. -/
theorem of_tokenCompareChallenge {challenge : CharPtr} {tokens : TokenSet}
    (h : tokenCompareChallenge conn challenge tokens = some .ok) :
    ∃ token, tokens.find conn = some token ∧ challenge = some token.challenge := by
  unfold tokenCompareChallenge at h
  split at h
  · next token hfind =>
    obtain ⟨s, rfl, hs⟩ := Option.map_eq_some_iff.mp h
    split at hs
    · next heq => exact ⟨token, hfind, by rw [heq]⟩
    · cases hs
  · cases h

theorem of_userFindName {name : CharPtr} {users : UserSet} {user : LmUser}
    (h : userFindName name users = some (some user)) :
    user ∈ users.elems ∧ name = some user.name := by
  obtain ⟨s, rfl, hs⟩ := Option.map_eq_some_iff.mp h
  have hname : user.name = s := by simpa using List.find?_some hs
  exact ⟨MultiIndex.mem_of_find? hs, by rw [hname]⟩

/-- The password that is compared is the one of the user with the id. -/
theorem of_userComparePassword {user : LmUser} {users : UserSet} {challenge password : CharPtr}
    (hmem : user ∈ users.elems)
    (h : userComparePassword sha1 user.id challenge password users = some 0) :
    ∃ c p, challenge = some c ∧ password = some p ∧
      p.take 40 = hexDigest sha1 (c ++ user.password) := by
  have hfind : users.find? (fun other => other.id = user.id) = some user := by
    refine MultiIndex.find?_eq_some (fun a b ha hb => Or.inl ?_) hmem (by simp)
    exact (of_decide_eq_true ha).trans (of_decide_eq_true hb).symm
  simp only [userComparePassword, hfind] at h
  obtain ⟨c, hc, hrest⟩ := Option.bind_eq_some_iff.mp h
  obtain ⟨p, hp, hcmp⟩ := Option.bind_eq_some_iff.mp hrest
  exact ⟨c, p, hc, hp, (strncmp_eq_zero_iff (length_hexDigest _ _)
    (zero_notMem_hexDigest _ _)).mp (Option.some.inj hcmp)⟩

/-- A login changes nothing, or sets the user who has given the right answer. -/
theorem loginType2_cases {response : Response}
    (haction : jsonObjectGetString root "action" = some (some (bytesOf "loginType2")))
    (h : loginType2 sha1 conn root web = some (response, web')) :
    web' = web ∨ ∃ u, Answers sha1 conn u (some root) web ∧
      tokenUpdateUser conn u web.tokens = some web'.tokens ∧ web'.users = web.users ∧
      response.status = true := by
  unfold loginType2 at h
  dsimp only at h
  split at h
  · next name pass challenge hname hpass hchallenge =>
    obtain ⟨ret, hret, hfind⟩ := Option.bind_eq_some_iff.mp h
    split at hfind
    · cases hfind
      exact Or.inl rfl
    · next hok =>
      obtain rfl := not_not.mp hok
      obtain ⟨found, hfound, hcheck⟩ := Option.bind_eq_some_iff.mp hfind
      cases found with
      | none =>
        cases hcheck
        exact Or.inl rfl
      | some user =>
        obtain ⟨ret, hcmp, hupdate⟩ := Option.bind_eq_some_iff.mp hcheck
        split at hupdate
        · cases hupdate
          exact Or.inl rfl
        · next hzero =>
          obtain rfl := not_not.mp hzero
          obtain ⟨tokens, htokens, hdone⟩ := Option.bind_eq_some_iff.mp hupdate
          cases hdone
          -- All three checks have succeeded.
          obtain ⟨token, htoken, rfl⟩ := of_tokenCompareChallenge hret
          obtain ⟨hmem, rfl⟩ := of_userFindName hfound
          obtain ⟨c, p, hc, rfl, hdigest⟩ := of_userComparePassword hmem hcmp
          obtain rfl := Option.some.inj hc
          exact Or.inr ⟨user.id, ⟨root, p, user, token, rfl, haction, hmem, rfl, hname, htoken,
            hchallenge, hpass, hdigest⟩, htokens, rfl, rfl⟩
  · cases h
    exact Or.inl rfl

theorem register_tokens : (register root web).2.tokens = web.tokens := by
  unfold register
  dsimp only
  split
  · split
    · rfl
    · rfl
    · rfl
    · split <;> rfl
  · rfl

/-- What a request can do to the tokens: nothing, a reset of the connection by a logout,
or the login of a user who has given the right answer. -/
theorem parseResponse_cases {tv : UInt64} {request : Option JsonFields}
    {response : Option Response}
    (h : parseResponse sha1 conn tv request web = some (response, web')) :
    (web'.tokens = web.tokens ∧ ¬ Resets request) ∨
      (web'.tokens = (tokenReset sha1 conn tv web.tokens).2 ∧ Resets request) ∨
      ∃ u, Answers sha1 conn u request web ∧ tokenUpdateUser conn u web.tokens = some web'.tokens ∧
        ¬ Resets request := by
  unfold parseResponse at h
  split at h
  · cases h
    exact Or.inl ⟨rfl, by simp [Resets]⟩
  · next root =>
    split at h
    · next haction =>
      cases h
      exact Or.inl ⟨rfl, by simp [Resets, haction]⟩
    · next haction =>
      cases h
      exact Or.inl ⟨rfl, by simp [Resets, haction]⟩
    · next action haction =>
      have hresets : Resets (some root) ↔ action = bytesOf "logout" ∧
          (jsonObjectGetString root "token").isSome := by
        simp [Resets, haction]
      have hother : action ≠ bytesOf "logout" → ¬ Resets (some root) :=
        fun hne hreset => hne (hresets.mp hreset).1
      split at h
      · next hlogin =>
        cases h
        exact Or.inl ⟨rfl, hother (by rw [hlogin]; decide)⟩
      · split at h
        · next hlogin =>
          have hno := hother (by rw [hlogin]; decide)
          obtain ⟨answered, hanswered, hdone⟩ := Option.map_eq_some_iff.mp h
          cases hdone
          rcases loginType2_cases (by rw [haction, hlogin]) hanswered with hsame | ⟨u, hu, ht, _⟩
          · exact Or.inl ⟨by rw [hsame], hno⟩
          · exact Or.inr (Or.inr ⟨u, hu, ht, hno⟩)
        · split at h
          · next hlogout =>
            cases h
            unfold logout
            split
            · next hnone => exact Or.inl ⟨rfl, fun hreset => by simp [hresets, hnone] at hreset⟩
            · next token hsome =>
              refine Or.inr (Or.inl ⟨?_, hresets.mpr ⟨hlogout, by simp [hsome]⟩⟩)
              dsimp only
              split <;> rfl
          · next hlogout =>
            have hno := hother hlogout
            split at h
            · cases h
              exact Or.inl ⟨register_tokens, hno⟩
            · cases h
              exact Or.inl ⟨rfl, hno⟩

theorem exists_tokenCompareChallenge (conn : Conn) (challenge : Bytes) (tokens : TokenSet) :
    ∃ ret, tokenCompareChallenge conn (some challenge) tokens = some ret := by
  unfold tokenCompareChallenge
  split
  · exact ⟨_, rfl⟩
  · exact ⟨_, rfl⟩

theorem exists_userComparePassword (sha1 : Sha1) (id : Int32) (challenge password : Bytes)
    (users : UserSet) :
    ∃ ret, userComparePassword sha1 id (some challenge) (some password) users = some ret := by
  unfold userComparePassword
  split
  · exact ⟨_, rfl⟩
  · exact ⟨_, rfl⟩

theorem exists_tokenUpdateUser {tokens : TokenSet} {token : LmToken}
    (h : tokens.find conn = some token) (uid : Int32) :
    ∃ tokens', tokenUpdateUser conn uid tokens = some tokens' := by
  rw [tokenUpdateUser, MultiIndex.modify, ← TokenSet.find, h]
  exact ⟨_, rfl⟩

/-- A login with three strings is answered. The token that is written to exists, because
its challenge has been compared. -/
theorem loginType2_isSome {name pass challenge : Bytes}
    (hname : jsonObjectGetString root "name" = some (some name))
    (hpass : jsonObjectGetString root "password" = some (some pass))
    (hchallenge : jsonObjectGetString root "challenge" = some (some challenge)) :
    (loginType2 sha1 conn root web).isSome := by
  simp only [loginType2, hname, hpass, hchallenge]
  obtain ⟨ret, hret⟩ := exists_tokenCompareChallenge conn challenge web.tokens
  rw [hret, Option.bind_eq_bind, Option.bind_some]
  split
  · rfl
  · next hok =>
    rw [not_not.mp hok] at hret
    obtain ⟨token, hfind, _⟩ := of_tokenCompareChallenge hret
    rw [userFindName, Option.map_some, Option.bind_eq_bind, Option.bind_some]
    split
    · rfl
    · next user _ =>
      obtain ⟨ret, hcmp⟩ := exists_userComparePassword sha1 user.id challenge pass web.users
      obtain ⟨tokens, htokens⟩ := exists_tokenUpdateUser hfind user.id
      rw [hcmp, htokens, Option.bind_eq_bind, Option.bind_some]
      split <;> rfl

/-- With string members only, no null pointer is used and the request is answered. -/
theorem parseResponse_isSome (tv : UInt64) (hstring : ∀ name, root name ≠ some .other) :
    (parseResponse sha1 conn tv (some root) web).isSome := by
  have hget : ∀ name value, jsonObjectGetString root name = some value → ∃ s, value = some s := by
    intro name value h
    obtain ⟨v, hv, rfl⟩ := Option.map_eq_some_iff.mp h
    cases v with
    | string s => exact ⟨s, rfl⟩
    | other => exact absurd hv (hstring name)
  have hlogin : (loginType2 sha1 conn root web).isSome := by
    cases hname : jsonObjectGetString root "name" with
    | none => simp [loginType2, hname]
    | some name =>
      cases hpass : jsonObjectGetString root "password" with
      | none => simp [loginType2, hname, hpass]
      | some pass =>
        cases hchallenge : jsonObjectGetString root "challenge" with
        | none => simp [loginType2, hname, hpass, hchallenge]
        | some challenge =>
          obtain ⟨name, rfl⟩ := hget _ _ hname
          obtain ⟨pass, rfl⟩ := hget _ _ hpass
          obtain ⟨challenge, rfl⟩ := hget _ _ hchallenge
          exact loginType2_isSome hname hpass hchallenge
  unfold parseResponse
  dsimp only
  split
  · rfl
  · rfl
  · split
    · rfl
    · split
      · simpa using hlogin
      · split
        · rfl
        · split <;> rfl

end Cases

/-! ## The history of the server -/

/-- The events: a connection is opened or closed, or sends a request. -/
inductive WebEvent
  | opened (conn : Conn) (localIp remoteIp : Bytes) (tv : UInt64)
  | closed (conn : Conn)
  | request (conn : Conn) (tv : UInt64) (json : Option JsonFields)

/-- The state of the server, the connections that are open, and the log of the events with
the states before them, the latest first. -/
structure WebState where
  web : Web
  conns : List Conn
  log : List (WebEvent × Web)

/-- The server has started and has loaded its users. -/
def WebState.init (users : UserSet) : WebState := ⟨⟨.init, users⟩, [], []⟩

/-- `on_open`, `on_close` and `on_message`. A connection that is open has an address of its
own. `on_message` also calls `token_update_time`, which is left out: nothing here reads the time
of a token again. -/
def WebEvent.step (sha1 : Sha1) (e : WebEvent) (s : WebState) : Option WebState :=
  match e with
  | .opened conn localIp remoteIp tv =>
    if conn ∈ s.conns then none
    else
      let tokens := (tokenInsert sha1 conn localIp remoteIp tv s.web.tokens).2
      some ⟨{ s.web with tokens }, conn :: s.conns, (e, s.web) :: s.log⟩
  | .closed conn =>
    some ⟨{ s.web with tokens := tokenErase conn s.web.tokens }, s.conns.filter (· ≠ conn),
      (e, s.web) :: s.log⟩
  | .request conn tv json =>
    (parseResponse sha1 conn tv json s.web).map fun answered =>
      ⟨answered.2, s.conns, (e, s.web) :: s.log⟩

/-- A request of the connection gave the right answer to its challenge, as the user `u`. -/
def LoggedIn (sha1 : Sha1) (conn : Conn) (u : Int32) (entry : WebEvent × Web) : Prop :=
  ∃ tv request, entry.1 = .request conn tv request ∧ Answers sha1 conn u request entry.2

/-- The connection was opened, or reset by a logout. -/
def Cleared (conn : Conn) (entry : WebEvent × Web) : Prop :=
  (∃ localIp remoteIp tv, entry.1 = .opened conn localIp remoteIp tv) ∨
    ∃ tv request, entry.1 = .request conn tv request ∧ Resets request

/-- Every token belongs to an open connection, and has a user only after a login. -/
structure WebInv (sha1 : Sha1) (s : WebState) : Prop where
  blank : s.web.tokens.Blank
  conns : ∀ t ∈ s.web.tokens.set.elems, t.conn ∈ s.conns
  user : ∀ t ∈ s.web.tokens.set.elems, t.userId ≠ 0 →
    Run.Since (LoggedIn sha1 t.conn t.userId) (Cleared t.conn) s.log

namespace WebInv

variable {sha1 : Sha1} {s s' : WebState}

theorem init (users : UserSet) : WebInv sha1 (.init users) :=
  ⟨fun _ h => absurd h List.not_mem_nil, fun _ h => absurd h List.not_mem_nil,
    fun _ h => absurd h List.not_mem_nil⟩

/-- A token that an event leaves as it was. -/
theorem keep (hs : WebInv sha1 s) {t : LmToken} (ht : t ∈ s.web.tokens.set.elems)
    {e : WebEvent} (he : ¬ Cleared t.conn (e, s.web)) (hne : t.userId ≠ 0) :
    Run.Since (LoggedIn sha1 t.conn t.userId) (Cleared t.conn) ((e, s.web) :: s.log) :=
  Run.since_cons_iff.mpr (Or.inr ⟨he, hs.user t ht hne⟩)

theorem opened (hs : WebInv sha1 s) {conn : Conn} {localIp remoteIp : Bytes} {tv : UInt64}
    (h : (WebEvent.opened conn localIp remoteIp tv).step sha1 s = some s') : WebInv sha1 s' := by
  simp only [WebEvent.step] at h
  split at h
  · cases h
  · next hnew =>
    cases h
    refine ⟨hs.blank.insert, fun t ht => ?_, fun t ht hne => ?_⟩
    · rcases of_mem_tokenInsert ht with ht | ⟨rfl, _⟩
      · exact List.mem_cons_of_mem _ (hs.conns t ht)
      · exact List.mem_cons_self
    · rcases of_mem_tokenInsert ht with hold | ⟨_, huser, _⟩
      · refine hs.keep hold ?_ hne
        rintro (⟨_, _, _, heq⟩ | ⟨_, _, heq, _⟩)
        · cases heq
          exact hnew (hs.conns t hold)
        · cases heq
      · exact absurd huser hne

theorem closed (hs : WebInv sha1 s) {conn : Conn}
    (h : (WebEvent.closed conn).step sha1 s = some s') : WebInv sha1 s' := by
  cases h
  refine ⟨hs.blank.erase, fun t ht => ?_, fun t ht hne => ?_⟩
  · obtain ⟨ht, hconn⟩ := mem_tokenErase.mp ht
    exact List.mem_filter.mpr ⟨hs.conns t ht, by simpa using hconn⟩
  · refine hs.keep (mem_tokenErase.mp ht).1 ?_ hne
    rintro (⟨_, _, _, heq⟩ | ⟨_, _, heq, _⟩) <;> cases heq

/-- A request that does not reset its connection clears no user. -/
theorem not_cleared {conn conn' : Conn} {tv : UInt64} {request : Option JsonFields} {web : Web}
    (h : conn' ≠ conn ∨ ¬ Resets request) :
    ¬ Cleared conn' (.request conn tv request, web) := by
  rintro (⟨_, _, _, heq⟩ | ⟨_, _, heq, hreset⟩)
  · cases heq
  · cases heq
    rcases h with hne | hno
    · exact hne rfl
    · exact hno hreset

/-- A connection that is reset has no user, and the others keep theirs. -/
theorem reset (hs : WebInv sha1 s) {conn : Conn} {tv : UInt64} {json : Option JsonFields}
    {web : Web} (htokens : web.tokens = (tokenReset sha1 conn tv s.web.tokens).2) :
    WebInv sha1 ⟨web, s.conns, (.request conn tv json, s.web) :: s.log⟩ := by
  have hmem : ∀ t ∈ web.tokens.set.elems,
      (t ∈ s.web.tokens.set.elems ∧ t.conn ≠ conn) ∨ (t.conn ∈ s.conns ∧ t.userId = 0) := by
    intro t ht
    rw [htokens] at ht
    cases hfind : s.web.tokens.find conn with
    | none =>
      rw [tokenReset_of_find_none hfind] at ht
      exact Or.inl ⟨ht, find_eq_none_iff.mp hfind t ht⟩
    | some old =>
      rcases (mem_tokenReset hs.blank hfind).mp ht with hkept | rfl
      · exact Or.inl hkept
      · exact Or.inr ⟨hs.conns old (find_eq_some_iff.mp hfind).1, rfl⟩
  refine ⟨htokens ▸ hs.blank.reset, fun t ht => ?_, fun t ht hne => ?_⟩
  · rcases hmem t ht with ⟨ht, _⟩ | ⟨hconn, _⟩
    · exact hs.conns t ht
    · exact hconn
  · rcases hmem t ht with ⟨ht, hconn⟩ | ⟨_, huser⟩
    · exact hs.keep ht (not_cleared (Or.inl hconn)) hne
    · exact absurd huser hne

/-- The user of a connection is the one who has given the right answer. -/
theorem update (hs : WebInv sha1 s) {conn : Conn} {tv : UInt64} {json : Option JsonFields}
    {web : Web} {u : Int32} (hanswers : Answers sha1 conn u json s.web)
    (hupdate : tokenUpdateUser conn u s.web.tokens = some web.tokens) (hno : ¬ Resets json) :
    WebInv sha1 ⟨web, s.conns, (.request conn tv json, s.web) :: s.log⟩ := by
  obtain ⟨old, hold, hmem⟩ := mem_tokenUpdateUser hupdate
  obtain ⟨holdmem, hconn⟩ := find_eq_some_iff.mp hold
  refine ⟨hs.blank.updateUser hupdate, fun t ht => ?_, fun t ht hne => ?_⟩
  · rcases (hmem t).mp ht with ⟨ht, _⟩ | rfl
    · exact hs.conns t ht
    · exact hs.conns old holdmem
  · rcases (hmem t).mp ht with ⟨ht, _⟩ | rfl
    · exact hs.keep ht (not_cleared (Or.inr hno)) hne
    · refine Run.since_cons_iff.mpr (Or.inl ⟨tv, json, ?_, ?_⟩)
      · dsimp only
        rw [hconn]
      · dsimp only
        rw [hconn]
        exact hanswers

theorem step (hs : WebInv sha1 s) {e : WebEvent} (h : e.step sha1 s = some s') :
    WebInv sha1 s' := by
  cases e with
  | opened conn localIp remoteIp tv => exact hs.opened h
  | closed conn => exact hs.closed h
  | request conn tv json =>
    obtain ⟨answered, hanswered, rfl⟩ := Option.map_eq_some_iff.mp h
    rcases parseResponse_cases hanswered with
      ⟨htokens, hno⟩ | ⟨htokens, _⟩ | ⟨u, hanswers, hupdate, hno⟩
    · refine ⟨fun t ht => ?_, fun t ht => ?_, fun t ht hne => ?_⟩
      · exact hs.blank t (htokens ▸ ht)
      · exact hs.conns t (htokens ▸ ht)
      · exact hs.keep (htokens ▸ ht) (not_cleared (Or.inr hno)) hne
    · exact hs.reset htokens
    · exact hs.update hanswers hupdate hno

end WebInv

/-- In every run of the server, whoever the users are that it has loaded: a connection has the
user `u` only if, since it was opened or last reset by a logout, a request of the connection
has given the right answer to its challenge as `u`. -/
theorem user_id_of_run {sha1 : Sha1} {users : UserSet} {s : WebState}
    (h : Run.Reachable (WebEvent.step sha1) (fun _ _ => True) (.init users) s) {t : LmToken}
    (ht : t ∈ s.web.tokens.set.elems) (hu : t.userId ≠ 0) :
    Run.Since (LoggedIn sha1 t.conn t.userId) (Cleared t.conn) s.log :=
  (h.invariant (fun _ _ _ _ hstep hs => hs.step hstep) (WebInv.init users)).user t ht hu

/-- A JSON object with string members. -/
def stringFields (members : List (String × Bytes)) : JsonFields := fun name =>
  (members.find? fun member => member.1 = name).map fun member => .string member.2

/-- The digest of a SHA-1 that is always zero. -/
def zeroDigest : Bytes := List.replicate 40 48

/-- A user registers and logs in. -/
def loginEvents : List WebEvent :=
  [.opened 1 [] [] 0,
    .request 1 0 (some (stringFields [("action", bytesOf "register"), ("name", bytesOf "a"),
      ("password", bytesOf "p"), ("display_name", bytesOf "a"), ("email", bytesOf "e")])),
    .request 1 0 (some (stringFields [("action", bytesOf "loginType2"), ("name", bytesOf "a"),
      ("password", zeroDigest), ("challenge", zeroDigest)]))]

theorem user_id_of_run_login :
    ∃ (s : WebState) (t : LmToken), t ∈ s.web.tokens.set.elems ∧ t.userId = 1 ∧
      Run.Since (LoggedIn (fun _ _ => 0) t.conn t.userId) (Cleared t.conn) s.log := by
  obtain ⟨s, hreach, hs⟩ := Run.exists_reachable_of_execute (WebEvent.step fun _ _ => 0)
    (fun _ _ => True) loginEvents (s := .init .empty)
    (p := fun s => ∃ t ∈ s.web.tokens.set.elems, t.userId = 1) (by decide +kernel)
  obtain ⟨t, ht, huser⟩ := of_decide_eq_true hs
  exact ⟨s, t, ht, huser, user_id_of_run hreach ht (by rw [huser]; decide)⟩

end LMiced
