import LMiced.Web.User

/-!
# Registering users

Sequences of calls of `user_add_new` from the empty set, the latest call first. A user is a
newcomer when no earlier newcomer has the name or the e-mail address. As long as there are
fewer than `2 ^ 31` newcomers the set has them all, with their numbers as ids.

* `elems_registered`: the users of a sequence of calls;
* `registration_sound_iff`: the sequences in which every call does what it should. The id is
  one more than the size of the set, converted to a signed 32-bit number.
-/

namespace LMiced.Users

/-! ## The calls -/

/-- The arguments of a call. -/
structure NewUser where
  name : Bytes
  displayName : Bytes
  email : Bytes
  password : Bytes
deriving DecidableEq, Repr

/-- `*id`, for a call that gets past the check of the name. -/
def newId (users : UserSet) : Int32 := Int32.ofNat (users.size + 1)

namespace NewUser

/-- The record with the given id. -/
def record (id : Int32) (call : NewUser) : LmUser :=
  ⟨id, call.name, call.displayName, call.email, call.password⟩

/-- The call. -/
def add (call : NewUser) (users : UserSet) : WebErr × UserSet :=
  userAddNew call.name call.displayName call.email call.password users

end NewUser

/-- The set behind a sequence of calls. -/
def registered : List NewUser → UserSet
  | [] => .empty
  | call :: earlier => (call.add (registered earlier)).2

/-! ## What is to be expected -/

/-- Two calls for one name or one address. -/
def NewUser.Same (a b : NewUser) : Prop := a.name = b.name ∨ a.email = b.email

instance NewUser.decidableSame : DecidableRel NewUser.Same := fun a b =>
  inferInstanceAs (Decidable (a.name = b.name ∨ a.email = b.email))

/-- The calls for a new name and a new address. -/
def newcomers : List NewUser → List NewUser
  | [] => []
  | call :: earlier =>
    if ∃ old ∈ newcomers earlier, call.Same old then newcomers earlier
    else call :: newcomers earlier

/-- The newcomers as users, with their numbers as ids. -/
def numbered : List NewUser → List LmUser
  | [] => []
  | call :: earlier => call.record (Int32.ofNat (earlier.length + 1)) :: numbered earlier

/-- The ids, names and addresses are distinct, and the ids are the numbers up to the size. -/
structure Numbered (users : UserSet) : Prop where
  distinct : users.elems.Pairwise fun a b => a.id ≠ b.id ∧ a.name ≠ b.name ∧ a.email ≠ b.email
  ids : ∀ i : Int, (∃ user ∈ users.elems, user.id.toInt = i) ↔ 1 ≤ i ∧ i ≤ users.size

/-- A call never finds its id in use, and leaves the set as it was when it fails. A call that
succeeds is found with the new id, and every earlier user is found as before. -/
structure Right (call : NewUser) (users : UserSet) : Prop where
  id_free : (call.add users).1 ≠ .userIdExist
  failed : (call.add users).1 ≠ .ok → (call.add users).2 = users
  found : (call.add users).1 = .ok →
    userFindName (some call.name) (call.add users).2 = some (some (call.record (newId users)))
  kept : (call.add users).1 = .ok → ∀ user ∈ users.elems,
    userFindName (some user.name) (call.add users).2 = some (some user)

/-- Every call of the sequence is right, and leads to a set with numbered users. -/
def Sound (log : List NewUser) : Prop :=
  (∀ log', log' <:+ log → Numbered (registered log')) ∧
    ∀ call earlier, call :: earlier <:+ log → Right call (registered earlier)

/-! ## One call -/

variable {call : NewUser} {users : UserSet}

/-- The name or the address is that of a user. -/
def Taken (call : NewUser) (users : UserSet) : Prop :=
  ∃ user ∈ users.elems, user.name = call.name ∨ user.email = call.email

theorem find?_isSome_iff {p : LmUser → Prop} [DecidablePred p] :
    (users.find? fun user => p user).isSome ↔ ∃ user ∈ users.elems, p user := by
  simp [MultiIndex.find?]

/-- The only calls that fail in spite of a new name and address are those whose id is in
use. -/
theorem add_cases (call : NewUser) (users : UserSet) :
    (Taken call users ∧ (call.add users).1 ≠ .ok ∧ (call.add users).1 ≠ .userIdExist ∧
      (call.add users).2 = users) ∨
    ((∃ user ∈ users.elems, user.id = newId users) ∧ (call.add users).1 = .userIdExist ∧
      (call.add users).2 = users) ∨
    (¬ Taken call users ∧ (call.add users).1 = .ok ∧
      (call.add users).2.elems = call.record (newId users) :: users.elems) := by
  unfold NewUser.add userAddNew
  dsimp only
  split
  · next hname =>
    obtain ⟨user, hmem, hname⟩ := find?_isSome_iff.mp hname
    exact .inl ⟨⟨user, hmem, .inl hname⟩, by simp, by simp, rfl⟩
  · next hname =>
    split
    · next hid => exact .inr (.inl ⟨find?_isSome_iff.mp hid, rfl, rfl⟩)
    · next hid =>
      split
      · next hemail =>
        obtain ⟨user, hmem, hemail⟩ := find?_isSome_iff.mp hemail
        exact .inl ⟨⟨user, hmem, .inr hemail⟩, by simp, by simp, rfl⟩
      · next hemail =>
        rw [find?_isSome_iff] at hname hid hemail
        refine .inr (.inr ⟨?_, rfl, MultiIndex.elems_insert ?_⟩)
        · rintro ⟨user, hmem, hn | he⟩
          · exact hname ⟨user, hmem, hn⟩
          · exact hemail ⟨user, hmem, he⟩
        · rintro ⟨user, hmem, hi | he | hn⟩
          · exact hid ⟨user, hmem, hi.symm⟩
          · exact hemail ⟨user, hmem, he.symm⟩
          · exact hname ⟨user, hmem, hn.symm⟩

/-- The name is a unique key. -/
theorem userFindName_of_mem {user : LmUser} (h : user ∈ users.elems) :
    userFindName (some user.name) users = some (some user) := by
  refine congrArg some (MultiIndex.find?_eq_some ?_ h (decide_eq_true rfl))
  intro a b ha hb
  exact .inr (.inr ((of_decide_eq_true ha).trans (of_decide_eq_true hb).symm))

/-- A call is right when its id is free. -/
theorem right_of_id_free (h : ∀ user ∈ users.elems, user.id ≠ newId users) :
    Right call users := by
  rcases add_cases call users with ⟨_, hok, hid, hsame⟩ | ⟨⟨user, hmem, hid⟩, _⟩ | ⟨_, hok, helems⟩
  · exact ⟨hid, fun _ => hsame, fun h => absurd h hok, fun h => absurd h hok⟩
  · exact absurd hid (h user hmem)
  · refine ⟨by simp [hok], fun h => absurd hok h, fun _ => ?_, fun _ user hmem => ?_⟩
    · have hmem : call.record (newId users) ∈ _ := helems ▸ List.mem_cons_self
      exact userFindName_of_mem hmem
    · refine userFindName_of_mem ?_
      rw [helems]
      exact List.mem_cons_of_mem _ hmem

/-! ## The users and the newcomers -/

/-- The call that has led to a user. -/
def callOf (user : LmUser) : NewUser := ⟨user.name, user.displayName, user.email, user.password⟩

theorem map_callOf_numbered (log : List NewUser) : (numbered log).map callOf = log := by
  induction log with
  | nil => rfl
  | cons call log ih => exact congrArg (call :: ·) ih

theorem taken_iff {log : List NewUser} (h : users.elems.map callOf = log) :
    Taken call users ↔ ∃ old ∈ log, call.Same old := by
  subst h
  simp only [List.mem_map, exists_exists_and_eq_and]
  refine exists_congr fun user => and_congr_right fun _ => ?_
  exact or_congr eq_comm eq_comm

/-- One call, for a set that has the newcomers. -/
theorem callOf_add {earlier : List NewUser} (h : users.elems.map callOf = newcomers earlier)
    (hid : (call.add users).1 ≠ .userIdExist) :
    (call.add users).2.elems.map callOf = newcomers (call :: earlier) := by
  unfold newcomers
  rcases add_cases call users with ⟨htaken, _, _, hsame⟩ | ⟨_, hexist, _⟩ | ⟨hnew, _, helems⟩
  · rw [if_pos ((taken_iff h).mp htaken), hsame, h]
  · exact absurd hexist hid
  · rw [if_neg fun hex => hnew ((taken_iff h).mpr hex), helems, List.map_cons, h]
    rfl

/-- As long as no call finds its id in use, the set has the newcomers. -/
theorem map_callOf_registered {log : List NewUser}
    (h : ∀ call earlier, call :: earlier <:+ log →
      (call.add (registered earlier)).1 ≠ .userIdExist) :
    (registered log).elems.map callOf = newcomers log := by
  induction log with
  | nil => rfl
  | cons call earlier ih =>
    refine callOf_add (ih fun call' earlier' hsuffix => ?_) (h call earlier List.suffix_rfl)
    exact h call' earlier' (hsuffix.trans (List.suffix_cons _ _))

/-! ## The ids -/

theorem length_numbered (log : List NewUser) : (numbered log).length = log.length := by
  rw [← List.length_map callOf, map_callOf_numbered]

theorem toInt_ofNat_succ {n : Nat} (h : n + 1 < 2 ^ 31) :
    (Int32.ofNat (n + 1)).toInt = (n : Int) + 1 := by
  rw [Int32.toInt_ofNat_of_lt h]
  rfl

theorem ids_numbered {log : List NewUser} (h : log.length < 2 ^ 31) (i : Int) :
    (∃ user ∈ numbered log, user.id.toInt = i) ↔ 1 ≤ i ∧ i ≤ log.length := by
  induction log with
  | nil =>
    simp [numbered]
    omega
  | cons call log ih =>
    have hlast : ((call.record (Int32.ofNat (log.length + 1))).id).toInt = (log.length : Int) + 1 :=
      toInt_ofNat_succ h
    simp only [numbered, List.exists_mem_cons_iff, hlast, ih (Nat.lt_of_succ_lt h),
      List.length_cons]
    omega

/-- A set of numbered users. -/
theorem numbered_of_elems {log : List NewUser} (helems : users.elems = numbered log)
    (h : log.length < 2 ^ 31) : Numbered users := by
  refine ⟨users.apart.imp fun hno => ?_, fun i => ?_⟩
  · exact ⟨fun hid => hno (.inl hid), fun hname => hno (.inr (.inr hname)),
      fun hemail => hno (.inr (.inl hemail))⟩
  · rw [MultiIndex.size, helems, length_numbered]
    exact ids_numbered h i

/-- The number behind the last one is free, also when it wraps to a negative one. -/
theorem Numbered.id_free (hnum : Numbered users) (h : users.size < 2 ^ 31) :
    ∀ user ∈ users.elems, user.id ≠ newId users := by
  intro user hmem hid
  obtain ⟨hone, hle⟩ := (hnum.ids _).mp ⟨user, hmem, rfl⟩
  rw [hid, newId, Int32.toInt_ofNat', Int.bmod, Int32.size] at hone hle
  split at hle <;> omega

/-- The users are the newcomers, with their numbers. -/
theorem elems_registered {log : List NewUser} (h : (newcomers log).length < 2 ^ 31) :
    (registered log).elems = numbered (newcomers log) := by
  induction log with
  | nil => rfl
  | cons call earlier ih =>
    have hlen : (newcomers earlier).length < 2 ^ 31 := by
      unfold newcomers at h
      split at h
      · exact h
      · exact Nat.lt_of_succ_lt h
    have helems := ih hlen
    have hsize : (registered earlier).size = (newcomers earlier).length := by
      rw [MultiIndex.size, helems, length_numbered]
    have hcalls : (registered earlier).elems.map callOf = newcomers earlier := by
      rw [helems, map_callOf_numbered]
    have hfree := (numbered_of_elems helems hlen).id_free (hsize ▸ hlen)
    rw [registered, newcomers]
    rcases add_cases call (registered earlier) with
      ⟨htaken, _, _, hsame⟩ | ⟨⟨user, hmem, hid⟩, _⟩ | ⟨hnew, _, hadd⟩
    · rw [if_pos ((taken_iff hcalls).mp htaken), hsame, helems]
    · exact absurd hid (hfree user hmem)
    · rw [if_neg fun hex => hnew ((taken_iff hcalls).mpr hex), hadd, helems, newId, hsize]
      rfl

/-! ## Sequences of calls -/

theorem length_newcomers_mono {log log' : List NewUser} (h : log' <:+ log) :
    (newcomers log').length ≤ (newcomers log).length := by
  induction log with
  | nil => rw [List.suffix_nil.mp h]
  | cons call log ih =>
    rcases List.suffix_cons_iff.mp h with rfl | h
    · exact le_rfl
    · refine (ih h).trans ?_
      rw [newcomers]
      split
      · exact le_rfl
      · exact Nat.le_succ _

/-- A set with a user for each newcomer has one whose id is their number. -/
theorem length_newcomers_of_sound {log : List NewUser} (h : Sound log) :
    (newcomers log).length < 2 ^ 31 := by
  have hcalls := map_callOf_registered fun call earlier hs => (h.2 call earlier hs).id_free
  have hsize : (registered log).size = (newcomers log).length := by
    rw [← hcalls, List.length_map]
    rfl
  rw [← hsize]
  rcases Nat.eq_zero_or_pos (registered log).size with hzero | hpos
  · rw [hzero]
    decide
  · obtain ⟨user, _, hid⟩ := ((h.1 log List.suffix_rfl).ids (registered log).size).mpr
      ⟨Int.ofNat_lt.mpr hpos, le_rfl⟩
    have hlt := user.id.toInt_lt
    omega

/-- **Every call of a sequence does what it should if and only if there are fewer than
`2 ^ 31` newcomers.** -/
theorem registration_sound_iff (log : List NewUser) :
    Sound log ↔ (newcomers log).length < 2 ^ 31 := by
  constructor
  · exact length_newcomers_of_sound
  · intro h
    have hnum : ∀ log', log' <:+ log → Numbered (registered log') := by
      intro log' hsuffix
      have hlen := (length_newcomers_mono hsuffix).trans_lt h
      exact numbered_of_elems (elems_registered hlen) hlen
    refine ⟨hnum, fun call earlier hsuffix => right_of_id_free ?_⟩
    have hearlier := (List.suffix_cons call earlier).trans hsuffix
    have hlen := (length_newcomers_mono hearlier).trans_lt h
    refine (hnum earlier hearlier).id_free ?_
    rwa [MultiIndex.size, elems_registered hlen, length_numbered]

/-! ## Too many users -/

/-- The decimal digits of a number, the last one first. -/
def nameOf (n : Nat) : Bytes := (Nat.digits 10 n).map fun d => UInt8.ofNat (48 + d)

/-- `n` users with different names and addresses. -/
def crowd (n : Nat) : List NewUser :=
  (List.range n).map fun i => ⟨nameOf (i + 1), [], nameOf (i + 1), []⟩

theorem digits_of_nameOf (n : Nat) :
    (nameOf n).map (fun b => b.toNat - 48) = Nat.digits 10 n := by
  rw [nameOf, List.map_map]
  refine (List.map_congr_left fun d hd => ?_).trans (List.map_id _)
  have hlt := Nat.digits_lt_base (by decide : 1 < 10) hd
  show (UInt8.ofNat (48 + d)).toNat - 48 = d
  rw [UInt8.toNat_ofNat']
  omega

theorem nameOf_injective : Function.Injective nameOf := by
  intro m n h
  refine Nat.digits.injective 10 ?_
  rw [← digits_of_nameOf, ← digits_of_nameOf, h]

theorem newcomers_of_pairwise {log : List NewUser} (h : log.Pairwise fun a b => ¬ a.Same b) :
    newcomers log = log := by
  induction log with
  | nil => rfl
  | cons call log ih =>
    obtain ⟨hcall, hlog⟩ := List.pairwise_cons.mp h
    rw [newcomers, ih hlog, if_neg]
    rintro ⟨old, hmem, hsame⟩
    exact hcall old hmem hsame

theorem newcomers_crowd (n : Nat) : newcomers (crowd n) = crowd n := by
  refine newcomers_of_pairwise (List.pairwise_map.mpr (List.nodup_range.imp ?_))
  intro i j hne hsame
  exact hne (Nat.succ.inj (nameOf_injective (hsame.elim id id)))

theorem crowd_not_sound : ¬ ∀ log, Sound log := by
  intro h
  have hlt := length_newcomers_of_sound (h (crowd (2 ^ 31)))
  rw [newcomers_crowd, crowd, List.length_map, List.length_range] at hlt
  exact absurd hlt (Nat.lt_irrefl _)

end LMiced.Users
