import LMiced.Eal.Hash

/-!
# Identities

Workers and messages are identified by hashes: `lmice_spi::create_worker_resource`
and `create_server_worker_resource` compute the instance id of a worker, and
`register_publish` and `register_subscribe` that of a message. The ids name the
shared memories in which the processes meet.

* `worker_id_ne_server_id`: the client leaves the process id out, so its id is never
  the one of the server's formula, and is the same in all processes;
* `message_bytes_determine_iff`: when the bytes that are hashed for a message determine
  its session, type and instance.
-/

namespace LMiced

/-! ## Worker ids -/

/-- `CLIENT_SHMNAME`, without its terminating zero. -/
def clientShmname : List UInt8 :=
  "CC597303-0F85-40B2-8BDC-4724BD".toList.map fun c => UInt8.ofNat c.toNat

/-- `eal_tid_t`, a word of 32 bits on Windows and of 64 bits elsewhere. -/
inductive EalTid
  | word32 (tid : UInt32)
  | word64 (tid : UInt64)
deriving DecidableEq, Repr

/-- The thread id in memory. -/
def EalTid.bytes : EalTid → List UInt8
  | word32 tid => leBytes 4 tid.toNat
  | word64 tid => bytes64 tid

/-- The instance id of `lmice_spi::create_worker_resource`. The hash of the process
id is overwritten by the hash of the thread id. -/
def createWorkerResource (build : Build) (processId : Int32) (threadId : EalTid) : UInt64 :=
  let _instId := ealHash64Fnv1a build (bytes32 processId)
  let instId := ealHash64Fnv1a build threadId.bytes
  ealHash64MoreFnv1a build clientShmname instId

/-- The worker id of `create_server_worker_resource`. The server calls it for the
thread id 0. -/
def createServerWorkerResource (build : Build) (pid : Int32) (tid : EalTid) : UInt64 :=
  let workerId := ealHash64Fnv1a build (bytes32 pid)
  let workerId := ealHash64MoreFnv1a build tid.bytes workerId
  ealHash64MoreFnv1a build clientShmname workerId

/-- A byte changes the value by less than 256 before the multiplication. -/
theorem exists_fnvStep64_eq (build : Build) (hval : UInt64) (byte : UInt8) :
    ∃ d k : Int, -255 ≤ d ∧ d ≤ 255 ∧
      ((fnvStep64 build hval byte).toNat : Int) =
        (hval.toNat + d) * 1099511628211 + k * 18446744073709551616 := by
  have hbyte : byte.toNat < 256 := byte.toNat_lt
  have hhigh : (hval.toNat ^^^ byte.toNat) / 256 = hval.toNat / 256 := by
    have hdiv := Nat.xor_div_two_pow (a := hval.toNat) (b := byte.toNat) (n := 8)
    rwa [Nat.div_eq_of_lt (a := byte.toNat) (by simpa using hbyte), Nat.xor_zero] at hdiv
  have hstep : (fnvStep64 build hval byte).toNat =
      (hval.toNat ^^^ byte.toNat) * 1099511628211 % 18446744073709551616 := by
    simp [fnvStep64, mulPrime64_eq, UInt64.toNat_mul]
  refine ⟨(hval.toNat ^^^ byte.toNat : Nat) - (hval.toNat : Int),
    -((hval.toNat ^^^ byte.toNat) * 1099511628211 / 18446744073709551616 : Nat), ?_, ?_, ?_⟩
  · omega
  · omega
  · rw [hstep]
    omega

/-- In the lowest 40 bits the four changes can be told apart. -/
theorem changes_unique {d₀ d₁ d₂ d₃ m : Int} (hd₀ : -255 ≤ d₀ ∧ d₀ ≤ 255)
    (hd₁ : -255 ≤ d₁ ∧ d₁ ≤ 255) (hd₂ : -255 ≤ d₂ ∧ d₂ ≤ 255) (hd₃ : -255 ≤ d₃ ∧ d₃ ≤ 255)
    (h : 82312875 * d₀ + 189225 * d₁ + 435 * d₂ + d₃ = 8579070992 + 1099511627776 * m) :
    d₀ = 104 ∧ d₁ = 98 ∧ d₂ = -28 ∧ d₃ = 122 := by
  obtain rfl : m = 0 := by omega
  obtain rfl : d₀ = 104 := by omega
  obtain rfl : d₁ = 98 := by omega
  obtain rfl : d₂ = -28 := by omega
  refine ⟨rfl, rfl, rfl, ?_⟩
  omega

/-- Four turns of the loop do not lead from the offset back to the offset. -/
theorem four_turns_ne_offset {d₀ d₁ d₂ d₃ k₀ k₁ k₂ k₃ x₁ x₂ x₃ : Int}
    (hd₀ : -255 ≤ d₀ ∧ d₀ ≤ 255) (hd₁ : -255 ≤ d₁ ∧ d₁ ≤ 255) (hd₂ : -255 ≤ d₂ ∧ d₂ ≤ 255)
    (hd₃ : -255 ≤ d₃ ∧ d₃ ≤ 255)
    (h₀ : x₁ = (14695981039346656037 + d₀) * 1099511628211 + k₀ * 18446744073709551616)
    (h₁ : x₂ = (x₁ + d₁) * 1099511628211 + k₁ * 18446744073709551616)
    (h₂ : x₃ = (x₂ + d₂) * 1099511628211 + k₂ * 18446744073709551616)
    (h₃ : 14695981039346656037 = (x₃ + d₃) * 1099511628211 + k₃ * 18446744073709551616) :
    False := by
  -- The last equation is divided by the prime, with its inverse modulo 2 ^ 64.
  have hall : ∃ j, 1099511628211 ^ 3 * d₀ + 1099511628211 ^ 2 * d₁ + 1099511628211 * d₂ + d₃ =
      14886173955864302971 * 14695981039346656037 - 14695981039346656037 * 1099511628211 ^ 3 +
        18446744073709551616 * j := by
    refine ⟨-(887285111055 * (x₃ + d₃) + 14886173955864302971 * k₃) -
      (k₀ * 1099511628211 ^ 2 + k₁ * 1099511628211 + k₂), ?_⟩
    linear_combination (-14886173955864302971 : Int) * h₃ - h₂ - 1099511628211 * h₁ -
      1099511628211 ^ 2 * h₀
  obtain ⟨j, hj⟩ := hall
  clear h₀ h₁ h₂ h₃
  have hlow : ∃ m,
      82312875 * d₀ + 189225 * d₁ + 435 * d₂ + d₃ = 8579070992 + 1099511627776 * m := by
    refine ⟨-17766350944119920536338084881287742014373087 + 16777216 * j -
      1208925821049491849521531 * d₀ - 1099511628646 * d₁ - d₂, ?_⟩
    linear_combination hj
  obtain ⟨m, hm⟩ := hlow
  -- The changes that fit the lowest 40 bits do not fit the others.
  obtain ⟨rfl, rfl, rfl, rfl⟩ := changes_unique hd₀ hd₁ hd₂ hd₃ hm
  omega

/-- No four bytes bring the hash back to where it began. -/
theorem ealHash64Fnv1a_four_bytes_ne (build : Build) (a b c d : UInt8) :
    ealHash64Fnv1a build [a, b, c, d] ≠ 14695981039346656037 := by
  intro h
  simp only [ealHash64Fnv1a, List.foldl_cons, List.foldl_nil] at h
  obtain ⟨_, _, hlo₀, hhi₀, h₀⟩ := exists_fnvStep64_eq build 14695981039346656037 a
  generalize fnvStep64 build 14695981039346656037 a = v₁ at h h₀
  obtain ⟨_, _, hlo₁, hhi₁, h₁⟩ := exists_fnvStep64_eq build v₁ b
  generalize fnvStep64 build v₁ b = v₂ at h h₁
  obtain ⟨_, _, hlo₂, hhi₂, h₂⟩ := exists_fnvStep64_eq build v₂ c
  generalize fnvStep64 build v₂ c = v₃ at h h₂
  obtain ⟨_, _, hlo₃, hhi₃, h₃⟩ := exists_fnvStep64_eq build v₃ d
  rw [h] at h₃
  exact four_turns_ne_offset ⟨hlo₀, hhi₀⟩ ⟨hlo₁, hhi₁⟩ ⟨hlo₂, hhi₂⟩ ⟨hlo₃, hhi₃⟩ h₀ h₁ h₂ h₃

theorem worker_id_ne (build : Build) (pid : Int32) (tid : EalTid) :
    createWorkerResource build pid tid ≠ createServerWorkerResource build pid tid := by
  intro h
  have htid : ealHash64MoreFnv1a build tid.bytes 14695981039346656037 =
      ealHash64MoreFnv1a build tid.bytes (ealHash64Fnv1a build (bytes32 pid)) :=
    (ealHash64MoreFnv1a_bijective build clientShmname).injective h
  have hpid := (ealHash64MoreFnv1a_bijective build tid.bytes).injective htid
  exact ealHash64Fnv1a_four_bytes_ne build _ _ _ _ hpid.symm

/-- For no process and no thread is the id of the client the one of the server's
formula, and the client's ids are the same in all processes. -/
theorem worker_id_ne_server_id (build : Build) (pid : Int32) (tid : EalTid) :
    createWorkerResource build pid tid ≠ createServerWorkerResource build pid tid ∧
    ∀ pid', createWorkerResource build pid tid = createWorkerResource build pid' tid :=
  ⟨worker_id_ne build pid tid, fun _ => rfl⟩

theorem worker_ids_differ :
    ¬ ∀ build pid tid,
      createWorkerResource build pid tid = createServerWorkerResource build pid tid := by
  intro h
  exact worker_id_ne .release 100 (.word64 1) (h .release 100 (.word64 1))

/-! ## Message ids -/

/-- A C string, without its terminating zero. -/
abbrev CString := { s : List UInt8 // (0 : UInt8) ∉ s }

/-- The bytes of a string that are hashed: the hash functions take the length as a
32-bit word. -/
def hashedBytes (s : CString) : List UInt8 := s.val.take (s.val.length % 2 ^ 32)

/-- The two functions that register a message. -/
inductive MessageKind
  | publish
  | subscribe
deriving DecidableEq, Repr

/-- The session, type and instance of a message. -/
structure MessageName where
  session : UInt64
  type : CString
  inst : CString
deriving DecidableEq

/-- The chain of hash calls of `register_publish`, over any hash functions. -/
def registerPublishHash {η : Type} (fnv1a : List UInt8 → η) (more : List UInt8 → η → η)
    (session : UInt64) (type inst : CString) : η :=
  let instId := fnv1a (bytes64 session)
  let instId := more (hashedBytes type) instId
  more (hashedBytes inst) instId

/-- The chain of hash calls of `register_subscribe`, in which the instance may be a
null pointer. -/
def registerSubscribeHash {η : Type} (fnv1a : List UInt8 → η) (more : List UInt8 → η → η)
    (session : UInt64) (type : CString) (inst : Option CString) : η :=
  let instId := fnv1a (bytes64 session)
  let instId := more (hashedBytes type) instId
  match inst with
  | none => instId
  | some inst => more (hashedBytes inst) instId

/-- What the hash calls of a registration with an instance compute. -/
def MessageName.hash {η : Type} (fnv1a : List UInt8 → η) (more : List UInt8 → η → η)
    (kind : MessageKind) (name : MessageName) : η :=
  match kind with
  | .publish => registerPublishHash fnv1a more name.session name.type name.inst
  | .subscribe => registerSubscribeHash fnv1a more name.session name.type (some name.inst)

/-- The instance id of the message. -/
def MessageName.instId (build : Build) (kind : MessageKind) (name : MessageName) : UInt64 :=
  name.hash (ealHash64Fnv1a build) (ealHash64MoreFnv1a build) kind

/-- The bytes that are fed to the hash, one call after the other. -/
def MessageName.bytes (kind : MessageKind) (name : MessageName) : List UInt8 :=
  name.hash id (fun data fed => fed ++ data) kind

theorem MessageName.bytes_eq (kind : MessageKind) (name : MessageName) :
    name.bytes kind = bytes64 name.session ++ hashedBytes name.type ++ hashedBytes name.inst := by
  cases kind <;> rfl

/-- A part of the hashed type of `n` has moved to the front of the instance in `m`. -/
def MessageName.Shifted (n m : MessageName) : Prop :=
  ∃ part ≠ [], hashedBytes n.type = hashedBytes m.type ++ part ∧
    hashedBytes m.inst = part ++ hashedBytes n.inst

/-- The names agree in what is hashed of them, and yet differ. -/
def MessageName.Truncated (n m : MessageName) : Prop :=
  hashedBytes n.type = hashedBytes m.type ∧ hashedBytes n.inst = hashedBytes m.inst ∧
    (n.type ≠ m.type ∨ n.inst ≠ m.inst)

/-- The bytes determine the session, and the type and the instance up to where the
one ends and the other begins. -/
theorem MessageName.bytes_eq_iff {k k' : MessageKind} {n m : MessageName} :
    n.bytes k = m.bytes k' ↔ n.session = m.session ∧
      (n.Shifted m ∨ m.Shifted n ∨
        (hashedBytes n.type = hashedBytes m.type ∧ hashedBytes n.inst = hashedBytes m.inst)) := by
  rw [bytes_eq, bytes_eq, List.append_assoc, List.append_assoc]
  constructor
  · intro h
    obtain ⟨hsession, hnames⟩ := List.append_inj h (by simp only [bytes64, length_leBytes])
    refine ⟨bytes64_injective hsession, ?_⟩
    -- One type is a prefix of the other, and `part` is what it lacks.
    rcases List.append_eq_append_iff.mp hnames with ⟨part, htype, hinst⟩ | ⟨part, htype, hinst⟩
    · by_cases hpart : part = []
      · subst hpart
        exact Or.inr (Or.inr ⟨by simpa using htype.symm, by simpa using hinst⟩)
      · exact Or.inr (Or.inl ⟨part, hpart, htype, hinst⟩)
    · by_cases hpart : part = []
      · subst hpart
        exact Or.inr (Or.inr ⟨by simpa using htype, by simpa using hinst.symm⟩)
      · exact Or.inl ⟨part, hpart, htype, hinst⟩
  · rintro ⟨hsession, hnames⟩
    rw [hsession]
    rcases hnames with ⟨part, _, htype, hinst⟩ | ⟨part, _, htype, hinst⟩ | ⟨htype, hinst⟩
    · rw [htype, hinst, List.append_assoc]
    · rw [htype, hinst, List.append_assoc]
    · rw [htype, hinst]

/-- Two registrations that feed the same bytes to the hash are for the same message, if
and only if no part of a type of one is at the front of the instance of the other,
and they do not differ behind the bytes that are hashed only. -/
theorem message_bytes_determine_iff (k k' : MessageKind) (n m : MessageName) :
    (n.bytes k = m.bytes k' → n = m) ↔
      ¬ (n.session = m.session ∧ (n.Shifted m ∨ m.Shifted n ∨ n.Truncated m)) := by
  rw [MessageName.bytes_eq_iff]
  constructor
  · rintro h ⟨hsession, hnames⟩
    have hsame : n.Shifted m ∨ m.Shifted n ∨
        (hashedBytes n.type = hashedBytes m.type ∧ hashedBytes n.inst = hashedBytes m.inst) :=
      hnames.imp_right (Or.imp_right fun ht => ⟨ht.1, ht.2.1⟩)
    obtain rfl := h ⟨hsession, hsame⟩
    rcases hnames with ⟨part, hpart, htype, _⟩ | ⟨part, hpart, htype, _⟩ | ⟨_, _, hne⟩
    · exact hpart (by simpa using htype)
    · exact hpart (by simpa using htype)
    · exact hne.elim (fun h => h rfl) fun h => h rfl
  · rintro hnot ⟨hsession, hshift | hshift | ⟨htype, hinst⟩⟩
    · exact absurd ⟨hsession, Or.inl hshift⟩ hnot
    · exact absurd ⟨hsession, Or.inr (Or.inl hshift)⟩ hnot
    · by_contra hne
      refine hnot ⟨hsession, Or.inr (Or.inr ⟨htype, hinst, ?_⟩)⟩
      by_contra heq
      obtain ⟨ht, hi⟩ := not_or.mp heq
      obtain ⟨session, type, inst⟩ := n
      obtain ⟨session', type', inst'⟩ := m
      exact hne (MessageName.mk.injEq .. ▸ ⟨hsession, not_not.mp ht, not_not.mp hi⟩)

/-- The types `ab` and `a` with the instances `c` and `bc`. -/
theorem message_bytes_ambiguous :
    ¬ ∀ (k k' : MessageKind) (n m : MessageName), n.bytes k = m.bytes k' → n = m := by
  intro h
  have heq := h .publish .subscribe ⟨0, ⟨[97, 98], by decide⟩, ⟨[99], by decide⟩⟩
    ⟨0, ⟨[97], by decide⟩, ⟨[98, 99], by decide⟩⟩ (by decide)
  exact absurd heq (by decide)

end LMiced
