import LMiced.Eal.Hash
import LMiced.Lib.Buffer

/-!
# The names of shared memories and events

Processes meet in shared memories and events whose names are computed from an id.
`eal_shm_hash_name` and `eal_event_hash_name` write the digits of the id behind a prefix, into the
32 bytes of `lmice_shm_t::name` and `lmice_event_t::name`.

* `objectName_eq_iff`: outside Windows the name determines the id and the kind of the object;
* `hash_names_iff`: `eal_shm_hash_name` ends the name too late. On Windows it writes behind the
  buffer, and elsewhere it relies on a zero behind the digits.
-/

namespace LMiced.Names

/-! ## The code -/

/-- The systems that the sources are compiled for. -/
inductive NameOs
  | windows
  | posix
deriving DecidableEq, Repr

/-- `hex_list`. -/
def hexList : Bytes := bytesOf "0123456789ABCDEF"

def nibble (x : UInt8) : UInt8 := hexList.getD x.toNat 0

/-- `hash_to_nameA` and `Mhash_to_nameA`, at the offset `name`. -/
def hashToNameA (hval : UInt64) (name : Nat) (buf : Bytes) : Option Bytes :=
  (bytes64 hval).zipIdx.foldlM (fun buf (x : UInt8 × Nat) => do
    let buf ← Buffer.store (name + x.2 * 2) (nibble (x.1 >>> 4)) buf
    Buffer.store (name + x.2 * 2 + 1) (nibble (x.1 &&& 0xf)) buf) buf

/-- The prefix, the digits and the terminating zero, which has its own offset. -/
def hashName (pre : Bytes) (last : Nat) (hval : UInt64) (name : Nat) (buf : Bytes) :
    Option Bytes := do
  let buf ← Buffer.write name pre buf
  let buf ← hashToNameA hval (name + pre.length) buf
  Buffer.store (name + last) 0 buf

/-- `eal_event_hash_name`. -/
def ealEventHashName : NameOs → UInt64 → Nat → Bytes → Option Bytes
  | .windows => hashName (bytesOf "Global\\ev") 25
  | .posix => hashName (bytesOf "ev") 18

/-- `eal_shm_hash_name`. The pointer has been moved behind the prefix when the name is ended. -/
def ealShmHashName : NameOs → UInt64 → Nat → Bytes → Option Bytes
  | .windows => hashName (bytesOf "Global\\sm") (9 + 25)
  | .posix => hashName (bytesOf "sm") (2 + 18)

/-- What the names are computed for: a shared memory of the daemon, of a worker or of a message
(`create_server_resource`, `create_worker_resource`, `create_work_resource`,
`create_shm_resource`, `open_worker_resource`, `open_message_resource`), the messages that
`lmsys_create_subscribe_message` and `lmsys_create_publish_message` create, and an event. -/
inductive ObjectKind
  | shm
  | subscribe
  | publish
  | event
deriving DecidableEq, Repr

/-- `name` behind `eal_shm_zero` or `eal_event_zero`. -/
def zeroName : Bytes := List.replicate 32 0

/-- The name of an object, as the system calls read it. -/
def objectName (os : NameOs) (kind : ObjectKind) (hval : UInt64) : Option Bytes :=
  (match kind with
    | .shm => ealShmHashName os hval 0 zeroName
    | .subscribe => ealShmHashName os hval 1 (zeroName.set 0 83)
    | .publish => ealShmHashName os hval 1 (zeroName.set 0 80)
    | .event => ealEventHashName os hval 0 zeroName).map Buffer.cString

/-! ## The digits -/

/-- The digits of a byte. -/
def hexByte (x : UInt8) : Bytes := [nibble (x >>> 4), nibble (x &&& 0xf)]

/-- The digits of an id. -/
def hexName (hval : UInt64) : Bytes := (bytes64 hval).flatMap hexByte

theorem hexList_spec : ∀ n < 16, hexList.idxOf (hexList.getD n 0) = n ∧ hexList.getD n 0 ≠ 0 := by
  decide

theorem high_eq (x : UInt8) : (x >>> 4).toNat = x.toNat / 16 := by
  rw [UInt8.toNat_shiftRight]
  exact Nat.shiftRight_eq_div_pow x.toNat 4

theorem low_eq (x : UInt8) : (x &&& 0xf).toNat = x.toNat % 16 := by
  rw [UInt8.toNat_and]
  exact Nat.and_two_pow_sub_one_eq_mod x.toNat 4

theorem high_lt (x : UInt8) : (x >>> 4).toNat < 16 := by
  rw [high_eq]
  exact Nat.div_lt_of_lt_mul x.toNat_lt

theorem low_lt (x : UInt8) : (x &&& 0xf).toNat < 16 := by
  rw [low_eq]
  exact Nat.mod_lt _ (by decide)

/-- Digits of numbers below 16 are different. -/
theorem nibble_inj {x y : UInt8} (hx : x.toNat < 16) (hy : y.toNat < 16)
    (h : nibble x = nibble y) : x.toNat = y.toNat := by
  rw [← (hexList_spec _ hx).1, ← (hexList_spec _ hy).1]
  exact congrArg (fun c => hexList.idxOf c) h

theorem hexByte_injective : Function.Injective hexByte := by
  intro x y h
  obtain ⟨hhigh, h⟩ := List.cons.inj h
  have hhigh : x.toNat / 16 = y.toNat / 16 := by
    rw [← high_eq, ← high_eq]
    exact nibble_inj (high_lt x) (high_lt y) hhigh
  have hlow : x.toNat % 16 = y.toNat % 16 := by
    rw [← low_eq, ← low_eq]
    exact nibble_inj (low_lt x) (low_lt y) (List.cons.inj h).1
  refine UInt8.toNat.inj ?_
  rw [← Nat.div_add_mod x.toNat 16, ← Nat.div_add_mod y.toNat 16, hhigh, hlow]

theorem hexByte_ne_zero (x : UInt8) : ∀ c ∈ hexByte x, c ≠ 0 := by
  intro c hc
  rcases List.mem_cons.mp hc with rfl | hc
  · exact (hexList_spec _ (high_lt x)).2
  · rw [List.mem_singleton.mp hc]
    exact (hexList_spec _ (low_lt x)).2

/-- The digits of a string of bytes determine it. -/
theorem flatMap_hexByte_injective :
    Function.Injective fun bytes : Bytes => bytes.flatMap hexByte := by
  intro xs ys h
  induction xs generalizing ys with
  | nil =>
    cases ys with
    | nil => rfl
    | cons y ys => cases h
  | cons x xs ih =>
    cases ys with
    | nil => cases h
    | cons y ys =>
      obtain ⟨hbyte, hrest⟩ := List.append_inj (h : hexByte x ++ _ = hexByte y ++ _) rfl
      rw [hexByte_injective hbyte, ih hrest]

theorem hexName_injective : Function.Injective hexName :=
  flatMap_hexByte_injective.comp bytes64_injective

theorem hexName_ne_zero (hval : UInt64) : ∀ c ∈ hexName hval, c ≠ 0 := by
  intro c hc
  obtain ⟨x, _, hc⟩ := List.mem_flatMap.mp hc
  exact hexByte_ne_zero x c hc

theorem length_hexName (hval : UInt64) : (hexName hval).length = 16 := by
  have hlength : ∀ bytes : Bytes, (bytes.flatMap hexByte).length = bytes.length * 2 := by
    intro bytes
    induction bytes with
    | nil => rfl
    | cons x bytes ih =>
      rw [List.flatMap_cons, List.length_append, ih, List.length_cons, Nat.add_mul, Nat.add_comm]
      rfl
  rw [hexName, hlength, bytes64, length_leBytes]

/-- The loop over the bytes writes the digits. -/
theorem hashToNameA_eq (hval : UInt64) (name : Nat) (buf : Bytes) :
    hashToNameA hval name buf = Buffer.write name (hexName hval) buf := by
  have hloop : ∀ (bytes : Bytes) (i : Nat) (buf : Bytes),
      (bytes.zipIdx i).foldlM (fun buf (x : UInt8 × Nat) => do
        let buf ← Buffer.store (name + x.2 * 2) (nibble (x.1 >>> 4)) buf
        Buffer.store (name + x.2 * 2 + 1) (nibble (x.1 &&& 0xf)) buf) buf =
      Buffer.write (name + i * 2) (bytes.flatMap hexByte) buf := by
    intro bytes
    induction bytes with
    | nil => exact fun _ _ => rfl
    | cons x bytes ih =>
      intro i buf
      rw [List.zipIdx_cons, List.foldlM_cons, List.flatMap_cons, Buffer.write_append]
      have hpair : Buffer.write (name + i * 2) (hexByte x) buf =
          (Buffer.store (name + i * 2) (nibble (x >>> 4)) buf).bind
            (Buffer.store (name + i * 2 + 1) (nibble (x &&& 0xf))) := by
        show (Buffer.store _ _ buf).bind (fun buf => (Buffer.store _ _ buf).bind some) = _
        simp only [Option.bind_fun_some]
      rw [hpair]
      have hnext : name + (i + 1) * 2 = name + i * 2 + (hexByte x).length := by
        rw [Nat.add_mul, ← Nat.add_assoc]
        rfl
      rw [← hnext]
      exact congrArg _ (funext (ih (i + 1)))
  exact hloop (bytes64 hval) 0 buf

/-! ## The names -/

section Writes

variable {pre buf : Bytes} {last name : Nat} {hval : UInt64}

/-- A name that fits. -/
theorem hashName_of_fits (hlast : pre.length + 16 ≤ last) (hfit : name + last < buf.length) :
    hashName pre last hval name buf = some ((buf.take name ++ (pre ++ hexName hval) ++
      buf.drop (name + (pre ++ hexName hval).length)).set (name + last) 0) := by
  have hlength : (pre ++ hexName hval).length = pre.length + 16 := by
    rw [List.length_append, length_hexName]
  have hroom : name + (pre ++ hexName hval).length ≤ buf.length := by
    rw [hlength]
    exact (Nat.add_le_add_left hlast name).trans hfit.le
  have hwrite : (Buffer.write name pre buf).bind (hashToNameA hval (name + pre.length)) =
      Buffer.write name (pre ++ hexName hval) buf := by
    rw [Buffer.write_append]
    exact congrArg _ (funext (hashToNameA_eq hval (name + pre.length)))
  show (Buffer.write name pre buf).bind (fun buf =>
    (hashToNameA hval (name + pre.length) buf).bind (Buffer.store (name + last) 0)) = _
  rw [← Option.bind_assoc, hwrite, Buffer.write_eq hroom, Option.bind_some]
  refine Buffer.store_of_lt ?_
  rw [List.length_append, List.length_append, List.length_drop,
    List.length_take_of_le ((Nat.le_add_right name _).trans hroom), Nat.add_sub_cancel' hroom]
  exact hfit

/-- A name that does not fit. -/
theorem hashName_of_not_fits (hfit : buf.length ≤ name + last) :
    hashName pre last hval name buf = none := by
  refine Option.eq_none_iff_forall_not_mem.mpr fun buf' h => ?_
  obtain ⟨buf₁, hpre, h⟩ := Option.bind_eq_some_iff.mp h
  obtain ⟨buf₂, hdigits, h⟩ := Option.bind_eq_some_iff.mp h
  rw [hashToNameA_eq] at hdigits
  refine absurd (Buffer.lt_of_store h) (Nat.not_lt_of_le ?_)
  rwa [Buffer.length_of_write hdigits, Buffer.length_of_write hpre]

/-- What is read: the bytes in front of the name, the name, and what is left behind it. -/
theorem cString_hashName (hlast : pre.length + 16 ≤ last) (hfit : name + last < buf.length)
    (hfirst : ∀ c ∈ buf.take name, c ≠ 0) (hpre : ∀ c ∈ pre, c ≠ 0) :
    (hashName pre last hval name buf).map Buffer.cString =
      some (buf.take name ++ (pre ++ hexName hval) ++ Buffer.cString
        ((buf.drop (name + (pre.length + 16))).set (last - (pre.length + 16)) 0)) := by
  have hlength : (pre ++ hexName hval).length = pre.length + 16 := by
    rw [List.length_append, length_hexName]
  have hne : ∀ c ∈ buf.take name ++ (pre ++ hexName hval), c ≠ 0 := by
    intro c hc
    rcases List.mem_append.mp hc with hc | hc
    · exact hfirst c hc
    · exact (List.mem_append.mp hc).elim (hpre c) (hexName_ne_zero hval c)
  have hfront : (buf.take name ++ (pre ++ hexName hval)).length = name + (pre.length + 16) := by
    rw [List.length_append, hlength,
      List.length_take_of_le ((Nat.le_add_right name last).trans hfit.le)]
  rw [hashName_of_fits hlast hfit, Option.map_some, hlength,
    List.set_append_right _ _ (by rw [hfront]; exact Nat.add_le_add_left hlast name), hfront,
    Nat.add_sub_add_left, Buffer.cString_append hne]

end Writes

/-! ## The objects -/

/-- What stands in front of the digits. -/
def ObjectKind.head : ObjectKind → Bytes
  | .shm => bytesOf "sm"
  | .subscribe => bytesOf "Ssm"
  | .publish => bytesOf "Psm"
  | .event => bytesOf "ev"

theorem objectName_posix (kind : ObjectKind) (hval : UInt64) :
    objectName .posix kind hval = some (kind.head ++ hexName hval) := by
  -- Behind the digits the field is zero.
  cases kind <;>
    exact (cString_hashName (by decide) (by decide) (by decide +kernel) (by decide +kernel)).trans
      rfl

/-- The first byte tells the kinds apart. -/
theorem ObjectKind.head_append_inj {kind kind' : ObjectKind} {xs ys : Bytes}
    (h : kind.head ++ xs = kind'.head ++ ys) : kind = kind' := by
  have hhead (kind : ObjectKind) (xs : Bytes) : (kind.head ++ xs).head? = kind.head.head? := by
    cases kind <;> rfl
  have hfirst : kind.head.head? = kind'.head.head? := by
    rw [← hhead kind xs, h, hhead]
  cases kind <;> cases kind' <;> first | rfl | exact absurd hfirst (by decide +kernel)

/-- **Outside Windows two objects have the same name if and only if they are of one kind and
have the same id.** -/
theorem objectName_eq_iff (kind kind' : ObjectKind) (hval hval' : UInt64) :
    objectName .posix kind hval = objectName .posix kind' hval' ↔ kind = kind' ∧ hval = hval' := by
  constructor
  · intro h
    rw [objectName_posix, objectName_posix] at h
    have hname := Option.some.inj h
    obtain rfl := ObjectKind.head_append_inj hname
    exact ⟨rfl, hexName_injective (List.append_cancel_left hname)⟩
  · rintro ⟨rfl, rfl⟩
    rfl

/-! ## Any contents of the field -/

/-- What `eal_shm_hash_name` is meant to put in front of the digits. -/
def shmHead : NameOs → Bytes
  | .windows => bytesOf "Global\\sm"
  | .posix => bytesOf "sm"

/-- What `eal_event_hash_name` puts in front of the digits. -/
def eventHead : NameOs → Bytes
  | .windows => bytesOf "Global\\ev"
  | .posix => bytesOf "ev"

/-- What is left behind a name that ends at its last digit. -/
theorem cString_set_zero (xs : Bytes) : Buffer.cString (xs.set 0 0) = [] := by
  cases xs with
  | nil => rfl
  | cons x xs => exact List.takeWhile_cons_of_neg (by decide)

/-- A name that ends two bytes behind its last digit. -/
theorem cString_set_two_iff {xs : Bytes} (hxs : 2 < xs.length) :
    Buffer.cString (xs.set 2 0) = [] ↔ xs[0] = 0 := by
  obtain ⟨x, xs, rfl⟩ := List.exists_cons_of_length_pos (Nat.zero_lt_of_lt hxs)
  show List.takeWhile _ (x :: xs.set 1 0) = [] ↔ x = 0
  rw [List.takeWhile_cons]
  split
  · next hx => exact iff_of_false (List.cons_ne_nil _ _) (of_decide_eq_true hx)
  · next hx => exact iff_of_true rfl (Decidable.not_not.mp (mt decide_eq_true hx))

/-- What is read of a name at the start of the buffer. -/
theorem cString_hashName_zero {pre buf : Bytes} {last : Nat} (hval : UInt64)
    (hlast : pre.length + 16 ≤ last) (hfit : last < buf.length) (hpre : ∀ c ∈ pre, c ≠ 0) :
    (hashName pre last hval 0 buf).map Buffer.cString = some (pre ++ hexName hval ++
      Buffer.cString ((buf.drop (pre.length + 16)).set (last - (pre.length + 16)) 0)) := by
  have hnone : ∀ c ∈ buf.take 0, c ≠ 0 := fun c hc => absurd hc List.not_mem_nil
  have h := @cString_hashName pre buf last 0 hval hlast (by rwa [Nat.zero_add]) hnone hpre
  rwa [Nat.zero_add, List.take_zero, List.nil_append] at h

/-- Into a field with any contents, `eal_event_hash_name` writes the name of the event.
`eal_shm_hash_name` writes the name of the shared memory if and only if the system is not Windows,
where it writes behind the field, and the byte behind the digits is zero already. -/
theorem hash_names_iff (os : NameOs) (hval : UInt64) (buf : Vector UInt8 32) :
    (ealEventHashName os hval 0 buf.toList).map Buffer.cString =
        some (eventHead os ++ hexName hval) ∧
      ((ealShmHashName os hval 0 buf.toList).map Buffer.cString =
          some (shmHead os ++ hexName hval) ↔ os = .posix ∧ buf[18] = 0) := by
  have hlength : buf.toList.length = 32 := Vector.length_toList
  have hevent (pre : Bytes) (last : Nat) (hlast : last = pre.length + 16) (hfit : last < 32)
      (hpre : ∀ c ∈ pre, c ≠ 0) : (hashName pre last hval 0 buf.toList).map Buffer.cString =
        some (pre ++ hexName hval) := by
    rw [cString_hashName_zero hval hlast.ge (by rwa [hlength]) hpre, hlast, Nat.sub_self,
      cString_set_zero, List.append_nil]
  cases os with
  | windows =>
    refine ⟨hevent _ 25 (by decide +kernel) (by decide) (by decide +kernel), ?_⟩
    have hnone : ealShmHashName .windows hval 0 buf.toList = none :=
      hashName_of_not_fits (by rw [hlength]; decide)
    rw [hnone]
    exact iff_of_false (fun h => nomatch h) fun h => nomatch h.1
  | posix =>
    refine ⟨hevent _ 18 (by decide +kernel) (by decide) (by decide +kernel), ?_⟩
    have hdrop : 2 < (buf.toList.drop 18).length := by
      rw [List.length_drop, hlength]
      decide
    have hshm := @cString_hashName_zero (bytesOf "sm") buf.toList (2 + 18)
      hval (by decide +kernel) (by rw [hlength]; decide) (by decide +kernel)
    have hiff := cString_set_two_iff hdrop
    rw [List.getElem_drop] at hiff
    show (hashName (bytesOf "sm") (2 + 18) hval 0 buf.toList).map _ =
      some (bytesOf "sm" ++ hexName hval) ↔ _
    rw [hshm, Option.some_inj, List.append_right_eq_self]
    exact hiff.trans (iff_and_self.mpr fun _ => rfl)

end LMiced.Names
