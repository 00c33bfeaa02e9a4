import LMiced.Schedule.Deliver

/-!
# Messages in shared memory

The layout of a message in `resource/message_resource.h`: a header of 8 bytes, and a queue of
blobs behind it. `lmmsg_init_by_size` computes the size of a blob from that of the data, and
how many of them there are in the memory; both numbers are put into 16 bits, and the header
is not taken off the memory. `lmmsg_acquire_unique_blob` walks over the blobs.

* `acquireUniqueBlobAt_eq`: the walk over the memory is the walk over the list of blobs of
  `Schedule.Deliver`;
* `acquireUniqueBlobAt_inside`: in a sound layout it writes inside the memory only;
* `sound_layout_iff`: for which sizes the layout is sound.
-/

namespace LMiced

/-! ## The header -/

/-- The header of `lmmsg_t`. -/
structure LmmsgHeader where
  qsize : UInt16
  bsize : UInt16
  size : UInt32
deriving DecidableEq, Repr

/-- The assignment to `bsize`. The sum is computed in `int`. -/
def lmmsgBsize (dataSize : UInt16) : UInt16 :=
  if dataSize.toNat % 8 = 0 then UInt16.ofNat (dataSize.toNat + 16)
  else UInt16.ofNat (dataSize.toNat + 24 - dataSize.toNat % 8)

/-- `lmmsg_init_by_size`, `none` for a division by zero. -/
def lmmsgInitBySize (size : UInt32) (dataSize : UInt16) : Option LmmsgHeader :=
  let bsize := lmmsgBsize dataSize
  if bsize = 0 then none else some ⟨UInt16.ofNat (size.toNat / bsize.toNat), bsize, size⟩

/-! ## The walk -/

/-- The step of the pointer, by `bsize / 8` words of 8 bytes. -/
def nextBlob (bsize : UInt16) (blob : Nat) : Nat := blob + bsize.toNat / 8 * 8

/-- The offset of a blob in the memory: the first is behind the header. -/
def blobOffset (bsize : UInt16) (i : Nat) : Nat := (nextBlob bsize)^[i] 8

/-- `lmmsg_acquire_unique_blob` from a blob on; `memory` has the words of the message by
their offsets. -/
def lmmsgAcquireUniqueBlobAt (bsize : UInt16) :
    Nat → Nat → (Nat → UInt64) → Int × (Nat → UInt64)
  | 0, _, memory => (1, memory)
  | n + 1, blob, memory =>
    if memory blob = 0 then (0, Function.update (Function.update memory blob 2) (blob + 8) 0)
    else lmmsgAcquireUniqueBlobAt bsize n (nextBlob bsize blob) memory

/-- The walk over the memory finds a blob when the walk over the list of blobs does. -/
theorem acquireUniqueBlobAt_eq {bsize : UInt16} {memory : Nat → UInt64} {blobs : List LmmsgBlob}
    {blob : Nat}
    (h : ∀ i b, blobs[i]? = some b →
      (b.lock = msgBlobAvailable ↔ memory ((nextBlob bsize)^[i] blob) = 0)) :
    (lmmsgAcquireUniqueBlobAt bsize blobs.length blob memory).1 =
      (lmmsgAcquireUniqueBlob blobs).1 := by
  induction blobs generalizing blob with
  | nil => rfl
  | cons b blobs ih =>
    have hhead : b.lock = msgBlobAvailable ↔ memory blob = 0 := h 0 b rfl
    rw [List.length_cons, lmmsgAcquireUniqueBlobAt, lmmsgAcquireUniqueBlob]
    by_cases hlock : memory blob = 0
    · rw [if_pos hlock, if_pos (hhead.mpr hlock)]
    · rw [if_neg hlock, if_neg fun hb => hlock (hhead.mp hb)]
      exact ih fun i b' hb' => h (i + 1) b' hb'

/-- The words that the walk changes are the first two of one of its blobs. -/
theorem acquireUniqueBlobAt_changes {bsize : UInt16} {n blob a : Nat} {memory : Nat → UInt64}
    (h : (lmmsgAcquireUniqueBlobAt bsize n blob memory).2 a ≠ memory a) :
    ∃ i < n, a = (nextBlob bsize)^[i] blob ∨ a = (nextBlob bsize)^[i] blob + 8 := by
  induction n generalizing blob with
  | zero => exact absurd rfl h
  | succ n ih =>
    rw [lmmsgAcquireUniqueBlobAt] at h
    by_cases hlock : memory blob = 0
    · rw [if_pos hlock] at h
      refine ⟨0, Nat.zero_lt_succ n, ?_⟩
      rw [Function.iterate_zero_apply]
      by_contra hno
      obtain ⟨hfirst, hsecond⟩ := not_or.mp hno
      dsimp only at h
      rw [Function.update_of_ne hsecond, Function.update_of_ne hfirst] at h
      exact h rfl
    · rw [if_neg hlock] at h
      obtain ⟨i, hi, ha⟩ := ih h
      exact ⟨i + 1, Nat.succ_lt_succ hi, ha⟩

/-! ## Sound layouts -/

/-- What the layout is meant to be: a blob has room for its own header and the data, the
blobs that are visited follow one another behind the header of the message, and they are in
the memory. -/
structure SoundLayout (dataSize : UInt16) (msg : LmmsgHeader) : Prop where
  aligned : 8 ∣ msg.bsize.toNat
  room : dataSize.toNat + 16 ≤ msg.bsize.toNat
  place : ∀ i, i < msg.qsize.toNat → blobOffset msg.bsize i = 8 + i * msg.bsize.toNat
  inside : ∀ i, i < msg.qsize.toNat → 8 + (i + 1) * msg.bsize.toNat ≤ msg.size.toNat
  disjoint : ∀ i j, i < j → j < msg.qsize.toNat →
    blobOffset msg.bsize i + msg.bsize.toNat ≤ blobOffset msg.bsize j

/-- In a sound layout only the memory of the message is written. -/
theorem acquireUniqueBlobAt_inside {dataSize : UInt16} {msg : LmmsgHeader}
    (hmsg : SoundLayout dataSize msg) {a : Nat} {memory : Nat → UInt64}
    (h : (lmmsgAcquireUniqueBlobAt msg.bsize msg.qsize.toNat 8 memory).2 a ≠ memory a) :
    8 ≤ a ∧ a + 8 ≤ msg.size.toNat := by
  obtain ⟨i, hi, ha⟩ := acquireUniqueBlobAt_changes h
  have hplace := hmsg.place i hi
  have hinside := hmsg.inside i hi
  have hroom := hmsg.room
  rw [blobOffset] at hplace
  rw [hplace] at ha
  rw [Nat.add_mul, Nat.one_mul] at hinside
  omega

/-- The offsets of the blobs of an aligned size. -/
theorem blobOffset_eq {bsize : UInt16} (h : 8 ∣ bsize.toNat) (i : Nat) :
    blobOffset bsize i = 8 + i * bsize.toNat := by
  unfold blobOffset
  induction i with
  | zero => simp
  | succ i ih =>
    rw [Function.iterate_succ_apply', ih, nextBlob, Nat.div_mul_cancel h]
    ring

/-- The size of a blob when nothing is cut off: the data filled up to 8 bytes, and the header
of the blob. -/
def blobSize (dataSize : UInt16) : Nat := (dataSize.toNat + 7) / 8 * 8 + 16

theorem lmmsgBsize_toNat (dataSize : UInt16) :
    (lmmsgBsize dataSize).toNat = blobSize dataSize % 65536 := by
  unfold lmmsgBsize blobSize
  split
  · rw [UInt16.toNat_ofNat']
    omega
  · rw [UInt16.toNat_ofNat']
    omega

/-- A blob has its size just for the data that 16 bits leave room for. -/
theorem room_iff (dataSize : UInt16) :
    dataSize.toNat + 16 ≤ (lmmsgBsize dataSize).toNat ↔ dataSize.toNat ≤ 65512 := by
  have hlt := dataSize.toNat_lt
  rw [lmmsgBsize_toNat, blobSize]
  omega

theorem lmmsgBsize_eq_blobSize {dataSize : UInt16} (h : dataSize.toNat ≤ 65512) :
    (lmmsgBsize dataSize).toNat = blobSize dataSize := by
  rw [lmmsgBsize_toNat, blobSize]
  omega

/-- The blobs are in the memory if and only if there is none, or their number is cut off, or
the header has room in what the division leaves. -/
theorem inside_iff {size b : Nat} (hb : 16 ≤ b) :
    (∀ i, i < size / b % 65536 → 8 + (i + 1) * b ≤ size) ↔
      size < b ∨ 65536 * b ≤ size ∨ 8 ≤ size % b := by
  have hdiv := Nat.div_add_mod size b
  have hpos : 0 < b := by omega
  rcases Nat.lt_or_ge size b with hlt | hge
  · rw [Nat.div_eq_of_lt hlt]
    simp [hlt]
  · have hone : 1 ≤ size / b := (Nat.one_le_div_iff hpos).mpr hge
    rcases Nat.lt_or_ge size (65536 * b) with hsmall | hlarge
    · have hq : size / b < 65536 := (Nat.div_lt_iff_lt_mul hpos).mpr hsmall
      rw [Nat.mod_eq_of_lt hq]
      constructor
      · intro h
        have hlast := h (size / b - 1) (by omega)
        rw [Nat.sub_add_cancel hone, Nat.mul_comm] at hlast
        omega
      · intro h i hi
        have hmod : 8 ≤ size % b := by omega
        have hmul : (i + 1) * b ≤ size / b * b := Nat.mul_le_mul_right b hi
        rw [Nat.mul_comm (size / b)] at hmul
        omega
    · refine iff_of_true (fun i hi => ?_) (Or.inr (Or.inl hlarge))
      have hlast : (i + 2) * b ≤ 65536 * b := by
        refine Nat.mul_le_mul_right b ?_
        have hcut := Nat.mod_lt (size / b) (by decide : 0 < 65536)
        omega
      rw [Nat.add_mul] at hlast ⊢
      omega

/-- The memory of a message is laid out without a division by zero and with all blobs where
they belong if and only if the data has at most 65512 bytes, and the memory has no room for
a blob, or for 65536 of them, or 8 bytes are left when it is divided into blobs. -/
theorem sound_layout_iff (size : UInt32) (dataSize : UInt16) :
    (∃ msg, lmmsgInitBySize size dataSize = some msg ∧ SoundLayout dataSize msg) ↔
      dataSize.toNat ≤ 65512 ∧ (size.toNat < blobSize dataSize ∨
        65536 * blobSize dataSize ≤ size.toNat ∨ 8 ≤ size.toNat % blobSize dataSize) := by
  unfold lmmsgInitBySize
  by_cases hdata : dataSize.toNat ≤ 65512
  · have hbsize := lmmsgBsize_eq_blobSize hdata
    have hsixteen : 16 ≤ blobSize dataSize := Nat.le_add_left 16 _
    have hne : lmmsgBsize dataSize ≠ 0 := by
      intro hzero
      rw [hzero, UInt16.toNat_zero] at hbsize
      omega
    have haligned : 8 ∣ (lmmsgBsize dataSize).toNat := by
      rw [hbsize]
      exact Dvd.dvd.add (Dvd.intro_left _ rfl) (by decide)
    have hqsize : (UInt16.ofNat (size.toNat / (lmmsgBsize dataSize).toNat)).toNat =
        size.toNat / blobSize dataSize % 65536 := by
      rw [UInt16.toNat_ofNat', hbsize]
    simp only [hne, if_false, Option.some.injEq, exists_eq_left', hdata, true_and]
    rw [← inside_iff hsixteen]
    constructor
    · intro h i hi
      have hinside := h.inside i (hqsize.symm ▸ hi)
      rwa [hbsize] at hinside
    · intro h
      refine ⟨haligned, (room_iff dataSize).mpr hdata, fun i _ => blobOffset_eq haligned i,
        fun i hi => ?_, fun i j hij _ => ?_⟩
      · dsimp only at hi ⊢
        rw [hqsize] at hi
        rw [hbsize]
        exact h i hi
      · dsimp only
        rw [blobOffset_eq haligned, blobOffset_eq haligned, Nat.add_assoc, ← Nat.succ_mul]
        exact Nat.add_le_add_left (Nat.mul_le_mul_right _ hij) 8
  · refine iff_of_false ?_ fun h => hdata h.1
    rintro ⟨msg, hinit, hmsg⟩
    dsimp only at hinit
    split at hinit
    · cases hinit
    · cases hinit
      exact hdata ((room_iff dataSize).mp hmsg.room)

/-- Data of 65520 bytes make a blob of 0 bytes, and a memory that is divided without a rest has
a blob that does not fit into it. -/
theorem unsound_layouts :
    lmmsgInitBySize 4096 65520 = none ∧
      ∃ msg, lmmsgInitBySize 48 8 = some msg ∧ msg.qsize = 2 ∧ ¬ SoundLayout 8 msg := by
  refine ⟨by decide, ⟨2, 24, 48⟩, by decide, rfl, fun h => ?_⟩
  have hinside := h.inside 1 (by decide)
  exact absurd hinside (by decide)

end LMiced
