import LMiced.Eal.Hash

/-!
# The bandwidth of the network

`eal_core_get_net_bandwidth` of `eal/lmice_core.h` (the version for macOS) reads at most 64
bytes of the output of `ifconfig` into the buffer `cmd`, and scans it for the unit of the
rate. The scan compares the pointer with the null pointer, where the byte behind it is meant,
so it ends only at a unit.

* `unitScan_isSome_iff`: the scan stays inside of the buffer if and only if there is a
  whole unit behind the first 12 bytes of what is read.
-/

namespace LMiced.Core

/-! ## The scan -/

/-- The buffer `cmd` behind `memset` and `fread`. -/
def cmdBuffer (output : Bytes) : Bytes :=
  output.take 64 ++ List.replicate (64 - (output.take 64).length) 0

/-- `strncmp(p, unit, strlen(unit)) == 0`, where `p` points to the given end of the buffer;
`none` when a byte behind the buffer is looked at. No unit has a zero byte in it. -/
def startsWith : Bytes → Bytes → Option Bool
  | _, [] => some true
  | [], _ :: _ => none
  | b :: p, c :: unit => if b = c then startsWith p unit else some false

/-- The units in the order of the comparisons, with the factor of the rate. -/
def units : List (Bytes × Nat) :=
  [(bytesOf "Gbps", 1024 * 1024), (bytesOf "gbps", 1024 * 1024), (bytesOf "Mbps", 1024),
    (bytesOf "mbps", 1024), (bytesOf "Kbps", 1), (bytesOf "kbps", 1)]

/-- The body of the loop: the factor of the first unit that stands at `p`. -/
def unitAt (p : Bytes) : List (Bytes × Nat) → Option (Option Nat)
  | [] => some none
  | unit :: units => do
    if ← startsWith p unit.1 then some (some unit.2) else unitAt p units

/-- `for(p=cmd+12; p!= '\0'; ++p)`: the factor that is found, `none` when the loop leaves
the buffer. The pointer is never null. -/
def scanFrom : Bytes → Option Nat
  | [] => none
  | b :: p => do
    match ← unitAt (b :: p) units with
    | some factor => some factor
    | none => scanFrom p

/-- The scan of the buffer. -/
def unitScan (output : Bytes) : Option Nat := scanFrom ((cmdBuffer output).drop 12)

/-! ## One comparison -/

theorem startsWith_eq_true_iff {p unit : Bytes} : startsWith p unit = some true ↔ unit <+: p := by
  fun_induction startsWith p unit with
  | case1 => simp
  | case2 => simp
  | case3 p b unit ih => simpa using ih
  | case4 b p c unit hne => simp [Ne.symm hne]

theorem startsWith_isSome {p unit : Bytes} (h : unit.length ≤ p.length) :
    (startsWith p unit).isSome := by
  fun_induction startsWith p unit with
  | case1 => rfl
  | case2 => simp at h
  | case3 p b unit ih => exact ih (by simpa using h)
  | case4 => rfl

/-! ## The comparisons at one byte -/

/-- A unit is only found where it stands. -/
theorem prefix_of_unitAt {p : Bytes} {units : List (Bytes × Nat)} {factor : Nat}
    (h : unitAt p units = some (some factor)) : ∃ unit ∈ units, unit.1 <+: p := by
  induction units with
  | nil => simp [unitAt] at h
  | cons unit units ih =>
    obtain ⟨found, hs, h⟩ := Option.bind_eq_some_iff.mp h
    cases found with
    | true => exact ⟨unit, List.mem_cons_self, startsWith_eq_true_iff.mp hs⟩
    | false =>
      obtain ⟨unit', hmem, hp⟩ := ih h
      exact ⟨unit', List.mem_cons_of_mem _ hmem, hp⟩

/-- With enough bytes for each unit no byte behind the buffer is looked at, and no unit is
passed over. -/
theorem unitAt_of_length_le {p : Bytes} {units : List (Bytes × Nat)}
    (h : ∀ unit ∈ units, unit.1.length ≤ p.length) :
    (∃ factor, unitAt p units = some (some factor)) ∨
      unitAt p units = some none ∧ ∀ unit ∈ units, ¬ unit.1 <+: p := by
  induction units with
  | nil => exact .inr ⟨rfl, by simp⟩
  | cons unit units ih =>
    obtain ⟨found, hs⟩ := Option.isSome_iff_exists.mp
      (startsWith_isSome (h unit List.mem_cons_self))
    cases found with
    | true => exact .inl ⟨unit.2, by simp [unitAt, hs]⟩
    | false =>
      have hnot : ¬ unit.1 <+: p := by
        rw [← startsWith_eq_true_iff, hs]
        simp
      have he : unitAt p (unit :: units) = unitAt p units := by simp [unitAt, hs]
      rw [he]
      refine (ih fun u hu => h u (List.mem_cons_of_mem _ hu)).imp id ?_
      exact fun ⟨hn, hall⟩ => ⟨hn, List.forall_mem_cons.mpr ⟨hnot, hall⟩⟩

/-! ## The loop -/

theorem length_of_mem_units {unit : Bytes × Nat} (h : unit ∈ units) : unit.1.length = 4 := by
  revert unit
  decide

/-- A loop that ends has found a unit. -/
theorem infix_of_scanFrom {p : Bytes} {factor : Nat} (h : scanFrom p = some factor) :
    ∃ unit ∈ units, unit.1 <:+: p := by
  induction p with
  | nil => cases h
  | cons b p ih =>
    obtain ⟨found, hu, h⟩ := Option.bind_eq_some_iff.mp h
    cases found with
    | some _ =>
      obtain ⟨unit, hmem, hp⟩ := prefix_of_unitAt hu
      exact ⟨unit, hmem, hp.isInfix⟩
    | none =>
      obtain ⟨unit, hmem, hp⟩ := ih h
      exact ⟨unit, hmem, hp.trans (List.suffix_cons b p).isInfix⟩

/-- A unit that is there is reached: as long as it lies ahead there are bytes for every
comparison. -/
theorem scanFrom_isSome {p : Bytes} {unit : Bytes × Nat} (hmem : unit ∈ units)
    (h : unit.1 <:+: p) : (scanFrom p).isSome := by
  induction p with
  | nil =>
    have hl := h.length_le
    simp [length_of_mem_units hmem] at hl
  | cons b p ih =>
    have hlen : ∀ u ∈ units, u.1.length ≤ (b :: p).length := by
      intro u hu
      rw [length_of_mem_units hu, ← length_of_mem_units hmem]
      exact h.length_le
    obtain ⟨factor, he⟩ | ⟨he, hall⟩ := unitAt_of_length_le hlen
    · simp [scanFrom, he]
    · have hin := (List.infix_cons_iff.mp h).resolve_left (hall unit hmem)
      simpa [scanFrom, he] using ih hin

/-! ## The buffer -/

theorem drop_cmdBuffer (output : Bytes) :
    ∃ n, (cmdBuffer output).drop 12 = (output.take 64).drop 12 ++ List.replicate n 0 := by
  rw [cmdBuffer, List.drop_append, List.drop_replicate]
  exact ⟨_, rfl⟩

theorem ne_zero_of_mem_units {unit : Bytes × Nat} (h : unit ∈ units) :
    unit.1 ≠ [] ∧ ∀ b ∈ unit.1, b ≠ 0 := by
  revert unit
  simp [units, bytesOf]

/-- The zero bytes of the `memset` hold no part of a unit. -/
theorem infix_append_replicate_iff {unit : Bytes × Nat} {p : Bytes} {n : Nat}
    (hmem : unit ∈ units) : unit.1 <:+: p ++ List.replicate n 0 ↔ unit.1 <:+: p := by
  obtain ⟨hne, hzero⟩ := ne_zero_of_mem_units hmem
  have hnil : ∀ {l : Bytes}, (∀ b ∈ l, b ∈ unit.1) → (∀ b ∈ l, b = 0) → l = [] := by
    intro l hin hz
    refine List.eq_nil_iff_forall_not_mem.mpr fun b hb => ?_
    exact hzero b (hin b hb) (hz b hb)
  have hrep : ∀ {l : Bytes}, l <:+: List.replicate n 0 → ∀ b ∈ l, b = 0 :=
    fun hl b hb => List.eq_of_mem_replicate (hl.subset hb)
  rw [List.infix_append_iff]
  constructor
  · rintro (h | h | ⟨l₁, l₂, he, h₁, h₂⟩)
    · exact h
    · exact absurd (hnil (fun _ hb => hb) (hrep h)) hne
    · have h0 : l₂ = [] := by
        refine hnil (fun b hb => ?_) (hrep h₂.isInfix)
        rw [he]
        exact List.mem_append_right _ hb
      rw [he, h0, List.append_nil]
      exact h₁.isInfix
  · exact .inl

/-- **The scan ends inside of the buffer if and only if a whole unit stands behind the first
12 bytes of the 64 that are read.** -/
theorem unitScan_isSome_iff (output : Bytes) :
    (unitScan output).isSome ↔ ∃ unit ∈ units, unit.1 <:+: (output.take 64).drop 12 := by
  obtain ⟨n, hd⟩ := drop_cmdBuffer output
  rw [unitScan, hd]
  constructor
  · intro h
    obtain ⟨factor, hf⟩ := Option.isSome_iff_exists.mp h
    obtain ⟨unit, hmem, hin⟩ := infix_of_scanFrom hf
    exact ⟨unit, hmem, (infix_append_replicate_iff hmem).mp hin⟩
  · rintro ⟨unit, hmem, hin⟩
    exact scanFrom_isSome hmem ((infix_append_replicate_iff hmem).mpr hin)

/-- A pipe that delivers nothing, as for an interface without a link rate. -/
theorem unitScan_of_empty_output : ¬ (unitScan []).isSome := by
  decide

end LMiced.Core
