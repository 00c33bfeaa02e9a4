import Mathlib

/-!
# The heartbeat packages

`net/net_beatheart.c` keeps the heartbeat packages of the nodes in `bh_list`. A package that
arrives replaces the one of its node, or fills the first empty entry. Entry 0 is what
`lmnet_beatheart_send` transmits as the package of this node.

* `listed_after`: every node has at most one entry, with its latest package;
* `heartbeat_sound_iff`: entry 0 is left to this node when the first package that arrives is
  its own. `lmnet_beatheart_create` does not fill the entry, and `lmnet_beatheart_init` is not
  called.
-/

namespace LMiced.Beatheart

/-! ## The packages -/

/-- `lmnet_bctn_t`. -/
structure Content where
  size : UInt32
  netCfg : UInt32
  netAddr : Vector UInt8 16
  workerSize : UInt32
  lcoreSize : UInt32
  memorySize : UInt32
  netBankwidth : UInt32
  workerUsage : UInt32
  lcoreUsage : UInt32
  memoryUsage : UInt32
  netUsage : UInt32
deriving DecidableEq

/-- `lmnet_bmsg_t`. -/
structure Message where
  sysType : UInt64
  evtTick : UInt64
  objInst : UInt64
  ctn : Content
deriving DecidableEq

/-- `lmnet_bpkg_t`. -/
structure Package where
  endian : UInt8
  padding : UInt8
  headlen : UInt16
  msglen : UInt16
  version : UInt16
  metaData : Vector UInt8 16
  msg : Message
deriving DecidableEq

/-- The node of a package. -/
abbrev Package.inst (pkg : Package) : UInt64 := pkg.msg.objInst

/-- An entry behind the `memset` of `main`. -/
def Package.zero : Package :=
  ⟨0, 0, 0, 0, 0, Vector.replicate 16 0,
    ⟨0, 0, 0, ⟨0, 0, Vector.replicate 16 0, 0, 0, 0, 0, 0, 0, 0, 0⟩⟩⟩

/-- What `eal_core_get_properties` reads of the host. -/
structure Properties where
  lcore : UInt32
  memory : UInt32
  netBandwidth : UInt32
deriving DecidableEq

/-- The update of the package that is sent. -/
def Package.gather (host : Properties) (pkg : Package) : Package :=
  { pkg with
    msg.ctn.lcoreSize := host.lcore
    msg.ctn.memorySize := host.memory
    msg.ctn.netBankwidth := host.netBandwidth }

/-! ## The list -/

/-- `DEFAULT_LIST_SIZE`. -/
def defaultListSize : Nat := 32

/-- `bh_list`. -/
structure BhList where
  entries : List Package
  length_eq : entries.length = defaultListSize

/-- The loop of `lmnet_beatheart_recv` from one of the entries on. -/
def recvLoop (pkg : Package) : List Package → List Package
  | [] => []
  | entry :: entries =>
    if entry.inst = pkg.inst then pkg :: entries
    else if entry.inst = 0 then pkg :: entries
    else entry :: recvLoop pkg entries

theorem length_recvLoop (pkg : Package) (entries : List Package) :
    (recvLoop pkg entries).length = entries.length := by
  induction entries with
  | nil => rfl
  | cons entry entries ih =>
    unfold recvLoop
    split
    · rfl
    · split
      · rfl
      · exact congrArg Nat.succ ih

/-- `lmnet_beatheart_recv`. -/
def lmnetBeatheartRecv (pkg : Package) (list : BhList) : BhList :=
  ⟨recvLoop pkg list.entries, (length_recvLoop _ _).trans list.length_eq⟩

/-- `lmnet_beatheart_send`; it transmits the first entry of the list behind the call. -/
def lmnetBeatheartSend (host : Properties) (list : BhList) : BhList :=
  ⟨list.entries.modifyHead (Package.gather host),
    (List.length_modifyHead ..).trans list.length_eq⟩

/-- Before the first package. -/
def BhList.init : BhList := ⟨List.replicate defaultListSize .zero, List.length_replicate⟩

/-- A package arrives, or the timer of `lmnet_beatheart_send` fires. -/
inductive BhEvent
  | recv (pkg : Package)
  | send (host : Properties)
deriving DecidableEq

def BhEvent.step : BhEvent → BhList → BhList
  | recv pkg, list => lmnetBeatheartRecv pkg list
  | send host, list => lmnetBeatheartSend host list

/-- The list behind a sequence of events, the latest first. -/
def after : List BhEvent → BhList
  | [] => .init
  | e :: earlier => e.step (after earlier)

/-! ## What is to be expected -/

/-- The latest package of a node. -/
def latest (inst : UInt64) : List BhEvent → Option Package
  | [] => none
  | .recv pkg :: earlier => if pkg.inst = inst then some pkg else latest inst earlier
  | .send _ :: earlier => latest inst earlier

/-- The packages agree in all that is not gathered from the host. -/
def Package.Agree (a b : Package) : Prop := ∃ host, a = b.gather host

/-- No two entries belong to one node, and every entry that is not empty is the latest package
of its node. A package in entry 0 may have been sent since. -/
structure Listed (log : List BhEvent) (entries : List Package) : Prop where
  unique : ∀ (i j : Nat) (a b : Package), entries[i]? = some a → entries[j]? = some b →
    a.inst = b.inst → a.inst ≠ 0 → i = j
  recent : ∀ (i : Nat) (a : Package), entries[i]? = some a → a.inst ≠ 0 →
    ∃ pkg, latest a.inst log = some pkg ∧ a.Agree pkg ∧ (i ≠ 0 → a = pkg)

/-- The list is right behind every part of the sequence, and entry 0 is only replaced by
packages of the node `own`. -/
def Sound (own : UInt64) (log : List BhEvent) : Prop :=
  (∀ log', log' <:+ log → Listed log' (after log').entries) ∧
    ∀ pkg earlier, .recv pkg :: earlier <:+ log →
      (after (.recv pkg :: earlier)).entries.head? = some pkg → pkg.inst = own

/-! ## One package -/

/-- Entries that are not empty come first, and belong to different nodes. -/
def Apart (a b : Package) : Prop := b.inst ≠ 0 → a.inst ≠ 0 ∧ a.inst ≠ b.inst

@[simp]
theorem inst_gather (host : Properties) (pkg : Package) : (pkg.gather host).inst = pkg.inst := rfl

theorem agree_refl (pkg : Package) : pkg.Agree pkg :=
  ⟨⟨pkg.msg.ctn.lcoreSize, pkg.msg.ctn.memorySize, pkg.msg.ctn.netBankwidth⟩, rfl⟩

theorem Package.Agree.gather {a b : Package} (h : a.Agree b) (host : Properties) :
    (a.gather host).Agree b := by
  obtain ⟨_, rfl⟩ := h
  exact ⟨host, rfl⟩

/-- The entries behind a package: itself, and those of the other nodes. -/
theorem mem_recvLoop {pkg a : Package} {entries : List Package} (hapart : entries.Pairwise Apart)
    (h : a ∈ recvLoop pkg entries) (hne : a.inst ≠ 0) :
    a = pkg ∨ a ∈ entries ∧ a.inst ≠ pkg.inst := by
  induction entries with
  | nil => cases h
  | cons entry entries ih =>
    obtain ⟨hentry, htail⟩ := List.pairwise_cons.mp hapart
    unfold recvLoop at h
    split at h
    · next hsame =>
      rcases List.mem_cons.mp h with rfl | h
      · exact .inl rfl
      · refine .inr ⟨List.mem_cons_of_mem _ h, ?_⟩
        rw [← hsame]
        exact (hentry a h hne).2.symm
    · next hdiff =>
      split at h
      · next hempty =>
        rcases List.mem_cons.mp h with rfl | h
        · exact .inl rfl
        · exact absurd hempty (hentry a h hne).1
      · rcases List.mem_cons.mp h with rfl | h
        · exact .inr ⟨List.mem_cons_self, hdiff⟩
        · exact (ih htail h).imp id fun ⟨hmem, hno⟩ => ⟨List.mem_cons_of_mem _ hmem, hno⟩

theorem pairwise_recvLoop {pkg : Package} {entries : List Package}
    (hapart : entries.Pairwise Apart) : (recvLoop pkg entries).Pairwise Apart := by
  induction entries with
  | nil => exact .nil
  | cons entry entries ih =>
    obtain ⟨hentry, htail⟩ := List.pairwise_cons.mp hapart
    unfold recvLoop
    split
    · next hsame =>
      refine List.pairwise_cons.mpr ⟨fun b hb hne => ?_, htail⟩
      rw [← hsame]
      exact hentry b hb hne
    · next hdiff =>
      split
      · next hempty =>
        exact List.pairwise_cons.mpr ⟨fun b hb hne => absurd hempty (hentry b hb hne).1, htail⟩
      · next hfull =>
        refine List.pairwise_cons.mpr ⟨fun b hb hne => ?_, ih htail⟩
        rcases mem_recvLoop htail hb hne with rfl | ⟨hb, _⟩
        · exact ⟨hfull, hdiff⟩
        · exact hentry b hb hne

/-! ## The list in a run -/

/-- What every event preserves. -/
structure ListInv (log : List BhEvent) (entries : List Package) : Prop where
  apart : entries.Pairwise Apart
  agree : ∀ a ∈ entries, a.inst ≠ 0 → ∃ pkg, latest a.inst log = some pkg ∧ a.Agree pkg
  tail : ∀ a ∈ entries.tail, a.inst ≠ 0 → latest a.inst log = some a

namespace ListInv

variable {log : List BhEvent} {entries : List Package}

theorem latest_recv_of_ne {pkg : Package} {inst : UInt64} (h : inst ≠ pkg.inst) :
    latest inst (.recv pkg :: log) = latest inst log := if_neg h.symm

theorem recv (h : ListInv log entries) (pkg : Package) :
    ListInv (.recv pkg :: log) (recvLoop pkg entries) := by
  refine ⟨pairwise_recvLoop h.apart, fun a ha hne => ?_, fun a ha hne => ?_⟩
  · rcases mem_recvLoop h.apart ha hne with rfl | ⟨ha, hdiff⟩
    · exact ⟨a, if_pos rfl, agree_refl a⟩
    · rw [latest_recv_of_ne hdiff]
      exact h.agree a ha hne
  · cases entries with
    | nil => cases ha
    | cons entry entries =>
      obtain ⟨hentry, hrest⟩ := List.pairwise_cons.mp h.apart
      unfold recvLoop at ha
      split at ha
      · next hsame =>
        rw [latest_recv_of_ne (hsame ▸ (hentry a ha hne).2.symm)]
        exact h.tail a ha hne
      · split at ha
        · next hempty => exact absurd hempty (hentry a ha hne).1
        · rcases mem_recvLoop hrest ha hne with rfl | ⟨ha, hdiff⟩
          · exact if_pos rfl
          · rw [latest_recv_of_ne hdiff]
            exact h.tail a ha hne

theorem send (h : ListInv log entries) (host : Properties) :
    ListInv (.send host :: log) (entries.modifyHead (Package.gather host)) := by
  cases entries with
  | nil =>
    have hnil : ∀ pkg, pkg ∉ ([] : List Package) := fun _ => List.not_mem_nil
    exact ⟨.nil, fun _ ha => absurd ha (hnil _), fun _ ha => absurd ha (hnil _)⟩
  | cons entry entries =>
    obtain ⟨hentry, hrest⟩ := List.pairwise_cons.mp h.apart
    refine ⟨List.pairwise_cons.mpr ⟨hentry, hrest⟩, fun a ha hne => ?_, h.tail⟩
    rcases List.mem_cons.mp ha with rfl | ha
    · obtain ⟨pkg, hlatest, hagree⟩ := h.agree entry List.mem_cons_self hne
      exact ⟨pkg, hlatest, hagree.gather host⟩
    · exact h.agree a (List.mem_cons_of_mem _ ha) hne

/-- The invariant in every list that a run leads to. -/
theorem of_after (log : List BhEvent) : ListInv log (after log).entries := by
  induction log with
  | nil =>
    have hzero : ∀ a ∈ BhList.init.entries, a.inst = 0 := by
      intro a ha
      rw [List.eq_of_mem_replicate ha]
      rfl
    refine ⟨?_, fun a ha hne => absurd (hzero a ha) hne, fun a ha hne => ?_⟩
    · exact List.pairwise_of_forall_mem_list fun a _ b hb hne => absurd (hzero b hb) hne
    · exact absurd (hzero a (List.mem_of_mem_tail ha)) hne
  | cons e earlier ih =>
    cases e with
    | recv pkg => exact ih.recv pkg
    | send host => exact ih.send host

end ListInv

/-- Every node has at most one entry, with its latest package. -/
theorem listed_after (log : List BhEvent) : Listed log (after log).entries := by
  have hinv := ListInv.of_after log
  refine ⟨fun i j a b ha hb heq hne => ?_, fun i a ha hne => ?_⟩
  · have hapart := List.pairwise_iff_getElem.mp hinv.apart
    obtain ⟨hi, rfl⟩ := List.getElem?_eq_some_iff.mp ha
    obtain ⟨hj, rfl⟩ := List.getElem?_eq_some_iff.mp hb
    rcases lt_trichotomy i j with hlt | rfl | hlt
    · exact absurd heq (hapart i j hi hj hlt (heq ▸ hne)).2
    · rfl
    · exact absurd heq.symm (hapart j i hj hi hlt hne).2
  · obtain ⟨pkg, hlatest, hagree⟩ := hinv.agree a (List.mem_of_getElem? ha) hne
    refine ⟨pkg, hlatest, hagree, fun hi => ?_⟩
    obtain ⟨n, rfl⟩ := Nat.exists_eq_succ_of_ne_zero hi
    have htail : a ∈ (after log).entries.tail := by
      refine List.mem_of_getElem? (i := n) ?_
      rw [List.getElem?_tail]
      exact ha
    exact Option.some.inj ((hinv.tail a htail hne).symm.trans hlatest)

/-! ## Entry 0 -/

/-- The node of entry 0. -/
def firstInst (log : List BhEvent) : UInt64 := ((after log).entries.head?.map Package.inst).getD 0

theorem exists_entries (list : BhList) : ∃ entry entries, list.entries = entry :: entries := by
  refine List.exists_cons_of_length_pos ?_
  rw [list.length_eq]
  decide

/-- A package gets into entry 0 when the entry is empty or its own. -/
theorem head?_recv_iff {pkg : Package} {log : List BhEvent} :
    (after (.recv pkg :: log)).entries.head? = some pkg ↔
      firstInst log = 0 ∨ firstInst log = pkg.inst := by
  obtain ⟨entry, entries, he⟩ := exists_entries (after log)
  show (recvLoop pkg (after log).entries).head? = some pkg ↔ _
  rw [firstInst, he, recvLoop]
  show _ ↔ entry.inst = 0 ∨ entry.inst = pkg.inst
  split
  · next hsame => exact iff_of_true rfl (.inr hsame)
  · next hdiff =>
    split
    · next hempty => exact iff_of_true rfl (.inl hempty)
    · next hfull =>
      refine iff_of_false (fun h => ?_) (not_or.mpr ⟨hfull, hdiff⟩)
      rw [Option.some.inj h] at hdiff
      exact hdiff rfl

/-- The first package that is not empty keeps entry 0 for its node. -/
theorem firstInst_recv (pkg : Package) (log : List BhEvent) :
    firstInst (.recv pkg :: log) = if firstInst log = 0 then pkg.inst else firstInst log := by
  obtain ⟨entry, entries, he⟩ := exists_entries (after log)
  have hfirst : firstInst log = entry.inst := by rw [firstInst, he]; rfl
  show ((recvLoop pkg (after log).entries).head?.map Package.inst).getD 0 = _
  rw [hfirst, he, recvLoop]
  split
  · next hsame =>
    rw [hsame]
    exact (ite_self _).symm
  · split
    · rfl
    · rfl

theorem firstInst_send (host : Properties) (log : List BhEvent) :
    firstInst (.send host :: log) = firstInst log := by
  obtain ⟨entry, entries, he⟩ := exists_entries (after log)
  show (((after log).entries.modifyHead _).head?.map Package.inst).getD 0 = _
  rw [firstInst, he]
  rfl

theorem firstInst_eq_zero_iff (log : List BhEvent) :
    firstInst log = 0 ↔ ∀ pkg, .recv pkg ∈ log → pkg.inst = 0 := by
  induction log with
  | nil => exact iff_of_true rfl fun _ h => absurd h List.not_mem_nil
  | cons e log ih =>
    cases e with
    | recv pkg =>
      have hall : (∀ pkg', .recv pkg' ∈ BhEvent.recv pkg :: log → pkg'.inst = 0) ↔
          pkg.inst = 0 ∧ firstInst log = 0 := by
        rw [ih]
        simp
      rw [firstInst_recv, hall]
      split
      · next hzero => exact (and_iff_left hzero).symm
      · next hne => exact iff_of_false hne fun h => hne h.2
    | send host =>
      rw [firstInst_send, ih]
      simp

/-- A package before which no package has come that is not empty is one of the node `own`. -/
def OwnFirst (own : UInt64) (log : List BhEvent) : Prop :=
  ∀ pkg earlier, .recv pkg :: earlier <:+ log → (∀ pkg', .recv pkg' ∈ earlier → pkg'.inst = 0) →
    pkg.inst = own

theorem firstInst_of_ownFirst {own : UInt64} {log : List BhEvent} (h : OwnFirst own log)
    (hne : firstInst log ≠ 0) : firstInst log = own := by
  induction log with
  | nil => exact absurd rfl hne
  | cons e log ih =>
    have hlog : OwnFirst own log := fun pkg earlier hsuffix =>
      h pkg earlier (hsuffix.trans (List.suffix_cons e log))
    cases e with
    | recv pkg =>
      rw [firstInst_recv] at hne ⊢
      split
      · next hzero => exact h pkg log List.suffix_rfl ((firstInst_eq_zero_iff log).mp hzero)
      · next hfirst => exact ih hlog hfirst
    | send host =>
      rw [firstInst_send] at hne ⊢
      exact ih hlog hne

/-- **The list is right in a run, and entry 0 is left to the node `own`, if and only if the
packages that come first are its own.** -/
theorem heartbeat_sound_iff (own : UInt64) (log : List BhEvent) :
    Sound own log ↔ OwnFirst own log := by
  constructor
  · intro h pkg earlier hsuffix hzero
    exact h.2 pkg earlier hsuffix
      (head?_recv_iff.mpr (.inl ((firstInst_eq_zero_iff earlier).mpr hzero)))
  · intro h
    refine ⟨fun log' _ => listed_after log', fun pkg earlier hsuffix hhead => ?_⟩
    rcases eq_or_ne (firstInst earlier) 0 with hzero | hne
    · exact h pkg earlier hsuffix ((firstInst_eq_zero_iff earlier).mp hzero)
    · have hearlier : OwnFirst own earlier := fun pkg' earlier' hsuffix' =>
        h pkg' earlier' (hsuffix'.trans ((List.suffix_cons _ _).trans hsuffix))
      have hsame := (head?_recv_iff.mp hhead).resolve_left hne
      rw [← hsame]
      exact firstInst_of_ownFirst hearlier hne

/-- The first package is one of another node. -/
theorem entry_taken : ¬ ∀ (own : UInt64) (log : List BhEvent), Sound own log := by
  intro h
  have hown := (h 1 [.recv { Package.zero with msg.objInst := 2 }]).2 _ [] List.suffix_rfl
    (by decide)
  revert hown
  decide

end LMiced.Beatheart
