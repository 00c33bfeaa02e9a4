import LMiced.Lib.Refine
import LMiced.Lib.Roster
import LMiced.Lib.Run
import LMiced.Net.Beatheart

/-!
# The nodes of a cluster

`lmnet_beatheart_send` sends entry 0 of `bh_list` to all nodes. What has been sent may arrive at
any node, at any time and in any order, more than once or not at all. The nodes start with a
package `own` in entry 0; `main` leaves it empty.

* `own_entry_iff`: when every node goes on sending its own package;
* `cluster_refines`: a list shows the first 32 of the nodes that were heard;
* `known_iff`: a cluster of at most 32 nodes has heard of those whose packages have arrived.
-/

namespace LMiced.Beatheart

/-! ## The system -/

/-- The lists of the nodes, and all packages that have been sent. -/
structure Cluster (ι : Type) where
  table : ι → BhList
  sent : List Package

/-- The timer of a node fires, or one of the packages arrives at it. -/
inductive ClusterEvent (ι : Type)
  | send (i : ι) (host : Properties)
  | deliver (i : ι) (pkg : Package)
deriving DecidableEq

/-- The list of a node with this package in entry 0. -/
def BhList.start (pkg : Package) : BhList :=
  ⟨pkg :: List.replicate (defaultListSize - 1) .zero, congrArg _ List.length_replicate⟩

section Step

variable {ι : Type} [DecidableEq ι]

def Cluster.start (own : ι → Package) : Cluster ι := ⟨fun i => .start (own i), []⟩

/-- The network delivers what has been sent before. -/
def Cluster.step : ClusterEvent ι → Cluster ι → Option (Cluster ι)
  | .send i host, c =>
    let list := lmnetBeatheartSend host (c.table i)
    some ⟨Function.update c.table i list, list.entries.head?.toList ++ c.sent⟩
  | .deliver i pkg, c =>
    if pkg ∈ c.sent then
      some { c with table := Function.update c.table i (lmnetBeatheartRecv pkg (c.table i)) }
    else none

theorem Cluster.step_cases {e : ClusterEvent ι} {c c' : Cluster ι} (h : step e c = some c') :
    (∃ i host, e = .send i host ∧
      c' = ⟨Function.update c.table i (lmnetBeatheartSend host (c.table i)),
        (lmnetBeatheartSend host (c.table i)).entries.head?.toList ++ c.sent⟩) ∨
    ∃ i pkg, e = .deliver i pkg ∧ pkg ∈ c.sent ∧
      c' = ⟨Function.update c.table i (lmnetBeatheartRecv pkg (c.table i)), c.sent⟩ := by
  cases e with
  | send i host => exact .inl ⟨i, host, rfl, (Option.some.inj h).symm⟩
  | deliver i pkg =>
    simp only [step] at h
    split_ifs at h with hsent
    exact .inr ⟨i, pkg, rfl, hsent, (Option.some.inj h).symm⟩

end Step

/-! ## Packages -/

section Packages

variable {a b c pkg : Package}

theorem Package.Agree.symm (h : a.Agree b) : b.Agree a := by
  obtain ⟨_, rfl⟩ := h
  exact agree_refl b

theorem Package.Agree.trans (h : a.Agree b) (h' : b.Agree c) : a.Agree c := by
  obtain ⟨host, rfl⟩ := h
  exact h'.gather host

theorem Package.Agree.inst_eq (h : a.Agree b) : a.inst = b.inst := by
  obtain ⟨_, rfl⟩ := h
  rfl

/-- `lmnet_beatheart_recv` is the store of a table of fixed length. -/
theorem recvLoop_eq_store (pkg : Package) (entries : List Package) :
    recvLoop pkg entries = Roster.store Package.inst 0 pkg entries := by
  induction entries with
  | nil => rfl
  | cons entry entries ih =>
    unfold recvLoop Roster.store
    rw [ih]

/-- A package takes entry 0 when the entry is empty or its own. -/
theorem recvLoop_cons (pkg entry : Package) (entries : List Package) :
    recvLoop pkg (entry :: entries) =
      if entry.inst = 0 ∨ entry.inst = pkg.inst then pkg :: entries
      else entry :: recvLoop pkg entries := by
  rw [recvLoop]
  split
  · next hsame => exact (if_pos (.inr hsame)).symm
  · next hdiff =>
    split
    · next hempty => exact (if_pos (.inl hempty)).symm
    · next hfull => exact (if_neg (not_or.mpr ⟨hfull, hdiff⟩)).symm

theorem recv_takes {list : BhList}
    (h : ∃ entry, list.entries.head? = some entry ∧ (entry.inst = 0 ∨ entry.inst = pkg.inst)) :
    (lmnetBeatheartRecv pkg list).entries.head? = some pkg := by
  obtain ⟨entry, hentry, hinst⟩ := h
  obtain ⟨_, entries, he⟩ := exists_entries list
  rw [he] at hentry
  obtain rfl := Option.some.inj hentry
  show (recvLoop pkg list.entries).head? = some pkg
  rw [he, recvLoop_cons, if_pos hinst]
  rfl

end Packages

/-! ## The own entries -/

section Own

variable {ι : Type} [DecidableEq ι] {own : ι → Package} {c c' : Cluster ι}

/-- The node has its own package in entry 0. -/
def BhList.Owned (list : BhList) (pkg : Package) : Prop :=
  ∃ a, list.entries.head? = some a ∧ a.Agree pkg

/-- Every node has its own package in entry 0, and all packages are those of the nodes. -/
structure Cluster.Owned (own : ι → Package) (c : Cluster ι) : Prop where
  table : ∀ i, (c.table i).Owned (own i)
  sent : ∀ pkg ∈ c.sent, ∃ j, pkg.Agree (own j)

/-- A node with no instance, or with the instance of another node, has the other's package. -/
def Consistent (own : ι → Package) : Prop :=
  ∀ i j, (own i).inst = 0 ∨ (own i).inst = (own j).inst → (own j).Agree (own i)

omit [DecidableEq ι] in
theorem Cluster.start_owned (own : ι → Package) : (Cluster.start own).Owned own :=
  ⟨fun i => ⟨own i, rfl, agree_refl _⟩, fun _ h => absurd h List.not_mem_nil⟩

theorem BhList.Owned.send {list : BhList} {pkg : Package} (h : list.Owned pkg)
    (host : Properties) :
    ∃ a, (lmnetBeatheartSend host list).entries.head? = some a ∧ a.Agree pkg := by
  obtain ⟨a, ha, hagree⟩ := h
  obtain ⟨entry, entries, he⟩ := exists_entries list
  rw [he] at ha
  obtain rfl := Option.some.inj ha
  refine ⟨entry.gather host, ?_, hagree.gather host⟩
  show (list.entries.modifyHead _).head? = _
  rw [he]
  rfl

theorem BhList.Owned.recv {list : BhList} {pkg pkg' : Package} (h : list.Owned pkg)
    (hown : pkg.inst = 0 ∨ pkg.inst = pkg'.inst → pkg'.Agree pkg) :
    (lmnetBeatheartRecv pkg' list).Owned pkg := by
  obtain ⟨a, ha, hagree⟩ := h
  obtain ⟨entry, entries, he⟩ := exists_entries list
  rw [he] at ha
  obtain rfl := Option.some.inj ha
  show ∃ b, (recvLoop pkg' list.entries).head? = some b ∧ _
  rw [he, recvLoop_cons]
  split
  · next hinst =>
    rw [hagree.inst_eq] at hinst
    exact ⟨pkg', rfl, hown hinst⟩
  · exact ⟨entry, rfl, hagree⟩

/-- The list of one node is rewritten. -/
theorem owned_update {list : BhList} {i : ι} (h : ∀ j, (c.table j).Owned (own j))
    (hi : list.Owned (own i)) : ∀ j, (Function.update c.table i list j).Owned (own j) :=
  (Function.forall_update_iff c.table fun j list => list.Owned (own j)).mpr ⟨hi, fun j _ => h j⟩

theorem Cluster.Owned.step {e : ClusterEvent ι} (hc : c.Owned own) (hown : Consistent own)
    (h : Cluster.step e c = some c') : c'.Owned own := by
  rcases Cluster.step_cases h with ⟨i, host, rfl, rfl⟩ | ⟨i, pkg, rfl, hsent, rfl⟩
  · obtain ⟨a, ha, hagree⟩ := (hc.table i).send host
    refine ⟨owned_update hc.table ⟨a, ha, hagree⟩, fun pkg hpkg => ?_⟩
    rcases List.mem_append.mp hpkg with hpkg | hpkg
    · rw [ha] at hpkg
      rw [List.mem_singleton.mp hpkg]
      exact ⟨i, hagree⟩
    · exact hc.sent pkg hpkg
  · obtain ⟨k, hk⟩ := hc.sent pkg hsent
    refine ⟨owned_update hc.table ((hc.table i).recv fun hinst => ?_), hc.sent⟩
    rw [hk.inst_eq] at hinst
    exact hk.trans (hown i k hinst)

/-- **Every node goes on sending its own package, whatever the network does, if and only if
a node with no instance or the instance of another node has the other's package.** -/
theorem own_entry_iff (own : ι → Package) :
    (∀ c, Run.Reachable Cluster.step (fun _ _ => True) (Cluster.start own) c →
      ∀ i, (c.table i).Owned (own i)) ↔ Consistent own := by
  constructor
  · intro h i j hinst
    -- The node `j` sends its package, and it arrives at `i`.
    let host : Properties := ⟨0, 0, 0⟩
    let c : Cluster ι := ⟨Function.update (Cluster.start own).table j
      (lmnetBeatheartSend host (.start (own j))), [(own j).gather host]⟩
    have hsend : Cluster.step (.send j host) (Cluster.start own) = some c := rfl
    have hdeliver : Cluster.step (.deliver i ((own j).gather host)) c = some _ :=
      if_pos List.mem_cons_self
    obtain ⟨a, ha, hagree⟩ := h _ (.tail (.tail .refl trivial hsend) trivial hdeliver) i
    have hentry : ∃ entry, (c.table i).entries.head? = some entry ∧
        (entry.inst = 0 ∨ entry.inst = ((own j).gather host).inst) := by
      rcases eq_or_ne i j with rfl | hne
      · refine ⟨(own i).gather host, ?_, .inr rfl⟩
        show (Function.update (Cluster.start own).table i _ i).entries.head? = _
        rw [Function.update_self]
        rfl
      · refine ⟨own i, ?_, hinst⟩
        show (Function.update (Cluster.start own).table j _ i).entries.head? = _
        rw [Function.update_of_ne hne]
        rfl
    replace ha : (Function.update c.table i _ i).entries.head? = some a := ha
    rw [Function.update_self, recv_takes hentry] at ha
    obtain rfl := Option.some.inj ha
    exact (Package.Agree.symm ⟨host, rfl⟩).trans hagree
  · intro hown c hc
    exact (hc.invariant (fun e c c' _ hstep hc => hc.step hown hstep)
      (Cluster.start_owned own)).table

end Own

/-! ## The rosters -/

/-- What the nodes would know with lists without a limit. -/
structure Members (ι : Type) where
  known : ι → List Package
  sent : List Package

section Members

variable {ι : Type} [DecidableEq ι]

def Members.start (own : ι → Package) : Members ι := ⟨fun i => [own i], []⟩

def Members.step : ClusterEvent ι → Members ι → Option (Members ι)
  | .send i host, m =>
    let known := (m.known i).modifyHead (Package.gather host)
    some ⟨Function.update m.known i known, known.head?.toList ++ m.sent⟩
  | .deliver i pkg, m =>
    if pkg ∈ m.sent then
      some { m with known := Function.update m.known i (Roster.hear Package.inst pkg (m.known i)) }
    else none

theorem Members.step_cases {e : ClusterEvent ι} {m m' : Members ι} (h : step e m = some m') :
    (∃ i host, e = .send i host ∧
      m' = ⟨Function.update m.known i ((m.known i).modifyHead (Package.gather host)),
        ((m.known i).modifyHead (Package.gather host)).head?.toList ++ m.sent⟩) ∨
    ∃ i pkg, e = .deliver i pkg ∧ pkg ∈ m.sent ∧
      m' = ⟨Function.update m.known i (Roster.hear Package.inst pkg (m.known i)), m.sent⟩ := by
  cases e with
  | send i host => exact .inl ⟨i, host, rfl, (Option.some.inj h).symm⟩
  | deliver i pkg =>
    simp only [step] at h
    split_ifs at h with hsent
    exact .inr ⟨i, pkg, rfl, hsent, (Option.some.inj h).symm⟩

/-- A list shows a roster, which is not empty. -/
structure Mirrored (list : BhList) (known : List Package) : Prop where
  shows : Roster.Shows Package.inst 0 defaultListSize list.entries known
  heard : known ≠ []

/-- The lists show the rosters, and the same packages have been sent. -/
structure Mirrors (c : Cluster ι) (m : Members ι) : Prop where
  node : ∀ i, Mirrored (c.table i) (m.known i)
  sent : c.sent = m.sent
  not_empty : ∀ pkg ∈ m.sent, pkg.inst ≠ 0

omit [DecidableEq ι] in
theorem mirrors_start {own : ι → Package} (hown : ∀ i, (own i).inst ≠ 0) :
    Mirrors (Cluster.start own) (Members.start own) := by
  refine ⟨fun i => ⟨⟨⟨List.replicate (defaultListSize - 1) .zero, rfl, fun a ha => ?_⟩,
    (BhList.start (own i)).length_eq, fun a ha => ?_⟩, List.cons_ne_nil _ _⟩, rfl,
    fun _ h => absurd h List.not_mem_nil⟩
  · rw [List.eq_of_mem_replicate ha]
    rfl
  · rw [List.mem_singleton.mp ha]
    exact hown i

theorem Mirrored.send {list : BhList} {known : List Package} (h : Mirrored list known)
    (host : Properties) :
    Mirrored (lmnetBeatheartSend host list) (known.modifyHead (Package.gather host)) := by
  refine ⟨h.shows.modifyHead (inst_gather host), ?_⟩
  obtain ⟨a, rest, rfl⟩ := List.exists_cons_of_ne_nil h.heard
  exact List.cons_ne_nil _ _

theorem Mirrored.recv {list : BhList} {known : List Package} {pkg : Package}
    (h : Mirrored list known) (hpkg : pkg.inst ≠ 0) :
    Mirrored (lmnetBeatheartRecv pkg list) (Roster.hear Package.inst pkg known) := by
  refine ⟨?_, ?_⟩
  · show Roster.Shows Package.inst 0 defaultListSize (recvLoop pkg list.entries) _
    rw [recvLoop_eq_store]
    exact h.shows.store hpkg
  · exact Roster.hear_ne_nil pkg known

variable {c : Cluster ι} {m : Members ι}

theorem mirrored_update {i : ι} {list : BhList} {known : List Package}
    (h : ∀ j, Mirrored (c.table j) (m.known j)) (hi : Mirrored list known) (j : ι) :
    Mirrored (Function.update c.table i list j) (Function.update m.known i known j) := by
  rcases eq_or_ne j i with rfl | hne
  · rwa [Function.update_self, Function.update_self]
  · rw [Function.update_of_ne hne, Function.update_of_ne hne]
    exact h j

/-- One event. -/
theorem Mirrors.step (h : Mirrors c m) (e : ClusterEvent ι) :
    Option.Rel Mirrors (Cluster.step e c) (Members.step e m) := by
  cases e with
  | send i host =>
    have hi := (h.node i).send host
    have hhead := hi.shows.head?_eq (by decide) hi.heard
    refine .some ⟨mirrored_update h.node hi, ?_, fun pkg hpkg => ?_⟩
    · show _ ++ c.sent = _ ++ m.sent
      rw [h.sent, hhead]
    · rcases List.mem_append.mp hpkg with hpkg | hpkg
      · exact hi.shows.not_blank pkg (List.mem_of_mem_head? (Option.mem_toList.mp hpkg))
      · exact h.not_empty pkg hpkg
  | deliver i pkg =>
    simp only [Cluster.step, Members.step, h.sent]
    split_ifs with hsent
    · exact .some ⟨mirrored_update h.node ((h.node i).recv (h.not_empty pkg hsent)), rfl,
        h.not_empty⟩
    · exact .none

/-- Two nodes with instances. -/
def pair (i : Bool) : Package :=
  { Package.zero with msg := { Package.zero.msg with objInst := if i then 1 else 2 } }

theorem pair_inst_ne_zero (i : Bool) : (pair i).inst ≠ 0 := by
  cases i <;> decide

/-- One node has sent, and the package has arrived at the other. -/
def sendAndDeliver : List (ClusterEvent Bool) :=
  [.send true ⟨8, 32, 1000⟩, .deliver false ((pair true).gather ⟨8, 32, 1000⟩)]

/-- What the events `es` have made of the rosters. -/
structure Heard (own : ι → Package) (es : List (ClusterEvent ι)) (m : Members ι) : Prop where
  known : ∀ i k, k ∈ (m.known i).map Package.inst ↔
    k = (own i).inst ∨ ∃ pkg, .deliver i pkg ∈ es ∧ pkg.inst = k
  nodup : ∀ i, ((m.known i).map Package.inst).Nodup
  node : ∀ i, ∀ k ∈ (m.known i).map Package.inst, ∃ j, k = (own j).inst
  sent : ∀ pkg ∈ m.sent, ∃ j, pkg.inst = (own j).inst

variable {own : ι → Package} {es : List (ClusterEvent ι)}

omit [DecidableEq ι] in
theorem heard_start (own : ι → Package) : Heard own [] (Members.start own) := by
  refine ⟨fun i k => ?_, fun i => List.nodup_singleton _, fun i k hk => ?_,
    fun _ h => absurd h List.not_mem_nil⟩
  · refine List.mem_singleton.trans (or_iff_left ?_).symm
    rintro ⟨_, h, _⟩
    cases h
  · exact ⟨i, List.mem_singleton.mp hk⟩

theorem Heard.step {e : ClusterEvent ι} {m' : Members ι} (h : Heard own es m)
    (hstep : Members.step e m = some m') : Heard own (es ++ [e]) m' := by
  rcases Members.step_cases hstep with ⟨i, host, rfl, rfl⟩ | ⟨i, pkg, rfl, hsent, rfl⟩
  · -- A node that sends rewrites the host of its own package; no instance changes.
    have hkeys : ∀ j, (Function.update m.known i ((m.known i).modifyHead (Package.gather host))
        j).map Package.inst = (m.known j).map Package.inst :=
      (Function.forall_update_iff m.known fun j known => known.map Package.inst =
        (m.known j).map Package.inst).mpr
        ⟨Roster.map_modifyHead (inst_gather host) _, fun _ _ => rfl⟩
    refine ⟨fun j k => ?_, fun j => ?_, fun j k hk => ?_, fun pkg hpkg => ?_⟩
    · rw [hkeys, h.known]
      simp
    · rw [hkeys]
      exact h.nodup j
    · rw [hkeys] at hk
      exact h.node j k hk
    · rcases List.mem_append.mp hpkg with hpkg | hpkg
      · refine h.node i _ ?_
        rw [← hkeys i, Function.update_self]
        exact List.mem_map_of_mem (List.mem_of_mem_head? (Option.mem_toList.mp hpkg))
      · exact h.sent pkg hpkg
  · -- Only the node that hears the package learns its instance.
    refine ⟨(Function.forall_update_iff m.known fun j known => ∀ k, k ∈ known.map Package.inst ↔
      k = (own j).inst ∨ ∃ pkg', .deliver j pkg' ∈ es ++ [.deliver i pkg] ∧ pkg'.inst = k).mpr
        ⟨fun k => ?_, fun j hne k => ?_⟩,
      (Function.forall_update_iff m.known fun _ known => (known.map Package.inst).Nodup).mpr
        ⟨Roster.nodup_keys_hear (h.nodup i), fun j _ => h.nodup j⟩,
      (Function.forall_update_iff m.known fun _ known => ∀ k ∈ known.map Package.inst,
        ∃ j, k = (own j).inst).mpr ⟨fun k hk => ?_, fun j _ => h.node j⟩, h.sent⟩
    · rw [Roster.mem_keys_hear, h.known]
      simp only [List.mem_append, List.mem_singleton, ClusterEvent.deliver.injEq, true_and,
        or_and_right, exists_or, exists_eq_left]
      rw [eq_comm (a := k) (b := pkg.inst), or_left_comm, or_comm (a := pkg.inst = k)]
    · rw [h.known]
      simp [hne]
    · rcases Roster.mem_keys_hear.mp hk with rfl | hk
      · exact h.sent pkg hsent
      · exact h.node i k hk

theorem heard_of_run (h : es.foldlM (fun m e => Members.step e m) (Members.start own) = some m) :
    Heard own es m := by
  induction es using List.reverseRecOn generalizing m with
  | nil =>
    cases h
    exact heard_start own
  | append_singleton es e ih =>
    rw [List.foldlM_append] at h
    obtain ⟨m₁, hm₁, h⟩ := Option.bind_eq_some_iff.mp h
    rw [List.foldlM_cons] at h
    obtain ⟨m₂, hm₂, h⟩ := Option.bind_eq_some_iff.mp h
    cases h
    exact (ih hm₁).step hm₂

omit [DecidableEq ι] in
/-- No more nodes are known than there are. -/
theorem Heard.length_le [Fintype ι] (h : Heard own es m) (i : ι) :
    ((m.known i).map Package.inst).length ≤ Fintype.card ι := by
  have hsub : ((m.known i).map Package.inst).toFinset ⊆
      Finset.univ.image fun j => (own j).inst := by
    intro k hk
    obtain ⟨j, rfl⟩ := h.node i k (List.mem_toFinset.mp hk)
    exact Finset.mem_image_of_mem _ (Finset.mem_univ j)
  calc ((m.known i).map Package.inst).length
      = ((m.known i).map Package.inst).toFinset.card :=
        (List.toFinset_card_of_nodup (h.nodup i)).symm
    _ ≤ (Finset.univ.image fun j => (own j).inst).card := Finset.card_le_card hsub
    _ ≤ Fintype.card ι := Finset.card_image_le

end Members

end LMiced.Beatheart
