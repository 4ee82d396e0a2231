import Mathlib.Logic.Relation
import Bayes.Proofs.DisjointSets
/-!
Searching and joining in any order, from the partition in which every number is alone. Two numbers are
together just when the pairs that were joined connect them; every search comes to an end, at the root of
a tree, and there is one root for each class. A rank fits into a byte, since a class has at least 2 to
the power of its rank many members.
-/
namespace Bayes.DisjointSets
open Relation

variable {n i j r : Nat} {label : Nat → Nat} {s t : DisjointSets}

/-! The loop of a search -/

def halve (s : DisjointSets) (i : Nat) : DisjointSets := s.hang i (s.parent (s.parent i))

/-- A search that comes to an end, turn by turn: where it started, the root, and what the forest has
become. -/
inductive Climbs : DisjointSets → Nat → Nat → DisjointSets → Prop
  | root {s : DisjointSets} {i : Nat} (h : s.parent i = i) : Climbs s i i s
  | turn {s t : DisjointSets} {i r : Nat} (h : s.parent i ≠ i)
      (hrest : Climbs (s.halve i) ((s.halve i).parent i) r t) : Climbs s i r t

theorem Climbs.unique {r' : Nat} {t' : DisjointSets} (h : Climbs s i r t) (h' : Climbs s i r' t') :
    r = r' ∧ t = t' := by
  induction h with
  | root hroot =>
    cases h' with
    | root => exact ⟨rfl, rfl⟩
    | turn hne => exact absurd hroot hne
  | turn hne _ ih =>
    cases h' with
    | root hroot => exact absurd hroot hne
    | turn _ hrest => exact ih hrest

theorem climbs_climb (steps : Nat) : ∀ (s : DisjointSets) (i : Nat), Forest n label s → i < n →
    (outranking n s i).card ≤ steps → Climbs s i (climb steps s i).1 (climb steps s i).2 := by
  induction steps with
  | zero =>
    intro s i h hi h0
    refine .root ?_
    by_contra hne
    have := h.outranking_parent hi hne
    omega
  | succ steps ih =>
    intro s i h hi hsteps
    by_cases hroot : s.parent i = i
    · rw [climb, if_pos hroot]
      exact .root hroot
    · have hlt : s.parent (s.parent i) < n := h.parent_lt _ (h.parent_lt i hi)
      have hfewer := outranking_lt hlt (h.rank_lt_above hroot)
      have hparent : (s.halve i).parent i = s.parent (s.parent i) := by
        rw [halve, parent_hang (h.size_parents ▸ hi), if_pos rfl]
      rw [climb, if_neg hroot]
      refine .turn hroot ?_
      rw [hparent]
      refine ih _ _ (h.hang_above hi hroot) hlt ?_
      change (outranking n s _).card ≤ steps
      omega

theorem Forest.climbs_find (h : Forest n label s) (hi : i < n) :
    Climbs s i (s.find i).1 (s.find i).2 := by
  refine climbs_climb _ s i h hi ?_
  rw [h.size_parents]
  exact (Finset.card_filter_le _ _).trans (Finset.card_range n).le

theorem Forest.climbs_iff (h : Forest n label s) (hi : i < n) :
    Climbs s i r t ↔ s.find i = (r, t) := by
  have hfind := h.climbs_find hi
  constructor
  · intro hclimbs
    obtain ⟨rfl, rfl⟩ := hclimbs.unique hfind
    rfl
  · rintro heq
    rwa [heq] at hfind

/-! Any calls -/

inductive Step where
  | find (i : Nat)
  | union (i j : Nat)

namespace Step

def Below (n : Nat) : Step → Prop
  | find i => i < n
  | union i j => i < n ∧ j < n

def after (s : DisjointSets) : Step → DisjointSets
  | find i => (s.find i).2
  | union i j => (s.union i j).2

end Step

def run (s : DisjointSets) (steps : List Step) : DisjointSets := steps.foldl Step.after s

/-- The pairs that were joined connect two numbers. -/
def Together (steps : List Step) : Nat → Nat → Prop := EqvGen fun i j => .union i j ∈ steps

variable {steps : List Step} {a b : Nat}

theorem Together.label_eq (h : Together steps a b)
    (hlabel : ∀ i j, .union i j ∈ steps → label i = label j) : label a = label b := by
  have hequiv : Equivalence (InvImage Eq label) := InvImage.equivalence Eq label eq_equivalence
  exact hequiv.eqvGen_iff.1 (EqvGen.mono hlabel a b h)

theorem Together.concat (h : Together steps a b) (step : Step) : Together (steps ++ [step]) a b :=
  EqvGen.mono (fun _ _ hmem => List.mem_append_left [step] hmem) a b h

theorem together_nil : Together [] a b ↔ a = b := by
  refine ⟨fun h => ?_, fun h => h ▸ EqvGen.refl a⟩
  have heq : id a = id b := h.label_eq (by simp)
  exact heq

theorem together_concat_find : Together (steps ++ [.find i]) a b ↔ Together steps a b := by
  simp [Together]

theorem together_concat_union (hlabel : ∀ a b, label a = label b ↔ Together steps a b) :
    Together (steps ++ [.union i j]) a b ↔
      label a = label b ∨ label a = label i ∧ label b = label j ∨
        label a = label j ∧ label b = label i := by
  constructor
  · intro h
    refine (merged_eq_iff (label i) (label j) a b).1 (h.label_eq fun c d hmem => ?_)
    obtain hmem | hmem := List.mem_append.1 hmem
    · have hcd : label c = label d := (hlabel c d).2 (EqvGen.rel c d hmem)
      simp only [merged, hcd]
    · obtain ⟨rfl, rfl⟩ : c = i ∧ d = j := by simpa using hmem
      simp [merged]
  · have hnew : Together (steps ++ [.union i j]) i j := EqvGen.rel i j (by simp)
    have hold {c d : Nat} (hcd : label c = label d) : Together (steps ++ [.union i j]) c d :=
      ((hlabel c d).1 hcd).concat (.union i j)
    rintro (h | ⟨ha, hb⟩ | ⟨ha, hb⟩)
    · exact hold h
    · exact (hold ha).trans _ _ _ (hnew.trans _ _ _ (hold hb.symm))
    · exact (hold ha).trans _ _ _ ((hnew.symm _ _).trans _ _ _ (hold hb.symm))

theorem run_concat (s : DisjointSets) (steps : List Step) (step : Step) :
    run s (steps ++ [step]) = step.after (run s steps) := by
  simp [run]

/-- After any calls there is a forest whose labels are the classes of what was joined. -/
theorem run_spec (steps : List Step) (h : ∀ step ∈ steps, step.Below n) :
    ∃ label, Forest n label (run (discrete n) steps) ∧
      ∀ a b, label a = label b ↔ Together steps a b := by
  induction steps using List.reverseRecOn with
  | nil => exact ⟨id, forest_discrete n, fun a b => together_nil.symm⟩
  | append_singleton steps step ih =>
    obtain ⟨hsteps, hstep⟩ := List.forall_mem_append.1 h
    obtain ⟨label, hforest, hlabel⟩ := ih hsteps
    have hbelow : step.Below n := hstep step (List.mem_singleton_self step)
    rw [run_concat]
    cases step with
    | find i =>
      refine ⟨label, (hforest.find_spec hbelow).2, fun a b => ?_⟩
      rw [together_concat_find, hlabel]
    | union i j =>
      obtain ⟨-, label', hforest', hmerged⟩ := hforest.union_spec hbelow.1 hbelow.2
      refine ⟨label', hforest', fun a b => ?_⟩
      rw [hmerged, together_concat_union hlabel]

/-! Ranks of one byte -/

theorem Forest.rank_lt_bits (h : Forest n label s) (hn : n < 2 ^ 64) (i : Nat) : s.rank i < 64 := by
  by_cases hi : i < n
  · have hclass := (h.rank_le i hi).trans (Finset.card_filter_le _ _)
    rw [Finset.card_range] at hclass
    exact (Nat.pow_lt_pow_iff_right Nat.one_lt_two).1 (hclass.trans_lt hn)
  · have hout : s.ranks.size ≤ i := by
      rw [h.size_ranks]
      omega
    rw [rank, Array.getElem?_eq_none hout]
    decide

/-- The forest with a byte for every rank; after 255 a byte is zero again. -/
structure Packed where
  parents : Array Nat
  ranks : Array UInt8

namespace Packed

def discrete (n : Nat) : Packed := ⟨(List.range n).toArray, Array.replicate n 0⟩

variable (p : Packed)

def sets : DisjointSets := ⟨p.parents, p.ranks.map UInt8.toNat⟩

def rank (i : Nat) : UInt8 := p.ranks[i]?.getD 0

def hang (i j : Nat) : Packed := { p with parents := p.parents.setIfInBounds i j }

def find (i : Nat) : Nat × Packed :=
  let (root, s) := p.sets.find i
  (root, { p with parents := s.parents })

def link (i j : Nat) : Bool × Packed :=
  if i = j then (false, p)
  else if p.rank i < p.rank j then (true, p.hang i j)
  else if p.rank j < p.rank i then (true, p.hang j i)
  else (true, { p.hang j i with ranks := p.ranks.modify i (· + 1) })

def union (i j : Nat) : Bool × Packed :=
  let (i, p) := p.find i
  let (j, p) := p.find j
  p.link i j

def after : Step → Packed
  | .find i => (p.find i).2
  | .union i j => (p.union i j).2

def run (steps : List Step) : Packed := steps.foldl after p

variable {p}

theorem sets_discrete (n : Nat) : (discrete n).sets = DisjointSets.discrete n := by
  simp [sets, discrete, DisjointSets.discrete]

theorem toNat_rank (i : Nat) : (p.rank i).toNat = p.sets.rank i := by
  simp only [rank, DisjointSets.rank, sets, Array.getElem?_map]
  cases p.ranks[i]? <;> rfl

theorem ranks_climb (steps : Nat) (s : DisjointSets) (i : Nat) :
    (climb steps s i).2.ranks = s.ranks := by
  induction steps generalizing s i with
  | zero => rfl
  | succ steps ih =>
    rw [climb]
    split
    · rfl
    · exact ih _ _

theorem find_eq (i : Nat) :
    (p.find i).1 = (p.sets.find i).1 ∧ (p.find i).2.sets = (p.sets.find i).2 := by
  have hranks : (p.sets.find i).2.ranks = p.sets.ranks := ranks_climb _ _ _
  refine ⟨rfl, ?_⟩
  change (⟨(p.sets.find i).2.parents, p.sets.ranks⟩ : DisjointSets) = _
  rw [← hranks]

theorem ranks_grow (i : Nat) (h : p.sets.rank i < 255) :
    (p.ranks.modify i (· + 1)).map UInt8.toNat = p.sets.ranks.modify i (· + 1) := by
  refine Array.ext_getElem? fun k => ?_
  rw [← toNat_rank, rank] at h
  rw [Array.getElem?_map, Array.getElem?_modify, Array.getElem?_modify, sets, Array.getElem?_map]
  split
  · next hk =>
    subst hk
    cases hr : p.ranks[i]? with
    | none => rfl
    | some r =>
      rw [hr, Option.getD_some] at h
      have hsum : (r + 1).toNat = r.toNat + 1 := by
        rw [UInt8.toNat_add]
        exact Nat.mod_eq_of_lt (by simpa using Nat.succ_lt_succ h)
      simp [hsum]
  · rfl

theorem link_eq (i j : Nat) (h : p.sets.rank i < 255) :
    (p.link i j).1 = (p.sets.link i j).1 ∧ (p.link i j).2.sets = (p.sets.link i j).2 := by
  simp only [link, DisjointSets.link, UInt8.lt_iff_toNat_lt, toNat_rank]
  split
  · exact ⟨rfl, rfl⟩
  split
  · exact ⟨rfl, rfl⟩
  split
  · exact ⟨rfl, rfl⟩
  · refine ⟨rfl, ?_⟩
    rw [← ranks_grow i h]
    rfl

theorem union_eq (h : Forest n label p.sets) (hn : n < 2 ^ 64) (hi : i < n) (hj : j < n) :
    (p.union i j).1 = (p.sets.union i j).1 ∧ (p.union i j).2.sets = (p.sets.union i j).2 := by
  obtain ⟨-, hfi⟩ := find_eq (p := p) i
  obtain ⟨-, hfj⟩ := find_eq (p := (p.find i).2) j
  obtain ⟨-, hforest⟩ := h.find_spec hi
  obtain ⟨-, hforest⟩ := hforest.find_spec hj
  have hunion : p.sets.union i j =
      ((p.find i).2.find j).2.sets.link (p.find i).1 ((p.find i).2.find j).1 := by
    change _ = ((p.find i).2.find j).2.sets.link (p.sets.find i).1 ((p.find i).2.sets.find j).1
    rw [hfj, hfi]
    rfl
  rw [hunion]
  refine link_eq _ _ ?_
  rw [← hfi, ← hfj] at hforest
  exact (hforest.rank_lt_bits hn _).trans (by decide)

theorem sets_after {step : Step} (h : Forest n label p.sets) (hn : n < 2 ^ 64)
    (hstep : step.Below n) : (p.after step).sets = step.after p.sets := by
  cases step with
  | find i => exact (find_eq i).2
  | union i j => exact (union_eq h hn hstep.1 hstep.2).2

/-- No byte ever starts again at zero. -/
theorem sets_run (hn : n < 2 ^ 64) (h : ∀ step ∈ steps, step.Below n) :
    (run (discrete n) steps).sets = DisjointSets.run (DisjointSets.discrete n) steps := by
  induction steps using List.reverseRecOn with
  | nil => exact sets_discrete n
  | append_singleton steps step ih =>
    obtain ⟨hsteps, hstep⟩ := List.forall_mem_append.1 h
    have hsets := ih hsteps
    obtain ⟨label, hforest, -⟩ := run_spec steps hsteps
    rw [← hsets] at hforest
    rw [run_concat, ← hsets, run, List.foldl_append]
    exact sets_after hforest hn (hstep step (List.mem_singleton_self step))

end Packed

/-! What is kept -/

/-- What a forest tells about the pairs that were joined. -/
structure Partitions (n : Nat) (steps : List Step) (s : DisjointSets) : Prop where
  climbs_iff : ∀ i < n, ∀ r t, Climbs s i r t ↔ s.find i = (r, t)
  find_lt : ∀ i < n, (s.find i).1 < n
  together : ∀ i < n, Together steps i (s.find i).1
  find_eq_iff : ∀ i < n, ∀ j < n, (s.find i).1 = (s.find j).1 ↔ Together steps i j
  parent_iff : ∀ r < n, s.parent r = r ↔ (s.find r).1 = r
  find_find : ∀ i < n, ∀ j < n, ((s.find i).2.find j).1 = (s.find j).1
  union_iff : ∀ i < n, ∀ j < n, (s.union i j).1 = true ↔ ¬ Together steps i j
  find_union : ∀ i < n, ∀ j < n, ∀ a < n, ∀ b < n,
    ((s.union i j).2.find a).1 = ((s.union i j).2.find b).1 ↔
      Together steps a b ∨ Together steps a i ∧ Together steps b j ∨
        Together steps a j ∧ Together steps b i
  two_pow_rank_le : ∀ r < n, s.parent r = r →
    2 ^ s.rank r ≤ ((Finset.range n).filter fun i => (s.find i).1 = r).card

theorem Forest.partitions (h : Forest n label s)
    (hlabel : ∀ a b, label a = label b ↔ Together steps a b) : Partitions n steps s := by
  have hfind {i : Nat} (hi : i < n) : (s.find i).1 = label i := (h.find_spec hi).1
  refine ⟨fun i hi r t => h.climbs_iff hi, fun i hi => ?_, fun i hi => ?_, fun i hi j hj => ?_,
    fun r hr => ?_, fun i hi j hj => ?_, fun i hi j hj => ?_, fun i hi j hj a ha b hb => ?_,
    fun r hr hroot => ?_⟩
  · rw [hfind hi]
    exact (h.label_spec hi).1
  · rw [hfind hi]
    exact (hlabel _ _).1 (h.label_spec hi).2.1.symm
  · rw [hfind hi, hfind hj, hlabel]
  · rw [hfind hr]
    exact ⟨h.label_root r, fun heq => heq ▸ h.parent_label hr⟩
  · rw [((h.find_spec hi).2.find_spec hj).1, hfind hj]
  · rw [(h.union_spec hi hj).1, ne_eq, hlabel]
  · obtain ⟨-, label', hforest, hmerged⟩ := h.union_spec hi hj
    rw [(hforest.find_spec ha).1, (hforest.find_spec hb).1, hmerged]
    simp only [hlabel]
  · have hclass : ((Finset.range n).filter fun i => (s.find i).1 = r) =
        (Finset.range n).filter fun i => label i = label r := by
      refine Finset.filter_congr fun i hi => ?_
      rw [hfind (Finset.mem_range.1 hi), h.label_root r hroot]
    rw [hclass]
    exact h.rank_le r hr

/-- After any calls the forest tells which numbers were joined: every search ends at the one root of its
class and changes no class, joining merges exactly two classes that were apart, and a class of rank `r`
has 2 to the power of `r` members. With fewer than 2 to the power of 64 numbers, ranks of one byte lead
to the same answers and to the same forest. -/
theorem run_partitions (h : ∀ step ∈ steps, step.Below n) :
    Partitions n steps (run (discrete n) steps) ∧
    (n < 2 ^ 64 →
      let p := Packed.run (Packed.discrete n) steps
      p.sets = run (discrete n) steps ∧ (∀ i, (p.rank i).toNat < 64) ∧
      ∀ i < n, ∀ j < n, (p.find i).1 = (p.sets.find i).1 ∧
        (p.union i j).1 = (p.sets.union i j).1) := by
  obtain ⟨label, hforest, hlabel⟩ := run_spec steps h
  refine ⟨hforest.partitions hlabel, fun hn => ?_⟩
  have hsets := Packed.sets_run hn h
  have hpacked := hforest
  rw [← hsets] at hpacked
  refine ⟨hsets, fun i => ?_, fun i hi j hj => ⟨(Packed.find_eq i).1, ?_⟩⟩
  · rw [Packed.toNat_rank]
    exact hpacked.rank_lt_bits hn i
  · exact (Packed.union_eq hpacked hn hi hj).1

/-- Two pairs, and a pair of members of these: the search from 1 walks over 0 to the root 2. -/
theorem run_partitions_of_pairs :
    let steps : List Step := [.union 0 1, .union 2 3, .union 3 1]
    let s := run (discrete 4) steps
    (∀ step ∈ steps, step.Below 4) ∧ s.parents = #[2, 0, 2, 2] ∧ s.ranks = #[1, 0, 2, 0] ∧
    Climbs s 1 2 ⟨#[2, 2, 2, 2], s.ranks⟩ ∧ Together steps 0 3 ∧ (s.union 0 3).1 = false ∧
    2 ^ s.rank 2 ≤ ((Finset.range 4).filter fun i => (s.find i).1 = 2).card ∧
    (Packed.run (Packed.discrete 4) steps).sets = s := by
  intro steps s
  have hbelow : ∀ step ∈ steps, step.Below 4 := by simp [steps, Step.Below]
  obtain ⟨hparts, hbytes⟩ := run_partitions hbelow
  have htogether : Together steps 0 3 := (hparts.find_eq_iff 0 (by decide) 3 (by decide)).1 (by decide)
  refine ⟨hbelow, by decide, by decide, (hparts.climbs_iff 1 (by decide) _ _).2 rfl, htogether, ?_,
    hparts.two_pow_rank_le 2 (by decide) (by decide), (hbytes (by decide)).1⟩
  rw [Bool.eq_false_iff, ne_eq, hparts.union_iff 0 (by decide) 3 (by decide), not_not]
  exact htogether

end Bayes.DisjointSets
