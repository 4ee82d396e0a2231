import Mathlib.Algebra.Group.Nat.Defs
import Mathlib.Data.Finset.Card
import Mathlib.Data.Finset.Range
import Bayes.DisjointSets
/-!
Partitions kept as forests. Every number is labelled with the root of its tree; ranks grow towards the
root, which is why a search ends, and a class of rank r has at least 2 to the power of r members.
Searching changes no label, and joining merges exactly two classes.
-/
namespace Bayes.DisjointSets

/-- A forest on the numbers below n with the root of its tree as the label of every number. -/
structure Forest (n : Nat) (label : Nat → Nat) (s : DisjointSets) : Prop where
  size_parents : s.parents.size = n
  size_ranks : s.ranks.size = n
  parent_lt : ∀ i < n, s.parent i < n
  rank_lt : ∀ i, s.parent i ≠ i → s.rank i < s.rank (s.parent i)
  label_parent : ∀ i, label (s.parent i) = label i
  label_root : ∀ i, s.parent i = i → label i = i
  rank_le : ∀ i < n, 2 ^ s.rank i ≤ ((Finset.range n).filter fun j => label j = label i).card

variable {n i j : Nat} {label : Nat → Nat} {s : DisjointSets}

theorem parent_hang (hi : i < s.parents.size) (k : Nat) :
    (s.hang i j).parent k = if k = i then j else s.parent k := by
  by_cases h : k = i
  · simp [parent, hang, h, hi]
  · simp [parent, hang, h, Ne.symm h]

theorem rank_hang (k : Nat) : (s.hang i j).rank k = s.rank k := rfl

theorem forest_discrete (n : Nat) : Forest n id (discrete n) where
  size_parents := by simp [discrete]
  size_ranks := by simp [discrete]
  parent_lt i hi := by simp [parent, discrete, hi]
  rank_lt i h := by
    refine absurd ?_ h
    by_cases hi : i < n <;> simp [parent, discrete, hi]
  label_parent i := by
    by_cases hi : i < n <;> simp [parent, discrete, hi]
  label_root i _ := rfl
  rank_le i hi := by
    have hr : (discrete n).rank i = 0 := by simp [rank, discrete, hi]
    rw [hr, Nat.pow_zero, Nat.succ_le_iff, Finset.card_pos]
    exact ⟨i, by simp [hi]⟩

/-- The numbers of greater rank, of which there are fewer with every step towards the root. -/
def outranking (n : Nat) (s : DisjointSets) (i : Nat) : Finset Nat :=
  (Finset.range n).filter fun j => s.rank i < s.rank j

theorem outranking_lt (hj : j < n) (h : s.rank i < s.rank j) :
    (outranking n s j).card < (outranking n s i).card := by
  refine Finset.card_lt_card ⟨fun k hk => ?_, fun hsub => ?_⟩
  · obtain ⟨hkn, hk⟩ := Finset.mem_filter.1 hk
    exact Finset.mem_filter.2 ⟨hkn, h.trans hk⟩
  · have hj' := Finset.mem_filter.1 (hsub (Finset.mem_filter.2 ⟨Finset.mem_range.2 hj, h⟩))
    exact lt_irrefl _ hj'.2

theorem Forest.outranking_parent (h : Forest n label s) (hi : i < n) (hne : s.parent i ≠ i) :
    (outranking n s (s.parent i)).card < (outranking n s i).card :=
  outranking_lt (h.parent_lt i hi) (h.rank_lt i hne)

theorem Forest.label_spec (h : Forest n label s) (hi : i < n) :
    label i < n ∧ label (label i) = label i ∧ s.rank i ≤ s.rank (label i) := by
  induction hc : (outranking n s i).card using Nat.strong_induction_on generalizing i with
  | _ c ih =>
    by_cases hroot : s.parent i = i
    · have hlabel := h.label_root i hroot
      rw [hlabel]
      exact ⟨hi, hlabel, le_rfl⟩
    · have hfewer := h.outranking_parent hi hroot
      obtain ⟨hlt, hidem, hrank⟩ := ih _ (hc ▸ hfewer) (h.parent_lt i hi) rfl
      rw [h.label_parent] at hlt hidem hrank
      exact ⟨hlt, hidem, (h.rank_lt i hroot).le.trans hrank⟩

theorem Forest.parent_label (h : Forest n label s) (hi : i < n) :
    s.parent (label i) = label i := by
  obtain ⟨hlt, hidem, _⟩ := h.label_spec hi
  by_contra hne
  have hrank := (h.label_spec (h.parent_lt _ hlt)).2.2
  rw [h.label_parent, hidem] at hrank
  have := h.rank_lt _ hne
  omega

theorem Forest.rank_lt_above (h : Forest n label s) (hne : s.parent i ≠ i) :
    s.rank i < s.rank (s.parent (s.parent i)) := by
  by_cases hp : s.parent (s.parent i) = s.parent i
  · rw [hp]
    exact h.rank_lt i hne
  · exact (h.rank_lt i hne).trans (h.rank_lt _ hp)

theorem Forest.hang_above (h : Forest n label s) (hi : i < n) (hne : s.parent i ≠ i) :
    Forest n label (s.hang i (s.parent (s.parent i))) := by
  have hi' : i < s.parents.size := h.size_parents ▸ hi
  have habove : s.parent (s.parent i) ≠ i := by
    intro e
    have hlt := h.rank_lt_above hne
    rw [e] at hlt
    exact lt_irrefl _ hlt
  refine ⟨by simpa [hang] using h.size_parents, h.size_ranks, fun k hk => ?_, fun k hk => ?_,
    fun k => ?_, fun k hk => ?_, h.rank_le⟩
  · rw [parent_hang hi']
    split
    · exact h.parent_lt _ (h.parent_lt i hi)
    · exact h.parent_lt k hk
  · rw [parent_hang hi'] at hk ⊢
    rw [rank_hang, rank_hang]
    split
    · next e =>
      rw [e]
      exact h.rank_lt_above hne
    · next e =>
      rw [if_neg e] at hk
      exact h.rank_lt k hk
  · rw [parent_hang hi']
    split
    · next e => rw [e, h.label_parent, h.label_parent]
    · exact h.label_parent k
  · rw [parent_hang hi'] at hk
    split at hk
    · next e => exact absurd (hk.trans e) habove
    · exact h.label_root k hk

theorem climb_spec (steps : Nat) : ∀ (s : DisjointSets) (i : Nat), Forest n label s → i < n →
    (outranking n s i).card ≤ steps →
    (climb steps s i).1 = label i ∧ Forest n label (climb steps s i).2 := by
  induction steps with
  | zero =>
    intro s i h hi h0
    have hroot : s.parent i = i := by
      by_contra hne
      have := h.outranking_parent hi hne
      omega
    exact ⟨(h.label_root i hroot).symm, h⟩
  | succ steps ih =>
    intro s i h hi hsteps
    by_cases hroot : s.parent i = i
    · rw [climb, if_pos hroot]
      exact ⟨(h.label_root i hroot).symm, h⟩
    · have hlt : s.parent (s.parent i) < n := h.parent_lt _ (h.parent_lt i hi)
      have hfewer := outranking_lt hlt (h.rank_lt_above hroot)
      have hlabel : label (s.parent (s.parent i)) = label i := by
        rw [h.label_parent, h.label_parent]
      rw [climb, if_neg hroot, ← hlabel]
      refine ih _ _ (h.hang_above hi hroot) hlt ?_
      change (outranking n s _).card ≤ steps
      omega

theorem Forest.find_spec (h : Forest n label s) (hi : i < n) :
    (s.find i).1 = label i ∧ Forest n label (s.find i).2 := by
  refine climb_spec _ s i h hi ?_
  rw [h.size_parents]
  exact (Finset.card_filter_le _ _).trans (Finset.card_range n).le

def merged (label : Nat → Nat) (i j k : Nat) : Nat := if label k = i then j else label k

theorem card_le_card_merged (n i j k : Nat) (label : Nat → Nat) :
    ((Finset.range n).filter fun l => label l = label k).card ≤
      ((Finset.range n).filter fun l => merged label i j l = merged label i j k).card := by
  refine Finset.card_le_card fun l hl => ?_
  obtain ⟨hln, hl⟩ := Finset.mem_filter.1 hl
  exact Finset.mem_filter.2 ⟨hln, by simp only [merged, hl]⟩

theorem Forest.hang_root (h : Forest n label s) (hi : i < n) (hj : j < n) (hij : i ≠ j)
    (hri : s.parent i = i) (hrj : s.parent j = j) {ranks : Array Nat} (hsize : ranks.size = n)
    (hrank : ∀ k, k ≠ j → ranks[k]?.getD 0 = s.rank k) (hup : s.rank j ≤ ranks[j]?.getD 0)
    (hbelow : s.rank i < ranks[j]?.getD 0)
    (hle : 2 ^ (ranks[j]?.getD 0) ≤
      ((Finset.range n).filter fun l => merged label i j l = j).card) :
    Forest n (merged label i j) { s.hang i j with ranks } := by
  have hi' : i < s.parents.size := h.size_parents ▸ hi
  have hli := h.label_root i hri
  have hlj := h.label_root j hrj
  have hparent (k : Nat) : ({ s.hang i j with ranks } : DisjointSets).parent k =
      if k = i then j else s.parent k := parent_hang hi' k
  have hmj : merged label i j j = j := by simp [merged, hlj]
  have hup' (k : Nat) : s.rank k ≤ ranks[k]?.getD 0 := by
    by_cases hk : k = j
    · exact hk ▸ hup
    · exact (hrank k hk).ge
  refine ⟨by simpa [hang] using h.size_parents, hsize, fun k hk => ?_, fun k hk => ?_,
    fun k => ?_, fun k hk => ?_, fun k hk => ?_⟩
  · rw [hparent]
    split
    · exact hj
    · exact h.parent_lt k hk
  · rw [hparent] at hk ⊢
    change ranks[k]?.getD 0 < ranks[_]?.getD 0
    by_cases e : k = i
    · rw [if_pos e, e, hrank i hij]
      exact hbelow
    · rw [if_neg e] at hk ⊢
      have hkj : k ≠ j := fun e => hk (by rw [e, hrj])
      rw [hrank k hkj]
      exact (h.rank_lt k hk).trans_le (hup' _)
  · rw [hparent]
    by_cases e : k = i
    · rw [if_pos e, e, hmj]
      simp [merged, hli]
    · rw [if_neg e, merged, merged, h.label_parent]
  · rw [hparent] at hk
    by_cases e : k = i
    · rw [if_pos e] at hk
      exact absurd (hk.trans e) hij.symm
    · rw [if_neg e] at hk
      have hlk := h.label_root k hk
      rw [merged, hlk, if_neg e]
  · change 2 ^ (ranks[k]?.getD 0) ≤ _
    by_cases e : k = j
    · rw [e, hmj]
      exact hle
    · rw [hrank k e]
      exact (h.rank_le k hk).trans (card_le_card_merged n i j k label)

theorem merged_eq_iff (i j a b : Nat) :
    merged label i j a = merged label i j b ↔
      label a = label b ∨ label a = i ∧ label b = j ∨ label a = j ∧ label b = i := by
  simp only [merged]
  split <;> split <;> grind

theorem disjoint_classes (n : Nat) (label : Nat → Nat) (hij : i ≠ j) :
    ((Finset.range n).filter fun l => label l = i).card +
      ((Finset.range n).filter fun l => label l = j).card =
      ((Finset.range n).filter fun l => merged label i j l = j).card := by
  rw [← Finset.card_union_of_disjoint]
  · congr 1
    ext l
    simp only [Finset.mem_union, Finset.mem_filter, merged]
    by_cases e : label l = i
    · simp [e, hij]
    · simp [e]
  · refine Finset.disjoint_left.2 fun l hl hl' => hij ?_
    rw [← (Finset.mem_filter.1 hl).2, (Finset.mem_filter.1 hl').2]

theorem Forest.link_spec (h : Forest n label s) (hi : i < n) (hj : j < n)
    (hri : s.parent i = i) (hrj : s.parent j = j) :
    ((s.link i j).1 = true ↔ i ≠ j) ∧
    ∃ label', Forest n label' (s.link i j).2 ∧ ∀ a b, label' a = label' b ↔
      label a = label b ∨ label a = i ∧ label b = j ∨ label a = j ∧ label b = i := by
  have hsi := h.rank_le i hi
  have hsj := h.rank_le j hj
  rw [h.label_root i hri] at hsi
  rw [h.label_root j hrj] at hsj
  by_cases hij : i = j
  · rw [link, if_pos hij]
    refine ⟨by simpa using hij, label, h, fun a b => ?_⟩
    rw [hij]
    grind
  · have hclasses := disjoint_classes n label hij
    have hclasses' := disjoint_classes n label (Ne.symm hij)
    rw [link, if_neg hij]
    by_cases hlt : s.rank i < s.rank j
    · rw [if_pos hlt]
      refine ⟨by simpa using hij, merged label i j, ?_, merged_eq_iff i j⟩
      refine h.hang_root hi hj hij hri hrj h.size_ranks (fun _ _ => rfl) le_rfl hlt ?_
      change 2 ^ s.rank j ≤ _
      omega
    · rw [if_neg hlt]
      by_cases hgt : s.rank j < s.rank i
      · rw [if_pos hgt]
        refine ⟨by simpa using hij, merged label j i, ?_, fun a b => ?_⟩
        · refine h.hang_root hj hi (Ne.symm hij) hrj hri h.size_ranks (fun _ _ => rfl) le_rfl hgt ?_
          change 2 ^ s.rank i ≤ _
          omega
        · rw [merged_eq_iff]
          grind
      · rw [if_neg hgt]
        have hi' : i < s.ranks.size := h.size_ranks ▸ hi
        have hranki : (s.ranks.modify i (· + 1))[i]?.getD 0 = s.rank i + 1 := by
          simp [rank, hi', Array.getElem_modify]
        have hrank (k : Nat) (hk : k ≠ i) : (s.ranks.modify i (· + 1))[k]?.getD 0 = s.rank k := by
          simp [rank, Array.getElem?_modify, Ne.symm hk]
        have heq : s.rank i = s.rank j := by omega
        refine ⟨by simpa using hij, merged label j i, ?_, fun a b => ?_⟩
        · refine h.hang_root hj hi (Ne.symm hij) hrj hri (by simpa using h.size_ranks) hrank
            (by omega) (by omega) ?_
          rw [hranki, Nat.pow_succ]
          rw [heq] at hsi ⊢
          omega
        · rw [merged_eq_iff]
          grind

/-- Joining reports whether two classes were apart, and merges exactly these two. -/
theorem Forest.union_spec (h : Forest n label s) (hi : i < n) (hj : j < n) :
    ((s.union i j).1 = true ↔ label i ≠ label j) ∧
    ∃ label', Forest n label' (s.union i j).2 ∧ ∀ a b, label' a = label' b ↔
      label a = label b ∨ label a = label i ∧ label b = label j ∨
        label a = label j ∧ label b = label i := by
  obtain ⟨hfi, hforest⟩ := h.find_spec hi
  obtain ⟨hfj, hforest'⟩ := hforest.find_spec hj
  have hunion : s.union i j = (((s.find i).2.find j).2).link (label i) (label j) := by
    rw [← hfi, ← hfj]
    rfl
  rw [hunion]
  exact hforest'.link_spec (h.label_spec hi).1 (h.label_spec hj).1 (hforest'.parent_label hi)
    (hforest'.parent_label hj)

end Bayes.DisjointSets
