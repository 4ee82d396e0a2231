import Mathlib.Data.Finset.Image
import Mathlib.Logic.Function.Basic
import Bayes.JunctionTree.Build
import Bayes.Proofs.DisjointSets
import Bayes.Proofs.Scope
/-!
The separators that are chosen span all cliques and there is none too many: every candidate that is
taken leaves one class fewer, a candidate that is skipped joins cliques that are already together, and
the chain joins the classes that are left, which share no variable.
-/
namespace Bayes.JunctionTree
open DisjointSets

variable {n : Nat} {label label' : Nat → Nat} {cliques : Array (List Nat)}

def classes (n : Nat) (label : Nat → Nat) : Nat := ((Finset.range n).image label).card

theorem classes_le (h : ∀ a b, label a = label b → label' a = label' b) :
    classes n label' ≤ classes n label := by
  obtain ⟨f, rfl⟩ := (Function.factorsThrough_iff label').1 fun {a b} => h a b
  rw [classes, ← Finset.image_image]
  exact Finset.card_image_le

theorem classes_lt (h : ∀ a b, label a = label b → label' a = label' b) {i j : Nat} (hi : i < n)
    (hj : j < n) (hij : label i ≠ label j) (hij' : label' i = label' j) :
    classes n label' < classes n label := by
  obtain ⟨f, rfl⟩ := (Function.factorsThrough_iff label').1 fun {a b} => h a b
  rw [classes, ← Finset.image_image]
  refine lt_of_le_of_ne Finset.card_image_le fun hcard => hij ?_
  have hinj := Finset.card_image_iff.1 hcard
  exact hinj (by simpa using ⟨i, hi, rfl⟩) (by simpa using ⟨j, hj, rfl⟩) hij'

/-- What taking some of the candidates does to a partition of the cliques. -/
structure Taken (n : Nat) (label label' : Nat → Nat) (candidates taken : List Separator) : Prop where
  sublist : taken.Sublist candidates
  coarser : ∀ a b, label a = label b → label' a = label' b
  fewer : taken.length + classes n label' ≤ classes n label
  together : ∀ s ∈ candidates, label' s.lower = label' s.upper
  generated : ∀ P : Nat → Prop, (∀ a b, label a = label b → (P a ↔ P b)) →
    (∀ s ∈ taken, (P s.lower ↔ P s.upper)) → ∀ a b, label' a = label' b → (P a ↔ P b)

theorem span_spec (candidates : List Separator) :
    ∀ (sets : DisjointSets) (label : Nat → Nat), Forest n label sets →
      (∀ s ∈ candidates, s.lower < n ∧ s.upper < n) →
      ∃ label', Forest n label' (span sets candidates).2 ∧
        Taken n label label' candidates (span sets candidates).1 := by
  induction candidates with
  | nil =>
    intro sets label h _
    exact ⟨label, h, List.Sublist.refl _, fun _ _ => id, by simp [span], by simp,
      fun P hP _ => hP⟩
  | cons s rest ih =>
    intro sets label h hlt
    obtain ⟨hi, hj⟩ := hlt s List.mem_cons_self
    obtain ⟨hapart, label₁, h₁, hiff⟩ := h.union_spec hi hj
    obtain ⟨label', h', taken⟩ := ih _ label₁ h₁ fun s hs => hlt s (List.mem_cons_of_mem _ hs)
    have hcoarser (a b : Nat) (hab : label a = label b) : label₁ a = label₁ b :=
      (hiff a b).2 (Or.inl hab)
    have hjoined : label₁ s.lower = label₁ s.upper := (hiff _ _).2 (Or.inr (Or.inl ⟨rfl, rfl⟩))
    have htogether : ∀ c ∈ s :: rest, label' c.lower = label' c.upper :=
      List.forall_mem_cons.2 ⟨taken.coarser _ _ hjoined, taken.together⟩
    -- a property that the new separator keeps cannot tell the two classes apart
    have hkeeps (P : Nat → Prop) (hP : ∀ a b, label a = label b → (P a ↔ P b))
        (hs : P s.lower ↔ P s.upper) (a b : Nat) (hab : label₁ a = label₁ b) : P a ↔ P b := by
      obtain h | ⟨ha, hb⟩ | ⟨ha, hb⟩ := (hiff a b).1 hab
      · exact hP a b h
      · exact (hP _ _ ha).trans (hs.trans (hP _ _ hb).symm)
      · exact (hP _ _ ha).trans (hs.symm.trans (hP _ _ hb).symm)
    refine ⟨label', h', ?_⟩
    by_cases hne : label s.lower = label s.upper
    · have hskip : (sets.union s.lower s.upper).1 = false := by
        simpa [hne] using hapart
      simp only [span, hskip, Bool.false_eq_true, if_false]
      refine ⟨taken.sublist.cons s, fun a b hab => taken.coarser a b (hcoarser a b hab),
        taken.fewer.trans (classes_le hcoarser), htogether, fun P hP hs => ?_⟩
      exact taken.generated P (hkeeps P hP (hP _ _ hne)) hs
    · have htake : (sets.union s.lower s.upper).1 = true := hapart.2 hne
      simp only [span, htake, if_true]
      refine ⟨taken.sublist.cons_cons s, fun a b hab => taken.coarser a b (hcoarser a b hab), ?_,
        htogether, fun P hP hs => ?_⟩
      · have := taken.fewer
        have := classes_lt hcoarser hi hj hne hjoined
        rw [List.length_cons]
        omega
      · obtain ⟨hs, hrest⟩ := List.forall_mem_cons.1 hs
        exact taken.generated P (hkeeps P hP hs) hrest

/-! The chain -/

theorem lowest_spec (l : List Nat) :
    ∀ (sets : DisjointSets) (roots : List Nat), Forest n label sets → (∀ c ∈ l, c < n) →
      (lowest sets roots l).Sublist l ∧ ((lowest sets roots l).map label).Nodup ∧
      (∀ c ∈ lowest sets roots l, label c ∉ roots) ∧
      ∀ c ∈ l, label c ∈ roots ∨ ∃ d ∈ lowest sets roots l, label d = label c := by
  induction l with
  | nil =>
    intro sets roots _ _
    simp [lowest]
  | cons c l ih =>
    intro sets roots h hlt
    obtain ⟨hfind, h'⟩ := h.find_spec (hlt c List.mem_cons_self)
    have hl : ∀ d ∈ l, d < n := fun d hd => hlt d (List.mem_cons_of_mem _ hd)
    by_cases hc : label c ∈ roots
    · have heq : lowest sets roots (c :: l) = lowest (sets.find c).2 roots l := by
        simp [lowest, hfind, hc]
      obtain ⟨hsub, hnodup, hnew, hall⟩ := ih _ roots h' hl
      rw [heq]
      exact ⟨hsub.cons c, hnodup, hnew, List.forall_mem_cons.2 ⟨Or.inl hc, hall⟩⟩
    · have heq : lowest sets roots (c :: l) = c :: lowest (sets.find c).2 (label c :: roots) l := by
        simp [lowest, hfind, hc]
      obtain ⟨hsub, hnodup, hnew, hall⟩ := ih _ (label c :: roots) h' hl
      rw [heq]
      refine ⟨hsub.cons_cons c, List.nodup_cons.2 ⟨fun hmem => ?_, hnodup⟩,
        List.forall_mem_cons.2 ⟨hc, fun d hd hmem => ?_⟩,
        List.forall_mem_cons.2 ⟨Or.inr ⟨c, List.mem_cons_self, rfl⟩, fun d hd => ?_⟩⟩
      · obtain ⟨d, hd, hdc⟩ := List.mem_map.1 hmem
        exact hnew d hd (hdc ▸ List.mem_cons_self)
      · exact hnew d hd (List.mem_cons_of_mem _ hmem)
      · obtain hmem | ⟨e, he, hed⟩ := hall d hd
        · obtain heq | hmem := List.mem_cons.1 hmem
          · exact Or.inr ⟨c, List.mem_cons_self, heq.symm⟩
          · exact Or.inl hmem
        · exact Or.inr ⟨e, List.mem_cons_of_mem _ he, hed⟩

structure Representatives (n : Nat) (label : Nat → Nat) (low : List Nat) : Prop where
  increasing : low.Pairwise (· < ·)
  lt : ∀ c ∈ low, c < n
  apart : low.Pairwise fun a b => label a ≠ label b
  all : ∀ c < n, ∃ d ∈ low, label d = label c

theorem representatives_lowest {sets : DisjointSets} (h : Forest n label sets) :
    Representatives n label (lowest sets [] (List.range n)) := by
  obtain ⟨hsub, hlabels, -, hall⟩ := lowest_spec (List.range n) sets [] h fun c => List.mem_range.1
  refine ⟨(Scope.increasing_range n).sublist hsub, fun c hc => List.mem_range.1 (hsub.subset hc),
    List.pairwise_map.1 hlabels, fun c hc => ?_⟩
  obtain hmem | hd := hall c (List.mem_range.2 hc)
  · simp at hmem
  · exact hd

theorem Representatives.length_le {low : List Nat} (h : Representatives n label low) :
    low.length ≤ classes n label := by
  have hlabels : (low.map label).Nodup := List.pairwise_map.2 h.apart
  rw [← List.length_map label, ← List.toFinset_card_of_nodup hlabels]
  refine Finset.card_le_card fun l hl => ?_
  obtain ⟨c, hc, rfl⟩ := List.mem_map.1 (List.mem_toFinset.1 hl)
  exact Finset.mem_image_of_mem label (Finset.mem_range.2 (h.lt c hc))

theorem length_chain (l : List Nat) : (chain l).length = l.length - 1 := by
  fun_induction chain l with
  | case1 i j rest ih => simp [ih]
  | case2 l h =>
    cases l with
    | nil => rfl
    | cons i l => cases l with
      | nil => rfl
      | cons j rest => exact absurd rfl (h i j rest)

theorem mem_chain {R : Nat → Nat → Prop} {l : List Nat} (h : l.Pairwise R) :
    ∀ s ∈ chain l, s.lower ∈ l ∧ s.upper ∈ l ∧ R s.lower s.upper ∧ s.shared = [] := by
  fun_induction chain l with
  | case1 i j rest ih =>
    obtain ⟨hi, hrest⟩ := List.pairwise_cons.1 h
    refine List.forall_mem_cons.2 ⟨⟨by simp, by simp, hi j List.mem_cons_self, rfl⟩, fun s hs => ?_⟩
    obtain ⟨hlow, hup, hR, hshared⟩ := ih hrest s hs
    exact ⟨List.mem_cons_of_mem _ hlow, List.mem_cons_of_mem _ hup, hR, hshared⟩
  | case2 => simp

theorem pairwise_chain {l : List Nat} (h : l.Pairwise (· < ·)) :
    (chain l).Pairwise fun s t => s.lower < t.lower := by
  fun_induction chain l with
  | case1 i j rest ih =>
    obtain ⟨hi, hrest⟩ := List.pairwise_cons.1 h
    exact List.pairwise_cons.2 ⟨fun s hs => hi _ (mem_chain hrest s hs).1, ih hrest⟩
  | case2 => exact List.Pairwise.nil

theorem chain_agrees {P : Nat → Prop} {l : List Nat}
    (h : ∀ s ∈ chain l, (P s.lower ↔ P s.upper)) : ∀ a ∈ l, ∀ b ∈ l, (P a ↔ P b) := by
  suffices hhead : ∀ a ∈ l, (P a ↔ P (l.headD 0)) from
    fun a ha b hb => (hhead a ha).trans (hhead b hb).symm
  fun_induction chain l with
  | case1 i j rest ih =>
    obtain ⟨hij, hrest⟩ := List.forall_mem_cons.1 h
    refine List.forall_mem_cons.2 ⟨Iff.rfl, fun a ha => ?_⟩
    exact (ih hrest a ha).trans hij.symm
  | case2 l hl =>
    cases l with
    | nil => simp
    | cons i l => cases l with
      | nil => simp
      | cons j rest => exact absurd rfl (hl i j rest)

/-! The candidates -/

def ends (s : Separator) : Nat × Nat := (s.lower, s.upper)

theorem mem_candidates {s : Separator} :
    s ∈ candidates cliques ↔ ∃ i j, i < j ∧ j < cliques.size ∧ s = separatorOf cliques i j ∧
      s.shared ≠ [] := by
  simp only [candidates, (List.mergeSort_perm _ _).mem_iff, List.mem_filter, List.mem_map,
    Prod.exists, Scope.mem_pairs (Scope.increasing_range _), List.mem_range]
  constructor
  · rintro ⟨⟨i, j, ⟨hi, hj, hij⟩, rfl⟩, hs⟩
    exact ⟨i, j, hij, hj, rfl, by simpa using hs⟩
  · rintro ⟨i, j, hij, hj, rfl, hs⟩
    exact ⟨⟨i, j, ⟨by omega, hj, hij⟩, rfl⟩, by simpa using hs⟩

theorem nodup_candidates : ((candidates cliques).map ends).Nodup := by
  have hperm := (List.mergeSort_perm (((Scope.pairs (List.range cliques.size)).map fun e =>
    separatorOf cliques e.1 e.2).filter fun s => !s.shared.isEmpty)
    fun s t => t.shared.length ≤ s.shared.length).map ends
  refine hperm.nodup_iff.2 (List.Nodup.sublist (List.filter_sublist.map ends) ?_)
  rw [List.map_map]
  have hends : ends ∘ (fun e : Nat × Nat => separatorOf cliques e.1 e.2) = id := rfl
  rw [hends, List.map_id]
  exact Scope.nodup_pairs (Scope.increasing_range _)

/-- Separators that form a tree on the cliques. -/
structure Spanning (cliques : Array (List Nat)) (separators : List Separator) : Prop where
  ends_lt : ∀ s ∈ separators, s.lower < s.upper ∧ s.upper < cliques.size
  shared_eq : ∀ s ∈ separators,
    s.shared = Scope.inter (cliques[s.lower]?.getD []) (cliques[s.upper]?.getD [])
  nodup : (separators.map ends).Nodup
  length_lt : separators.length < cliques.size
  connected : ∀ P : Nat → Prop, P 0 → (∀ s ∈ separators, (P s.lower ↔ P s.upper)) →
    ∀ c < cliques.size, P c

theorem candidate_spec {s : Separator} (h : s ∈ candidates cliques) :
    s.lower < s.upper ∧ s.upper < cliques.size ∧
      s.shared = Scope.inter (cliques[s.lower]?.getD []) (cliques[s.upper]?.getD []) := by
  obtain ⟨i, j, hij, hj, rfl, _⟩ := mem_candidates.1 h
  exact ⟨hij, hj, rfl⟩

variable {chosen : List Separator} {low : List Nat}

theorem Taken.inter_eq_nil (h : Taken n id label (candidates cliques) chosen) {a b : Nat}
    (hab : a < b) (hb : b < cliques.size) (hne : label a ≠ label b) :
    Scope.inter (cliques[a]?.getD []) (cliques[b]?.getD []) = [] := by
  by_contra hshared
  exact hne (h.together _ (mem_candidates.2 ⟨a, b, hab, hb, rfl, hshared⟩))

theorem Taken.nodup_ends (h : Taken n id label (candidates cliques) chosen)
    (hlow : Representatives n label low) : ((chosen ++ chain low).map ends).Nodup := by
  rw [List.map_append, List.nodup_append]
  refine ⟨nodup_candidates.sublist (h.sublist.map ends), ?_, fun e he f hf hef => ?_⟩
  · exact List.pairwise_map.2 ((pairwise_chain hlow.increasing).imp fun {s t} hst e =>
      hst.ne (Prod.mk.inj e).1)
  · obtain ⟨s, hs, rfl⟩ := List.mem_map.1 he
    obtain ⟨t, ht, rfl⟩ := List.mem_map.1 hf
    obtain ⟨hl, hu⟩ := Prod.mk.inj hef
    refine (mem_chain hlow.apart t ht).2.2.1 ?_
    rw [← hl, ← hu]
    exact h.together s (h.sublist.subset hs)

theorem spanning_of_taken (h0 : 0 < cliques.size)
    (h : Taken cliques.size id label (candidates cliques) chosen)
    (hlow : Representatives cliques.size label low) : Spanning cliques (chosen ++ chain low) := by
  refine ⟨fun s hs => ?_, fun s hs => ?_, h.nodup_ends hlow, ?_, fun P hroot hP c hc => ?_⟩
  · obtain hs | hs := List.mem_append.1 hs
    · obtain ⟨hlt, hup, _⟩ := candidate_spec (h.sublist.subset hs)
      exact ⟨hlt, hup⟩
    · obtain ⟨_, hup, hlt, _⟩ := mem_chain hlow.increasing s hs
      exact ⟨hlt, hlow.lt _ hup⟩
  · obtain hs | hs := List.mem_append.1 hs
    · exact (candidate_spec (h.sublist.subset hs)).2.2
    · obtain ⟨_, hup, hlt, hshared⟩ := mem_chain hlow.increasing s hs
      rw [hshared, h.inter_eq_nil hlt (hlow.lt _ hup) (mem_chain hlow.apart s hs).2.2.1]
  · have hcount := hlow.length_le
    have hfewer := h.fewer
    have hdiscrete : classes cliques.size id = cliques.size := by simp [classes]
    have hpos : 0 < low.length := by
      obtain ⟨d, hd, _⟩ := hlow.all 0 h0
      exact List.length_pos_of_mem hd
    rw [List.length_append, length_chain]
    omega
  · obtain ⟨hchosen, hchain⟩ := List.forall_mem_append.1 hP
    have hlabel := h.generated P (by simp) hchosen
    obtain ⟨d, hd, hdc⟩ := hlow.all c hc
    obtain ⟨d₀, hd₀, hd₀c⟩ := hlow.all 0 h0
    rw [← hlabel _ _ hdc, chain_agrees hchain d hd d₀ hd₀, hlabel _ _ hd₀c]
    exact hroot

theorem spanning_spec (h : 0 < cliques.size) : Spanning cliques (spanning cliques) := by
  obtain ⟨label, hforest, htaken⟩ := span_spec (candidates cliques) (.discrete cliques.size) id
    (forest_discrete cliques.size) fun s hs => by
      obtain ⟨hlt, hup, _⟩ := candidate_spec hs
      exact ⟨hlt.trans hup, hup⟩
  exact spanning_of_taken h htaken (representatives_lowest hforest)

end Bayes.JunctionTree
