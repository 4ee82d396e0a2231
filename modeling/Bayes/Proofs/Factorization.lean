import Bayes.Proofs.Intervention
/-!
The factors of the cliques. Every table and every finding goes into the factor of one clique, so together
the factors are the joint where an assignment agrees with the findings, and zero elsewhere. A factor that
leaves a table out keeps the finding and lacks just the table: times the entry it is the whole factor, and
another table does not change it.
-/
namespace Bayes

namespace Network

section Tables

variable {α : Type} [Scalar α]

theorem factor_withTable_of_ne (n : Network α) {u v : Nat} (table : Table α) (huv : u ≠ v) :
    (n.withTable v table).factor u = n.factor u := by
  rw [factor, factor, node?_withTable, if_neg huv.symm]

theorem absorbFinding_withTable (n : Network α) (v : Nat) (table : Table α) (found : Findings)
    (q : Potential α) (u : Nat) :
    (n.withTable v table).absorbFinding found (some v) q u = n.absorbFinding found (some v) q u := by
  by_cases huv : u = v
  · simp only [absorbFinding, huv, if_true]
  · have hvu : some v ≠ some u := fun heq => huv (Option.some.inj heq).symm
    simp only [absorbFinding, if_neg hvu, factor_withTable_of_ne n table huv, cardinality_withTable]

theorem cliqueFactor_withTable (n : Network α) (v : Nat) (table : Table α) (t : JunctionTree)
    (found : Findings) (c : Nat) :
    (n.withTable v table).cliqueFactor t found (some v) c = n.cliqueFactor t found (some v) c := by
  rw [cliqueFactor, cliqueFactor, cardinality_withTable]
  exact List.foldl_ext _ _ _ fun q u _ => absorbFinding_withTable n v table found q u

end Tables

variable {n : Network ℝ} {found : Findings} {x : Nat → Nat} {v c : Nat} {t : JunctionTree}

/-- The entry of the table that was left out makes the factor whole again. -/
theorem value_cliqueFactor_leftOut (h : n.WellFormed) (ht : t.Compiles n)
    (hfamily : t.family? v = some c) (hv : v < n.size)
    (hforced : Findings.intervened found v = false) (hx : Within n.cardinality (t.clique c) x) :
    (n.cliqueFactor t found (some v) c).value x * n.entryAt x v =
      (n.cliqueFactor t found none c).value x := by
  have hassigned : v ∈ (t.assigned c).toFinset := by
    rw [List.mem_toFinset, JunctionTree.mem_assigned, ht.length_families]
    exact ⟨hv, hfamily⟩
  have hnodup := t.nodup_assigned c
  rw [(means_cliqueFactor h ht c).value_eq x hx, (means_cliqueFactor h ht c).value_eq x hx,
    ← List.prod_toFinset _ hnodup, ← List.prod_toFinset _ hnodup]
  exact (prod_part_leftOut hassigned hforced).symm

/-- In a compiled network the factor of every clique has the variables of the clique, and the product of
all factors is the joint, or zero where an assignment disagrees with the findings. Each variable that is
not intervened has its table in the factor of one clique; without the table the factor lacks just the
entry, and is the same for every table. -/
theorem cliqueFactors_factorize {limit : Option Nat} {compiled : Compiled} (hn : n.Reachable)
    (hcompiled : n.compile limit = .ok compiled) (hfound : n.Admits found) :
    let t := compiled.tree
    (∀ c < t.size, ∀ leftOut, (n.cliqueFactor t found leftOut c).scope = t.clique c ∧
      (n.cliqueFactor t found leftOut c).cardinalities = (t.clique c).map n.cardinality) ∧
    (∀ x, Within n.cardinality n.ids x →
      ((List.range t.size).map fun c => (n.cliqueFactor t found none c).value x).prod =
        if Findings.agrees found x = true then n.joint found x else 0) ∧
    ∀ v < n.size, Findings.intervened found v = false → ∃ c < t.size, t.family? v = some c ∧
      (∀ x, Within n.cardinality n.ids x →
        (n.cliqueFactor t found (some v) c).value x * n.entryAt x v =
          (n.cliqueFactor t found none c).value x) ∧
      ∀ table, (n.withTable v table).cliqueFactor t found (some v) c =
        n.cliqueFactor t found (some v) c := by
  intro t
  have hformed := hn.wellFormed
  obtain ⟨-, ht⟩ := compile_spec hcompiled
  refine ⟨fun c _ leftOut => ?_, fun x hx => ?_, fun v hv hforced => ?_⟩
  · have hshaped : (n.cliqueFactor t found leftOut c).Shaped n.cardinality (t.clique c) :=
      (means_cliqueFactor hformed ht c).shaped
    exact ⟨hshaped.scope, hshaped.shape⟩
  · rw [← prod_part hfound, ← prod_cliqueFactor hformed ht hx]
    rfl
  · obtain ⟨c, hc, hfamily, -⟩ := ht.family v hv
    refine ⟨c, hc, hfamily, fun x hx => ?_, fun table => cliqueFactor_withTable n v table t found c⟩
    refine value_cliqueFactor_leftOut hformed ht hfamily hv hforced (hx.mono fun w hw => ?_)
    exact mem_ids.2 (ht.clique_lt c w hw)

end Network

namespace Engine

def dryRain : Nat → Nat := override (fun _ => 0) 0 1

theorem joint_dryRain : garden.joint sheltered dryRain = 1 / 2 := by
  have hfilter : (garden.ids.filter fun v => !Findings.intervened sheltered v) = [0] := rfl
  rw [Network.joint, hfilter, List.map_singleton, List.prod_singleton]
  exact entry_even rfl rfl

/-- The grass is kept dry, so of its table nothing is left; that it rains has probability one half. -/
theorem cliqueFactors_factorize_of_garden : garden.Reachable ∧ garden.Admits sheltered ∧
    ∃ compiled, garden.compile none = .ok compiled ∧
      ((List.range compiled.tree.size).map fun c =>
        (garden.cliqueFactor compiled.tree sheltered none c).value dryRain).prod = 1 / 2 := by
  have hclosed : garden.Closed := reachable_garden.wellFormed.parents_lt
  obtain ⟨compiled, hcompiled⟩ | ⟨_, _, hlimit, _⟩ := hclosed.compile_cases none
  · obtain ⟨-, hproduct, -⟩ :=
      Network.cliqueFactors_factorize reachable_garden hcompiled admits_sheltered
    have hin : Within garden.cardinality garden.ids dryRain := by
      change ∀ v ∈ [0, 1], dryRain v < garden.cardinality v
      decide
    have hagrees : Findings.agrees sheltered dryRain = true := by decide
    refine ⟨reachable_garden, admits_sheltered, compiled, hcompiled, ?_⟩
    rw [hproduct dryRain hin, if_pos hagrees, joint_dryRain]
  · cases hlimit

end Engine
end Bayes
