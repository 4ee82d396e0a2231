import Bayes.Proofs.Intervention
import Bayes.Proofs.Rows
/-!
What is forced says nothing about what it does not lead to. Variables that nothing else looks at are
summed out of the joint one by one, children before their parents, and each of them leaves one behind;
what stays are the variables upstream, and the interventions are not among these.
-/
namespace Bayes

def Findings.Forced (found : Findings) : Prop := ∀ v f, found.get? v = some f → f.kind = .intervened

theorem Findings.forced_empty : Findings.Forced .empty := fun v f hf => by
  simp [VarMap.get?_empty] at hf

namespace Network

def Stochastic (n : Network ℝ) : Prop := ∀ v < n.size, ∀ row ∈ (n.table v).rows, row.sum = 1

structure Ancestral (n : Network ℝ) (A : Finset Nat) : Prop where
  lt : ∀ v ∈ A, v < n.size
  parents_mem : ∀ v ∈ A, ∀ p ∈ n.parents v, p ∈ A

variable {n : Network ℝ} {found : Findings} {leftOut : Option Nat} {x y : Nat → Nat} {v : Nat}
  {A B : Finset Nat} {event : (Nat → Nat) → Bool}

theorem sum_of_uniform (shape : List Nat) {k : Nat} (hk : 0 < k) :
    ∀ row ∈ (uniform (shape ++ [k]) : Table ℝ).rows, row.sum = 1 := by
  intro row hrow
  simp only [uniform, List.getLast?_concat, Option.getD_some] at hrow
  have hpos : (k : ℝ) ≠ 0 := Nat.cast_ne_zero.2 hk.ne'
  rw [Table.eq_replicate_of_mem_rows hrow]
  simp [Scalar.ofNat, hpos]

theorem rowSum_of_forced (h : n.WellFormed) (hs : n.Stochastic) (hfound : n.Admits found)
    (hforced : Findings.Forced found) (hv : v < n.size)
    (hx : Within n.cardinality (n.parents v) x) : n.rowSum found x v = 1 := by
  cases hf : found.get? v with
  | none =>
    rw [rowSum_of_free hf]
    exact hs v hv _ (entries_mem_rows h hv hx)
  | some f =>
    obtain ⟨kind, state⟩ := f
    obtain rfl : kind = .intervened := hforced v _ hf
    exact rowSum_of_intervened hf (hfound v _ hf).2

/-- All states of some variables together weigh one, whatever the states of the others are. -/
theorem over_parts (h : n.WellFormed) (hranked : n.Ranked) (hs : n.Stochastic)
    (hfound : n.Admits found) (hforced : Findings.Forced found) (hA : ∀ v ∈ A, v < n.size)
    (hx : Within n.cardinality n.ids x) :
    Reduction.sum.overSet n.cardinality A (fun y => ∏ v ∈ A, n.part found none y v) x = 1 := by
  have hone := over_parts_mem (fun _ => 1) (fun _ => 1) h hranked
    (fun _ _ => zero_le_one) (fun v hv y hy => by
      rw [rowSum_of_forced h hs hfound hforced hv
        (hy.mono fun p hp => mem_ids.2 (h.parents_lt v p hp)), Set.Icc_self]
      exact Set.mem_singleton 1) A hA x hx
  simpa using hone

theorem Ancestral.mass_eq (hA : n.Ancestral A) (h : n.WellFormed) (hranked : n.Ranked)
    (hs : n.Stochastic) (hfound : n.Admits found) (hforced : Findings.Forced found)
    (hevent : DependsOn event A) :
    n.mass found event = Reduction.sum.overSet n.cardinality A
      (fun x => if event x = true then ∏ v ∈ A, n.part found none x v else 0) fun _ => 0 := by
  have hsub : A ⊆ Finset.range n.size := fun v hv => Finset.mem_range.2 (hA.lt v hv)
  have hids (v : Nat) : v ∈ n.ids ↔ v ∈ A ∪ (Finset.range n.size \ A) := by
    rw [Finset.union_sdiff_of_subset hsub, Finset.mem_range, mem_ids]
  have hnodup : n.ids.Nodup := List.nodup_range
  rw [Network.mass_eq, Reduction.over_eq_overSet hnodup hids,
    Reduction.overSet_union Finset.disjoint_sdiff]
  refine Reduction.over_congr fun y hy => ?_
  have hfirst : Within n.cardinality n.ids fun _ => 0 := fun v hv => h.card_pos v (mem_ids.1 hv)
  -- what is upstream does not change while the other variables are summed out
  have hupstream : ∀ z ∈ assignments n.cardinality (Finset.range n.size \ A).toList y,
      (if event z = true then ∏ v ∈ A, n.part found none z v else 0) =
        if event y = true then ∏ v ∈ A, n.part found none y v else 0 := by
    intro z hz
    have hkept : ∀ w ∈ A, z w = y w := fun w hw =>
      (mem_assignments.1 hz).2 w fun hmem => (Finset.mem_sdiff.1 (Finset.mem_toList.1 hmem)).2 hw
    have hparts : ∏ v ∈ A, n.part found none z v = ∏ v ∈ A, n.part found none y v := by
      refine Finset.prod_congr rfl fun v hv => part_congr fun w hw => hkept w ?_
      obtain hw | hw := List.mem_append.1 hw
      · exact hA.parents_mem v hv w hw
      · exact List.mem_singleton.1 hw ▸ hv
    rw [hevent hkept, hparts]
  have hnonneg : 0 ≤ if event y = true then ∏ v ∈ A, n.part found none y v else 0 :=
    ite_nonneg (Finset.prod_nonneg fun v hv => part_nonneg h (hA.lt v hv) y) le_rfl
  calc Reduction.sum.overSet n.cardinality (Finset.range n.size \ A) (fun z =>
        if event z = true then (if Findings.agrees found z = true then n.joint found z else 0) else 0) y
      = Reduction.sum.over n.cardinality (Finset.range n.size \ A).toList (fun z =>
          (if event z = true then ∏ v ∈ A, n.part found none z v else 0) *
            ∏ v ∈ Finset.range n.size \ A, n.part found none z v) y := by
        refine Reduction.over_congr fun z _ => ?_
        rw [← prod_part hfound, ite_mul, zero_mul, mul_comm, Finset.prod_sdiff hsub]
    _ = (if event y = true then ∏ v ∈ A, n.part found none y v else 0) *
          Reduction.sum.overSet n.cardinality (Finset.range n.size \ A)
            (fun z => ∏ v ∈ Finset.range n.size \ A, n.part found none z v) y :=
        Reduction.over_mul_left hnonneg hupstream
    _ = if event y = true then ∏ v ∈ A, n.part found none y v else 0 := by
        rw [over_parts h hranked hs hfound hforced (by simp +contextual) (hfirst.of_mem hy),
          mul_one]

/-- Nothing that is forced elsewhere changes the mass of an event upstream. -/
theorem Ancestral.mass_eq_empty (hA : n.Ancestral A) (h : n.WellFormed) (hranked : n.Ranked)
    (hs : n.Stochastic) (hfound : n.Admits found) (hforced : Findings.Forced found)
    (hfree : ∀ v ∈ A, found.get? v = none) (hevent : DependsOn event A) :
    n.mass found event = n.mass .empty event := by
  rw [hA.mass_eq h hranked hs hfound hforced hevent,
    hA.mass_eq h hranked hs admits_empty Findings.forced_empty hevent]
  refine Reduction.over_congr fun x _ => ?_
  have hparts : ∏ v ∈ A, n.part found none x v = ∏ v ∈ A, n.part .empty none x v :=
    Finset.prod_congr rfl fun v hv => by simp only [part, hfree v hv, VarMap.get?_empty]
  rw [hparts]

theorem mass_forced (h : n.WellFormed) (hranked : n.Ranked) (hs : n.Stochastic)
    (hfound : n.Admits found) (hforced : Findings.Forced found) : n.mass found (fun _ => true) = 1 := by
  have hall : n.Ancestral ∅ := ⟨by simp, by simp⟩
  rw [hall.mass_eq h hranked hs hfound hforced fun _ _ _ => rfl, Reduction.overSet_empty]
  simp

open Classical in
noncomputable def upstream (n : Network ℝ) (found : Findings) : Finset Nat :=
  (Finset.range n.size).filter fun w => ∀ v f, found.get? v = some f → ¬ n.Leads v w

theorem mem_upstream : v ∈ n.upstream found ↔
    v < n.size ∧ ∀ u f, found.get? u = some f → ¬ n.Leads u v := by
  simp only [upstream, Finset.mem_filter, Finset.mem_range]

theorem ancestral_upstream (h : n.WellFormed) : n.Ancestral (n.upstream found) where
  lt _ hv := (mem_upstream.1 hv).1
  parents_mem v hv p hp := mem_upstream.2 ⟨h.parents_lt v p hp, fun u f hf hleads =>
    (mem_upstream.1 hv).2 u f hf (Relation.ReflTransGen.tail hleads hp)⟩

theorem get?_of_upstream (hv : v ∈ n.upstream found) : found.get? v = none := by
  refine Option.eq_none_iff_forall_ne_some.2 fun f hf => ?_
  exact (mem_upstream.1 hv).2 v f hf Relation.ReflTransGen.refl

end Network

namespace Engine

variable {e : Engine ℝ} {n : Network ℝ} {found : Findings} {config : Config}

theorem ready_ofNetwork (he : ofNetwork n config = .ok e) : e.Ready n .empty := by
  obtain ⟨compiled, hcompiled, he⟩ := bind_eq_ok.1 he
  cases he
  obtain ⟨hvars, hcompiles⟩ := Network.compile_spec hcompiled
  exact ⟨rfl, hvars, hcompiles, rfl, Network.admits_empty, rfl, by simp [snapshot?]⟩

/-- Interventions are certain to happen, and they change no probability of a variable that none of them
leads to. -/
theorem intervention_silent_upstream (hn : n.Reachable) (hs : n.Stochastic)
    (he : ofNetwork n config = .ok e) (hfound : n.Admits found) (hforced : Findings.Forced found) :
    e.evidence.findings = .empty ∧ ∃ told, e.tell found = (.ok (), told) ∧
      told.evidence.findings = found ∧ told.evidenceProbability.1 = .ok 1 ∧
      ∀ w < n.size, (∀ v f, found.get? v = some f → ¬ n.Leads v w) →
        ∃ m, (told.marginal w).1 = .ok m ∧ (e.marginal w).1 = .ok m := by
  have h := hn.wellFormed
  have hranked := hn.linked_ranked.2
  have hfresh := ready_ofNetwork he
  obtain ⟨told, htell, hready⟩ := ready_tell he hfound
  have hmass := Network.mass_forced h hranked hs hfound hforced
  have hnothing : n.mass .empty (fun _ => true) = 1 :=
    Network.mass_forced h hranked hs Network.admits_empty Findings.forced_empty
  refine ⟨hfresh.findings, told, htell, hready.findings, ?_, fun w hw hnone => ?_⟩
  · rw [hready.evidenceProbability_eq h, hmass]
  · obtain ⟨x, hx, -⟩ := Network.vars_of_lt hw
    have hstate (i : Nat) : n.mass found (fun y => y w == i) = n.mass .empty fun y => y w == i :=
      (Network.ancestral_upstream h).mass_eq_empty h hranked hs hfound hforced
        (fun v hv => Network.get?_of_upstream hv)
        fun y z hyz => by rw [hyz w (Network.mem_upstream.2 ⟨hw, hnone⟩)]
    have hmarginal := hready.marginal_eq h hx (hmass.trans_ne one_ne_zero)
    have hfirst := hfresh.marginal_eq h hx (hnothing.trans_ne one_ne_zero)
    simp only [hstate, hmass, ← hnothing] at hmarginal
    exact ⟨_, hmarginal, hfirst⟩

def covered : Findings := VarMap.empty.insert 1 ⟨.intervened, 0⟩

theorem covered_eq {v : Nat} {f : Finding} (hf : covered.get? v = some f) :
    v = 1 ∧ f = ⟨.intervened, 0⟩ := by
  rw [covered, VarMap.get?_insert, VarMap.get?_empty] at hf
  split at hf
  · next hv => exact ⟨hv, (Option.some.inj hf).symm⟩
  · cases hf

theorem stochastic_garden : garden.Stochastic := by
  intro v hv
  have hv : v < 2 := hv
  obtain rfl | rfl : v = 0 ∨ v = 1 := by omega
  · exact Network.sum_of_uniform [] two_pos
  · exact Network.sum_of_uniform [2] two_pos

theorem not_leads_rain : ¬ garden.Leads 1 0 := by
  have hnone : ∀ c, 1 ∉ garden.parents c
    | 0 => by decide
    | 1 => by decide
    | c + 2 => by
      have hle : garden.size ≤ c + 2 := Nat.le_add_left 2 c
      simp [Network.parents_of_le hle]
  intro hleads
  have hmem : 0 ∈ ({1} : Set Nat) := hleads.mem (fun p hp c hc => by
    obtain rfl := Set.mem_singleton_iff.1 hp
    exact absurd hc (hnone c)) rfl
  simp at hmem

/-- Keeping the grass dry says nothing about the rain. -/
theorem intervention_silent_upstream_of_garden : garden.Reachable ∧ garden.Stochastic ∧
    garden.Admits covered ∧ ∃ e told, ofNetwork garden {} = .ok e ∧ e.tell covered = (.ok (), told) ∧
      told.evidenceProbability.1 = .ok 1 ∧
      ∃ m, (told.marginal 0).1 = .ok m ∧ (e.marginal 0).1 = .ok m := by
  have hadmits : garden.Admits covered :=
    Network.admits_insert Network.admits_empty (by decide) (by decide)
  have hforced : Findings.Forced covered := by
    intro v f hf
    rw [(covered_eq hf).2]
  obtain ⟨e, he⟩ := exists_ofNetwork reachable_garden
  obtain ⟨_, told, htell, _, hcertain, hsilent⟩ :=
    intervention_silent_upstream reachable_garden stochastic_garden he hadmits hforced
  refine ⟨reachable_garden, stochastic_garden, hadmits, e, told, he, htell, hcertain, ?_⟩
  refine hsilent 0 (by decide) fun v f hf => ?_
  rw [(covered_eq hf).1]
  exact not_leads_rain

end Engine
end Bayes
