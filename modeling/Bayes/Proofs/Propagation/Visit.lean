import Bayes.Proofs.Propagation.Order
import Bayes.Proofs.Propagation.Workers
/-!
A single visit on the way down. Whatever a clique has got from its parent and from its children, it sends
to each child the product of everything but what that child sent, summed onto the variables shared with
it, and the belief of the clique is the product of everything. A child without mass takes nothing from
what is sent to it.
-/
namespace Bayes

open Message (told About)

namespace Propagator

variable {card : Nat → Nat} {p : Propagator ℝ} {c : Nat} {collected : Collected ℝ} {s : Spread ℝ}

theorem at?_gathered_collectAll (ht : p.tree.Rooted) (how : Reduction) (hc : c < p.tree.size) :
    (p.collectAll how).gathered.at? c = some (p.product (p.collectAll how) c) := by
  have hs := gathered_foldl ht how (.of_perm ht.perm_postorder ht.inOrder_postorder)
  exact (hs.gathered c).trans (if_pos (ht.perm_postorder.mem_iff.2 (List.mem_range.2 hc)))

/-- What is sent to a child, whatever the other children and the parent have sent. -/
theorem carries_sent (ht : p.tree.Rooted) {above : Option (Message ℝ)} {m : Message ℝ}
    (hown : (p.own c).Carries card (p.tree.clique c) (p.factor c).value)
    (habove : About card (p.tree.clique c) above)
    (hchildren : ∀ u ∈ (p.tree.children c).map collected.upward.at?, About card (p.tree.clique c) u)
    {i e : Nat} (he : p.tree.parent? e = some c) (hi : (p.rests collected above c)[i]? = some m) :
    (m.onto (p.tree.separatorAbove e) .sum).Carries card (p.tree.separatorAbove e)
      (Reduction.sum.over card
        ((p.tree.clique c).filter fun v => !(p.tree.separatorAbove e).contains v) fun x =>
          (p.factor c).value x * told above x *
            ((((p.tree.children c).map collected.upward.at?).eraseIdx i).map (told · x)).prod) := by
  have honto := (carries_leaveOneOut hchildren (hown.absorb_told habove) hi).onto
    (p.tree.separatorAbove e) .sum
  rw [ht.filter_separatorAbove he] at honto
  exact honto

/-- What a clique sends to its children leaves out what each of them sent, and its belief leaves out
nothing. -/
theorem spread_exact {cliques : List (List Nat)} {t : JunctionTree} {families : List Nat}
    (ht : JunctionTree.build (α := ℝ) cliques = .ok t) (hp : p.tree = { t with families })
    (hc : c < p.tree.size) (hfactor : (p.factor c).Shaped card (p.tree.clique c))
    (hnonneg : (p.factor c).Nonneg)
    (habove : About card (p.tree.clique c) (s.downward.at? c))
    (hchildren : ∀ e ∈ p.tree.children c, About card (p.tree.clique c) (collected.upward.at? e))
    (hgathered : collected.gathered.at? c = some (p.product collected c))
    (hdownward : s.downward.size = p.tree.size) (hbeliefs : s.beliefs.size = p.tree.size) :
    (∀ (i e : Nat), (p.tree.children c)[i]? = some e →
      (p.spread collected s c).downward.Holds card e (p.tree.separatorAbove e)
        (Reduction.sum.over card
          ((p.tree.clique c).filter fun v => !(p.tree.separatorAbove e).contains v) fun x =>
            (p.factor c).value x * told (s.downward.at? c) x *
              (((p.tree.children c).eraseIdx i).map fun d => told (collected.upward.at? d) x).prod)) ∧
    (p.spread collected s c).beliefs.Holds card c (p.tree.clique c) fun x =>
      (p.factor c).value x *
        ((p.tree.children c).map fun d => told (collected.upward.at? d) x).prod *
          told (s.downward.at? c) x := by
  have hrooted : p.tree.Rooted := by
    rw [hp]
    exact (JunctionTree.build_spec ht).1.withFamilies families
  have hown := Message.carries_ofPotential hfactor hnonneg
  have hus : ∀ u ∈ (p.tree.children c).map collected.upward.at?, About card (p.tree.clique c) u := by
    intro u hu
    obtain ⟨e, he, rfl⟩ := List.mem_map.1 hu
    exact hchildren e he
  refine ⟨fun i e he => ?_, ?_⟩
  · obtain ⟨m, hi, hat⟩ := (spread_sends hrooted collected hdownward c).2.2 i e he
    have hparent := hrooted.mem_children.1 (List.mem_of_getElem? he)
    have hsent := carries_sent hrooted hown habove hus hparent hi
    rw [List.eraseIdx_map] at hsent
    simp only [List.map_map] at hsent
    exact ⟨_, hat, hsent⟩
  · have hproduct := carries_product_told hown hus
    rw [← Mail.got_eq hgathered] at hproduct
    simp only [List.map_map] at hproduct
    exact Mail.Holds.put_same (hbeliefs ▸ hc) (hproduct.absorb_told habove)

/-! A star with a leaf without mass -/

noncomputable def flat (vs : List Nat) (a : ℝ) : Potential ℝ := .ofFn (vs.map fun v => (v, 2)) fun _ => a

section Flat

variable {vs : List Nat} {a : ℝ} {x : Nat → Nat} (hvs : Scope.Increasing vs)
include hvs

theorem shaped_flat : (flat vs a).Shaped (fun _ => 2) vs := Potential.shaped_ofFn hvs _

theorem value_flat (hx : Within (fun _ => 2) vs x) : (flat vs a).value x = a :=
  Potential.value_ofFn (f := fun _ => a) hvs hx fun _ _ _ => rfl

theorem carries_flat (ha : 0 ≤ a) :
    (Message.ofPotential (flat vs a)).Carries (fun _ => 2) vs fun _ => a :=
  (Message.carries_ofPotential (shaped_flat hvs) (Potential.nonneg_ofFn fun _ => ha)).congr
    fun _ hx => value_flat hvs hx

end Flat

theorem sum_constant {v : Nat} {a : ℝ} {x : Nat → Nat} :
    Reduction.sum.over (fun _ => 2) [v] (fun _ => a) x = 2 * a := by
  norm_num [Reduction.over, Reduction.apply, assignments]

noncomputable def quietStar : Propagator ℝ :=
  ⟨starTree, #[flat [0, 1] 1, flat [1, 2] 0, flat [1, 3] 1], false⟩

noncomputable def quietCollected : Collected ℝ := quietStar.collectAll .sum

theorem holds_quietCollected : quietCollected.upward.Holds (fun _ => 2) 1 [1] (fun _ => 0) ∧
    quietCollected.upward.Holds (fun _ => 2) 2 [1] fun _ => 2 := by
  have hquiet := carries_flat (a := 0) (by simp [Scope.Increasing] : Scope.Increasing [1, 2]) le_rfl
  have hloud := carries_flat (by simp [Scope.Increasing] : Scope.Increasing [1, 3]) zero_le_one
  exact ⟨⟨_, rfl, (hquiet.onto [1] .sum).congr fun x _ => sum_constant.trans (mul_zero 2)⟩,
    ⟨_, rfl, (hloud.onto [1] .sum).congr fun x _ => sum_constant.trans (mul_one 2)⟩⟩

theorem about_quietCollected : ∀ e ∈ quietStar.tree.children 0,
    About (fun _ => 2) (quietStar.tree.clique 0) (quietCollected.upward.at? e) := by
  obtain ⟨hquiet, hloud⟩ := holds_quietCollected
  have hin : ∀ v ∈ [1], v ∈ quietStar.tree.clique 0 := by decide
  exact List.forall_mem_cons.2 ⟨hquiet.about hin, List.forall_mem_singleton.2 (hloud.about hin)⟩

theorem within_root {y : Nat → Nat} (hy : y ∈ assignments (fun _ => 2) [0] fun _ => 0) :
    Within (fun _ => 2) [0, 1] y := by
  obtain ⟨hin, hkept⟩ := mem_assignments.1 hy
  simpa [Within, hkept 1 (by simp)] using hin

/-- The leaf without mass is sent something, the other one nothing, and nothing is believed. -/
theorem spread_exact_of_quiet_leaf :
    JunctionTree.build [[0, 1], [1, 2], [1, 3]] = (.ok starTree : Except (Error ℝ) JunctionTree) ∧
    let s := quietStar.spread quietCollected ⟨quietStar.noMail, quietStar.noMail⟩ 0
    ∃ first second belief, s.downward.at? 1 = some first ∧ s.downward.at? 2 = some second ∧
      s.beliefs.at? 0 = some belief ∧ first.value (fun _ => 0) = 4 ∧
      second.value (fun _ => 0) = 0 ∧ belief.value (fun _ => 0) = 0 := by
  obtain ⟨hquiet, hloud⟩ := holds_quietCollected
  have hpair : Scope.Increasing [0, 1] := by simp [Scope.Increasing]
  have htree : quietStar.tree = { starTree with families := [] } := rfl
  have hrooted : quietStar.tree.Rooted := (JunctionTree.build_spec build_star).1
  have hfactor : (quietStar.factor 0).Shaped (fun _ => 2) (quietStar.tree.clique 0) := shaped_flat hpair
  have habove : About (fun _ => 2) (quietStar.tree.clique 0) ((quietStar.noMail : Mail ℝ).at? 0) :=
    Message.about_none
  obtain ⟨hsent, belief, hbelief, hbelieved⟩ := spread_exact
    (s := ⟨quietStar.noMail, quietStar.noMail⟩) build_star htree hrooted.root_lt hfactor
    (Potential.nonneg_ofFn fun _ => zero_le_one) habove about_quietCollected
    (at?_gathered_collectAll hrooted .sum hrooted.root_lt) rfl rfl
  obtain ⟨first, hfirst, htold⟩ := hsent 0 1 rfl
  obtain ⟨second, hsecond, htold'⟩ := hsent 1 2 rfl
  have hzero (vs : List Nat) : Within (fun _ => 2) vs fun _ => 0 := fun _ _ => two_pos
  refine ⟨build_star, first, second, belief, hfirst, hsecond, hbelief, ?_, ?_, ?_⟩
  · rw [htold.value_eq _ (hzero _)]
    refine (Reduction.over_congr (g := fun _ => 2) fun y hy => ?_).trans
      (sum_constant.trans (by norm_num))
    have hy := within_root hy
    change (flat [0, 1] 1).value y * 1 * (told (quietCollected.upward.at? 2) y * 1) = 2
    rw [value_flat hpair hy, hloud.told_eq (hy.mono (by simp))]
    norm_num
  · rw [htold'.value_eq _ (hzero _)]
    refine (Reduction.over_congr (g := fun _ => 0) fun y hy => ?_).trans
      (sum_constant.trans (mul_zero 2))
    change (flat [0, 1] 1).value y * 1 * (told (quietCollected.upward.at? 1) y * 1) = 0
    rw [hquiet.told_eq ((within_root hy).mono (by simp)), zero_mul, mul_zero]
  · rw [hbelieved.value_eq _ (hzero _)]
    change (flat [0, 1] 1).value _ * (told (quietCollected.upward.at? 1) _ * _) * 1 = 0
    rw [hquiet.told_eq (hzero _), zero_mul, mul_zero, zero_mul]

end Propagator
end Bayes
