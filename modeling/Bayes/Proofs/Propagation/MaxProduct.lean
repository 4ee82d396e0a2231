import Bayes.Propagation.MaxProduct
import Bayes.Proofs.Potential.Best
import Bayes.Proofs.Propagation.Calibrate
/-!
The best assignment. Every clique chooses states that attain the largest value it can promise to its
parent; because two parts of the tree share only variables already chosen, the choices of all cliques
together attain the maximum of the product of all factors.
-/
namespace Bayes

namespace Message

variable {card : Nat → Nat} {s : List Nat} {m : Message ℝ} {f : (Nat → Nat) → ℝ} {x y : Nat → Nat}

theorem Carries.le_of_potential_le (h : m.Carries card s f) (hx : Within card s x)
    (hy : Within card s y) (hle : m.potential.value x ≤ m.potential.value y) : f x ≤ f y := by
  rw [← h.value_eq x hx, ← h.value_eq y hy]
  cases hl : m.logScale with
  | none => rw [value_of_none hl, value_of_none hl]
  | some l =>
    rw [value_of_some hl, value_of_some hl]
    exact mul_le_mul_of_nonneg_right hle (Real.exp_pos l).le

end Message

theorem Reduction.dependsOn_over_list {how : Reduction} {card : Nat → Nat} {vs s : List Nat}
    {f : (Nat → Nat) → ℝ} (hf : DependsOn f {v | v ∈ s}) :
    DependsOn (how.over card vs f) {v | v ∈ s} := by
  intro x y hxy
  exact dependsOn_over hf fun v hv => hxy v hv.1

namespace Propagator

variable {card : Nat → Nat} {how : Reduction} {p : Propagator ℝ} {c d e v : Nat} {D : Finset Nat}
  {done : List Nat} {chosen : VarMap Nat} {x y : Nat → Nat}

theorem dependsOn_tells (h : p.Fits card) (hD : D ⊆ Finset.range p.tree.size) (c : Nat) :
    DependsOn (p.tells how card c D) {v | v ∈ p.tree.clique c} := by
  intro x y hxy
  refine Reduction.dependsOn_overSet (h.dependsOn_joint hD) fun v hv => hxy v ?_
  by_contra hvc
  exact hv.2 (Finset.mem_coe.2 (Finset.mem_sdiff.2
    ⟨Finset.mem_coe.1 hv.1, fun hmem => hvc (List.mem_toFinset.1 hmem)⟩))

/-! From every clique to all -/

theorem joint_union {E : Finset Nat} (h : Disjoint D E) :
    p.joint (D ∪ E) x = p.joint D x * p.joint E x :=
  Finset.prod_union h

/-- What a clique tells its parent is attained. -/
def Attains (card : Nat → Nat) (p : Propagator ℝ) (c : Nat) (x : Nat → Nat) : Prop :=
  p.tells .max card c (p.tree.below c) x =
    Reduction.max.over card (p.tree.fresh c) (p.tells .max card c (p.tree.below c)) x

theorem joint_belowAny (h : p.Fits card) (es : List Nat) (hes : ∀ e ∈ es, p.tree.parent? e = some c)
    (hnodup : es.Nodup)
    (heq : ∀ e ∈ es, p.joint (p.tree.below e) x = p.tells how card c (p.tree.below e) x) :
    p.joint (p.tree.belowAny es) x = p.tells how card c (p.tree.belowAny es) x := by
  induction es with
  | nil => rw [JunctionTree.belowAny_nil, Fits.tells_empty, joint, Finset.prod_empty]
  | cons e es ih =>
    obtain ⟨_, htail⟩ := List.forall_mem_cons.1 hes
    obtain ⟨hhead, hrest⟩ := List.forall_mem_cons.1 heq
    have hchildren := h.rooted.disjoint_belowAny hes hnodup
    rw [JunctionTree.belowAny_cons, joint_union hchildren,
      h.tells_union (p.tree.below_subset_range e) JunctionTree.belowAny_subset_range
        (h.rooted.apart_belowAny htail hchildren), hhead,
      ih htail (List.nodup_cons.1 hnodup).2 hrest]

/-- When every clique attains what it tells, the product of all factors below a clique is what the
clique can promise. -/
theorem joint_eq_tells (h : p.Fits card) (hall : ∀ d < p.tree.size, Attains card p d x) :
    ∀ c < p.tree.size,
      p.joint (p.tree.below c) x = p.tells .max card c (p.tree.below c) x := by
  intro c
  induction hn : (p.tree.below c).card using Nat.strong_induction_on generalizing c with
  | _ n ih =>
    intro hc
    have hes : ∀ e ∈ p.tree.children c, p.tree.parent? e = some c :=
      fun e he => h.rooted.mem_children.1 he
    have hchild : ∀ e ∈ p.tree.children c,
        p.joint (p.tree.below e) x = p.tells .max card c (p.tree.below e) x := by
      intro e he
      have hp := hes e he
      have helt := (h.rooted.parent?_some hp).1
      have hfewer : (p.tree.below e).card < (p.tree.below c).card := by
        refine Finset.card_lt_card ⟨h.rooted.below_subset hp, fun hsub => ?_⟩
        exact h.rooted.parent_not_mem_below hp (hsub (h.rooted.self_mem_below hc))
      rw [ih _ (hn ▸ hfewer) e rfl helt, hall e helt]
      exact tells_upward h hp
    have hself : Disjoint {c} (p.tree.belowAny (p.tree.children c)) := by
      refine Finset.disjoint_singleton_left.2 fun hmem => ?_
      obtain ⟨e, he, hce⟩ := JunctionTree.mem_belowAny.1 hmem
      exact h.rooted.parent_not_mem_below (hes e he) hce
    rw [← below_eq h hc, joint_union hself, h.tells_union (by simpa using hc)
      JunctionTree.belowAny_subset_range (h.rooted.apart_belowAny hes hself), Fits.tells_self,
      joint_belowAny h _ hes (JunctionTree.nodup_children h.rooted.nodup c) hchild, joint,
      Finset.prod_singleton]

/-! The choices -/

/-- The choices made so far are right. -/
structure Decided (card : Nat → Nat) (p : Propagator ℝ) (done : List Nat) (chosen : VarMap Nat) :
    Prop where
  keys : ∀ v, (∃ i, chosen.get? v = some i) ↔ ∃ c ∈ done, v ∈ p.tree.clique c
  in_range : ∀ v i, chosen.get? v = some i → i < card v
  attains : ∀ c ∈ done, Attains card p c chosen.states

theorem mem_separator_of_decided (h : p.Fits card) (hc : c < p.tree.size) (hnew : c ∉ done)
    (hup : ∀ d ∈ done, ∀ q, p.tree.parent? d = some q → q ∈ done) (hv : v ∈ p.tree.clique c)
    (hd : d ∈ done) (hvd : v ∈ p.tree.clique d) : v ∈ p.tree.separatorAbove c := by
  have hbelow : d ∉ p.tree.below c := by
    rw [h.rooted.mem_below hc]
    intro hdc
    refine hnew (Relation.ReflTransGen.head_induction_on
      (motive := fun a _ => a ∈ done → c ∈ done) hdc id ?_ hd)
    exact fun hq _ ih ha => ih (hup _ ha _ hq)
  by_cases hcr : c = p.tree.root
  · refine absurd ?_ hbelow
    rw [hcr, h.rooted.below_root]
    exact Finset.mem_range.2 (JunctionTree.lt_of_mem_clique hvd)
  · obtain ⟨q, _, hq, _⟩ := h.rooted.parent c hc hcr
    exact h.rooted.crossing hq (h.rooted.self_mem_below hc) hv hbelow hvd

/-- A clique gives its new variables the states of a best entry among those that agree with the choices
made before. -/
theorem decide_spec {collected : Collected ℝ} (h : p.Fits card)
    (hshaped : (collected.gathered.got c).potential.Shaped card (p.tree.clique c))
    (hpos : ∀ v ∈ p.tree.clique c, 0 < card v)
    (hsep : ∀ v ∈ p.tree.separatorAbove c, ∃ i, chosen.get? v = some i ∧ i < card v) :
    ∃ best, Within card (p.tree.fresh c) best ∧
      (∀ v, (p.decide collected chosen c).get? v =
        if v ∈ p.tree.fresh c then some ((chosen.get? v).getD (best v)) else chosen.get? v) ∧
      ∀ y, Within card (p.tree.fresh c) y →
        (collected.gathered.got c).potential.value (chosen.onto (p.tree.separatorAbove c) y) ≤
          (collected.gathered.got c).potential.value (chosen.onto (p.tree.separatorAbove c) best) := by
  obtain ⟨hsliced, hvalue⟩ := Potential.sliceAll_spec _ (h.rooted.nodup_separator c) hsep _ _ hshaped
    fun v hv => (h.rooted.mem_clique_of_separator hv).1
  change Potential.Shaped card (p.tree.fresh c) _ at hsliced
  obtain ⟨best, hbest, hargmax, hmax⟩ := Potential.argmax_spec hsliced fun v hv =>
    hpos v (JunctionTree.mem_fresh.1 hv).1
  refine ⟨best, hbest, fun v => ?_, fun y hy => ?_⟩
  · have hdecide : p.decide collected chosen c =
        ((p.tree.fresh c).map fun v => (v, best v)).foldl (fun m e => m.insertIfNew e.1 e.2)
          chosen := by
      have hindex := congrArg Prod.fst hargmax
      simp only at hindex
      rw [← zip_map_self (p.tree.fresh c) best, ← hindex, ← hsliced.scope]
      rfl
    rw [hdecide, VarMap.get?_foldl_insertIfNew]
  · rw [← hvalue y hy, ← hvalue best hbest]
    exact hmax y hy

theorem attains_of_best {m : Message ℝ} {best : Nat → Nat}
    (hm : m.Carries card (p.tree.clique c) (p.tells .max card c (p.tree.below c)))
    (hx : Within card (p.tree.clique c) x)
    (hbest : ∀ v ∈ p.tree.fresh c, x v = best v)
    (hsep : ∀ v ∈ p.tree.separatorAbove c, x v = chosen.states v)
    (hmax : ∀ y, Within card (p.tree.fresh c) y →
      m.potential.value (chosen.onto (p.tree.separatorAbove c) y) ≤
        m.potential.value (chosen.onto (p.tree.separatorAbove c) best)) : Attains card p c x := by
  have hsame (y z : Nat → Nat) (hy : ∀ v ∈ p.tree.separatorAbove c, y v = chosen.states v)
      (hyz : ∀ v ∈ p.tree.fresh c, y v = z v) :
      m.potential.value y = m.potential.value (chosen.onto (p.tree.separatorAbove c) z) := by
    refine hm.shaped.dependsOn fun v (hv : v ∈ p.tree.clique c) => ?_
    by_cases hvs : v ∈ p.tree.separatorAbove c
    · simp [VarMap.onto, hvs, hy v hvs]
    · simp [VarMap.onto, hvs, hyz v (JunctionTree.mem_fresh.2 ⟨hv, hvs⟩)]
  have hfresh : Within card (p.tree.fresh c) x := hx.mono fun v hv => (JunctionTree.mem_fresh.1 hv).1
  refine (Reduction.max_over_eq hfresh fun y hy => ?_).symm
  obtain ⟨hyin, hyout⟩ := mem_assignments.1 hy
  have hysep : ∀ v ∈ p.tree.separatorAbove c, y v = chosen.states v := by
    intro v hv
    rw [hyout v fun hfr => (JunctionTree.mem_fresh.1 hfr).2 hv, hsep v hv]
  have hy : Within card (p.tree.clique c) y := by
    intro v hv
    by_cases hfr : v ∈ p.tree.fresh c
    · exact hyin v hfr
    · rw [hyout v hfr]
      exact hx v hv
  refine hm.le_of_potential_le hy hx ?_
  rw [hsame y y hysep fun _ _ => rfl, hsame x best hsep hbest]
  exact hmax y hyin

theorem Attains.congr (h : p.Fits card) (hx : Attains card p c x)
    (hxy : ∀ v ∈ p.tree.clique c, x v = y v) : Attains card p c y := by
  have hdep : DependsOn (p.tells .max card c (p.tree.below c)) {v | v ∈ p.tree.clique c} :=
    dependsOn_tells h (p.tree.below_subset_range c) c
  have hover : DependsOn (Reduction.max.over card (p.tree.fresh c)
      (p.tells .max card c (p.tree.below c))) {v | v ∈ p.tree.clique c} :=
    Reduction.dependsOn_over_list hdep
  rw [Attains, ← hdep hxy, ← hover hxy]
  exact hx

theorem Decided.separator (hs : Decided card p done chosen) (h : p.Fits card)
    (hparent : ∀ q, p.tree.parent? c = some q → q ∈ done) {v : Nat}
    (hv : v ∈ p.tree.separatorAbove c) : ∃ i, chosen.get? v = some i ∧ i < card v := by
  obtain ⟨_, q, hq, hvq⟩ := h.rooted.mem_clique_of_separator hv
  obtain ⟨i, hi⟩ := (hs.keys v).2 ⟨q, hparent q hq, hvq⟩
  exact ⟨i, hi, hs.in_range v i hi⟩

theorem not_mem_fresh_of_decided (h : p.Fits card) (hc : c < p.tree.size) (hnew : c ∉ done)
    (hup : ∀ d ∈ done, ∀ q, p.tree.parent? d = some q → q ∈ done) {d v : Nat} (hd : d ∈ done)
    (hv : v ∈ p.tree.clique d) : v ∉ p.tree.fresh c := by
  intro hfresh
  obtain ⟨hvc, hvs⟩ := JunctionTree.mem_fresh.1 hfresh
  exact hvs (mem_separator_of_decided h hc hnew hup hvc hd hv)

theorem mem_separator_of_not_fresh {v : Nat} (hv : v ∈ p.tree.clique c) (hfresh : v ∉ p.tree.fresh c) :
    v ∈ p.tree.separatorAbove c := by
  by_contra hvs
  exact hfresh (JunctionTree.mem_fresh.2 ⟨hv, hvs⟩)

theorem decided_decide (h : p.Fits card) (hpos : ∀ c, ∀ v ∈ p.tree.clique c, 0 < card v)
    {collected : Collected ℝ} (hcollected : p.Sent card .max p.tree.postorder collected)
    (hs : Decided card p done chosen) (hc : c < p.tree.size) (hnew : c ∉ done)
    (hup : ∀ d ∈ done, ∀ q, p.tree.parent? d = some q → q ∈ done)
    (hparent : ∀ q, p.tree.parent? c = some q → q ∈ done) :
    Decided card p (done ++ [c]) (p.decide collected chosen c) := by
  have hm := (hcollected.gathered c (mem_postorder h hc)).got
  have hsep (v : Nat) (hv : v ∈ p.tree.separatorAbove c) := hs.separator h hparent hv
  have hfresh (d v : Nat) (hd : d ∈ done) (hv : v ∈ p.tree.clique d) : v ∉ p.tree.fresh c :=
    not_mem_fresh_of_decided h hc hnew hup hd hv
  obtain ⟨best, hbest, hget, hmax⟩ := decide_spec h hm.shaped (hpos c) hsep
  have hgetfresh (v : Nat) (hv : v ∈ p.tree.fresh c) :
      (p.decide collected chosen c).get? v = some (best v) := by
    have hnone : chosen.get? v = none := by
      by_contra hsome
      obtain ⟨d, hd, hvd⟩ := (hs.keys v).1 (Option.ne_none_iff_exists'.1 hsome)
      exact hfresh d v hd hvd hv
    rw [hget v, if_pos hv, hnone, Option.getD_none]
  have hgetold (v : Nat) (hv : v ∉ p.tree.fresh c) :
      (p.decide collected chosen c).get? v = chosen.get? v := by
    rw [hget v, if_neg hv]
  have hrange (v i : Nat) (hi : (p.decide collected chosen c).get? v = some i) : i < card v := by
    by_cases hv : v ∈ p.tree.fresh c
    · rw [hgetfresh v hv] at hi
      exact Option.some.inj hi ▸ hbest v hv
    · rw [hgetold v hv] at hi
      exact hs.in_range v i hi
  have hkeys (v : Nat) (hv : v ∈ p.tree.clique c) :
      ∃ i, (p.decide collected chosen c).get? v = some i := by
    by_cases hfr : v ∈ p.tree.fresh c
    · exact ⟨_, hgetfresh v hfr⟩
    · obtain ⟨i, hi, _⟩ := hsep v (mem_separator_of_not_fresh hv hfr)
      exact ⟨i, (hgetold v hfr).trans hi⟩
  have hsame (v : Nat) (hv : v ∉ p.tree.fresh c) :
      (p.decide collected chosen c).states v = chosen.states v := by
    rw [VarMap.states, hgetold v hv, VarMap.states]
  refine ⟨fun v => ?_, hrange, fun d hd => ?_⟩
  · constructor
    · rintro ⟨i, hi⟩
      by_cases hv : v ∈ p.tree.fresh c
      · exact ⟨c, by simp, (JunctionTree.mem_fresh.1 hv).1⟩
      · rw [hgetold v hv] at hi
        obtain ⟨d, hd, hvd⟩ := (hs.keys v).1 ⟨i, hi⟩
        exact ⟨d, by simp [hd], hvd⟩
    · rintro ⟨d, hd, hvd⟩
      obtain hd | hd := List.mem_append.1 hd
      · rw [hgetold v (hfresh d v hd hvd)]
        exact (hs.keys v).2 ⟨d, hd, hvd⟩
      · obtain rfl := List.mem_singleton.1 hd
        exact hkeys v hvd
  · obtain hd | hd := List.mem_append.1 hd
    · exact (hs.attains d hd).congr h fun v hv => (hsame v (hfresh d v hd hv)).symm
    · obtain rfl := List.mem_singleton.1 hd
      refine attains_of_best hm (fun v hv => ?_) (fun v hv => ?_) (fun v hv => ?_) hmax
      · obtain ⟨i, hi⟩ := hkeys v hv
        rw [VarMap.states, hi]
        exact hrange v i hi
      · rw [VarMap.states, hgetfresh v hv]
        rfl
      · exact hsame v fun hfr => (JunctionTree.mem_fresh.1 hfr).2 hv

theorem decided_preorder (h : p.Fits card) (hpos : ∀ c, ∀ v ∈ p.tree.clique c, 0 < card v) :
    Decided card p p.tree.preorder
      (p.tree.preorder.foldl (p.decide (p.collectAll .max)) .empty) := by
  refine (foldl_invariant (fun done chosen => Decided card p done chosen ∧
    ∀ d ∈ done, ∀ q, p.tree.parent? d = some q → q ∈ done) ?_ fun done c rest chosen hl hs => ?_).1
  · exact ⟨⟨by simp [VarMap.get?_empty], by simp [VarMap.get?_empty], by simp⟩, by simp⟩
  · obtain ⟨hs, hup⟩ := hs
    obtain ⟨hc, hnew, hparent⟩ := h.rooted.preorder_visit hl
    refine ⟨decided_decide h hpos (sent_collectAll h .max) hs hc hnew hup hparent, fun d hd q hq => ?_⟩
    obtain hd | hd := List.mem_append.1 hd
    · exact List.mem_append_left _ (hup d hd q hq)
    · obtain rfl := List.mem_singleton.1 hd
      exact List.mem_append_left _ (hparent q hq)

theorem dependsOn_product (h : p.Fits card) (hsize : p.factors.size = p.tree.size) :
    DependsOn (Potential.product p.factors) {v | v ∈ p.tree.allVars} := by
  intro x y hxy
  have heq := h.dependsOn_joint (Finset.Subset.refl _) fun v hv =>
    hxy v (JunctionTree.mem_allVars.2 (Finset.mem_coe.1 hv))
  rwa [joint_range hsize, joint_range hsize] at heq

theorem exists_value_pos {s : List Nat} {m : Message ℝ} {f : (Nat → Nat) → ℝ} {l : ℝ}
    (hm : m.Carries card s f) (hl : m.logScale = some l)
    (hmax : ∀ z, Within card s z → m.potential.value z ≤ m.potential.value y) :
    0 < m.potential.value y := by
  by_contra hle
  have hzero : ∀ z ∈ assignments card s fun _ => 0, m.potential.value z = 0 := by
    intro z hz
    exact le_antisymm ((hmax z (mem_assignments.1 hz).1).trans (not_lt.1 hle))
      (hm.nonneg.value_nonneg z)
  have htotal := hm.unit_mass l hl
  rw [hm.shaped.total_eq fun _ => 0, Reduction.over_congr hzero] at htotal
  have hnone := Reduction.apply_zeros .sum (assignments card s fun _ => 0)
  exact zero_ne_one (hnone.symm.trans htotal)

/-- The root knows the largest product: none if all products are zero, and otherwise its logarithm. -/
theorem logTotal_max (h : p.Fits card) (hsize : p.factors.size = p.tree.size)
    (hpos : ∀ c, ∀ v ∈ p.tree.clique c, 0 < card v) :
    (p.collectAll .max).logTotal p.tree.root =
      if Reduction.max.over card p.tree.allVars (Potential.product p.factors) x = 0 then none
      else some (Real.log
        (Reduction.max.over card p.tree.allVars (Potential.product p.factors) x)) := by
  have hroot := h.rooted.root_lt
  have hs := sent_collectAll h .max
  have hm := (hs.gathered _ (mem_postorder h hroot)).got
  rw [h.rooted.below_root] at hm
  obtain ⟨y, hy, hargmax, hmax⟩ := Potential.argmax_spec hm.shaped (hpos p.tree.root)
  have hlargest : Reduction.max.over card p.tree.allVars (Potential.product p.factors) x =
      p.tells .max card p.tree.root (Finset.range p.tree.size) y := by
    rw [← over_tells_range h hsize hroot]
    refine Reduction.max_over_of_dependsOn (dependsOn_tells h (Finset.Subset.refl _) _) hy ?_
    exact fun z hz => hm.le_of_potential_le hz hy (hmax z hz)
  rw [hlargest, Collected.logTotal, hs.how_eq]
  simp only [hargmax]
  cases hl : ((p.collectAll .max).gathered.got p.tree.root).logScale with
  | none =>
    rw [← hm.value_eq y hy, Message.value_of_none hl, if_pos rfl]
    rfl
  | some l =>
    have hvalue := exists_value_pos hm hl hmax
    have hexp := Real.exp_pos l
    rw [← hm.value_eq y hy, Message.value_of_some hl, if_neg (mul_pos hvalue hexp).ne',
      Real.log_mul hvalue.ne' hexp.ne', Real.log_exp, add_comm (Real.log _)]
    rfl

theorem maxProduct_eq (h : p.cancelled = false) :
    p.maxProduct = .ok (((p.collectAll .max).logTotal p.tree.root).map fun log =>
      (p.tree.preorder.foldl (p.decide (p.collectAll .max)) .empty, log)) := by
  simp [maxProduct, collect, h, bind, Except.bind, pure, Except.pure]

theorem product_states (h : p.Fits card) (hsize : p.factors.size = p.tree.size)
    (hs : Decided card p p.tree.preorder chosen) : Potential.product p.factors chosen.states =
      Reduction.max.over card p.tree.allVars (Potential.product p.factors) chosen.states := by
  have hroot := h.rooted.root_lt
  have hall : ∀ d < p.tree.size, Attains card p d chosen.states := fun d hd =>
    hs.attains d ((h.rooted.mem_preorder d).2 hd)
  have hjoint := joint_eq_tells h hall _ hroot
  have hattains := hall _ hroot
  have hfresh : p.tree.fresh p.tree.root = p.tree.clique p.tree.root := by
    simp [JunctionTree.fresh, h.rooted.separator_root]
  rw [Attains, h.rooted.below_root, hfresh, over_tells_range h hsize hroot] at hattains
  rw [h.rooted.below_root, joint_range hsize] at hjoint
  rw [hjoint, hattains]

theorem exists_best (h : p.Fits card) (hsize : p.factors.size = p.tree.size)
    (hcancelled : p.cancelled = false) (hpos : ∀ v ∈ p.tree.allVars, 0 < card v) :
    ∃ chosen : VarMap Nat, chosen.keys = p.tree.allVars ∧ Within card p.tree.allVars chosen.states ∧
      (∀ x, Within card p.tree.allVars x →
        Potential.product p.factors x ≤ Potential.product p.factors chosen.states) ∧
      p.maxProduct = .ok (if Potential.product p.factors chosen.states = 0 then none
        else some (chosen, Real.log (Potential.product p.factors chosen.states))) := by
  have hpos' : ∀ c, ∀ v ∈ p.tree.clique c, 0 < card v := fun c v hv =>
    hpos v (JunctionTree.mem_allVars.2 (JunctionTree.mem_vars.2
      ⟨c, Finset.mem_range.2 (JunctionTree.lt_of_mem_clique hv), hv⟩))
  have hs := decided_preorder h hpos'
  have hresult := maxProduct_eq hcancelled
  generalize p.tree.preorder.foldl (p.decide _) .empty = chosen at hs hresult
  have hattain := product_states h hsize hs
  rw [logTotal_max h hsize hpos' (x := chosen.states), ← hattain] at hresult
  have hkeys (v : Nat) : (∃ i, chosen.get? v = some i) ↔ v ∈ p.tree.allVars := by
    rw [hs.keys, JunctionTree.mem_allVars, JunctionTree.mem_vars]
    simp only [h.rooted.mem_preorder, Finset.mem_range]
  refine ⟨chosen, ?_, fun v hv => ?_, fun x hx => ?_, ?_⟩
  · refine Scope.Increasing.ext chosen.increasing_keys (Scope.increasing_ofList _) fun v => ?_
    rw [VarMap.mem_keys, hkeys]
  · obtain ⟨i, hi⟩ := (hkeys v).2 hv
    rw [VarMap.states, hi]
    exact hs.in_range v i hi
  · calc Potential.product p.factors x
        ≤ Reduction.max.over card p.tree.allVars (Potential.product p.factors) x :=
          Reduction.le_max_over (mem_assignments.2 ⟨hx, fun _ _ => rfl⟩)
      _ = Reduction.max.over card p.tree.allVars (Potential.product p.factors) chosen.states :=
          Reduction.dependsOn_over (dependsOn_product h hsize) fun v hv => absurd hv.1 hv.2
      _ = Potential.product p.factors chosen.states := hattain.symm
  · rw [hresult]
    split <;> rfl

/-- The choices of single cliques make up an assignment that no other one exceeds. -/
theorem maxProduct_exact {cliques : List (List Nat)} {t : JunctionTree}
    {factors : Array (Potential ℝ)}
    (ht : JunctionTree.build cliques = (.ok t : Except (Error ℝ) JunctionTree))
    (hf : t.Supplied card factors) (hpos : ∀ v ∈ t.allVars, 0 < card v) :
    ∃ result, (⟨t, factors, false⟩ : Propagator ℝ).maxProduct = .ok result ∧
      (result = none ↔ ∀ x, Within card t.allVars x → Potential.product factors x = 0) ∧
      ∀ chosen log, result = some (chosen, log) →
        chosen.keys = t.allVars ∧ Within card t.allVars chosen.states ∧
        (∀ x, Within card t.allVars x →
          Potential.product factors x ≤ Potential.product factors chosen.states) ∧
        0 < Potential.product factors chosen.states ∧
        log = Real.log (Potential.product factors chosen.states) := by
  have h := fits_of_supplied (JunctionTree.build_spec ht).1 hf false
  obtain ⟨best, hkeys, hin, hmax, hresult⟩ := exists_best h hf.size_eq rfl hpos
  have hnonneg (x : Nat → Nat) : 0 ≤ Potential.product factors x := by
    rw [← joint_range (p := (⟨t, factors, false⟩ : Propagator ℝ)) hf.size_eq]
    exact h.joint_nonneg (Finset.Subset.refl _) x
  refine ⟨_, hresult, ?_, fun chosen log hsome => ?_⟩
  · by_cases h0 : Potential.product factors best.states = 0
    · rw [if_pos h0]
      simp only [true_iff]
      exact fun x hx => le_antisymm ((hmax x hx).trans h0.le) (hnonneg x)
    · rw [if_neg h0]
      simp only [reduceCtorEq, false_iff]
      exact fun hall => h0 (hall _ hin)
  · by_cases h0 : Potential.product factors best.states = 0
    · rw [if_pos h0] at hsome
      simp at hsome
    · rw [if_neg h0] at hsome
      obtain ⟨rfl, rfl⟩ := Prod.mk.inj (Option.some.inj hsome)
      exact ⟨hkeys, hin, hmax, lt_of_le_of_ne (hnonneg _) (Ne.symm h0), rfl⟩

/-- Where all products are one, some assignment is returned, with the logarithm of one. -/
theorem maxProduct_exact_on_path :
    JunctionTree.build [[0, 1], [1, 2]] = (.ok pathTree : Except (Error ℝ) JunctionTree) ∧
      pathTree.Supplied (fun _ => 2) pathFactors ∧ (∀ v ∈ pathTree.allVars, 0 < 2) ∧
      ∃ chosen, (⟨pathTree, pathFactors, false⟩ : Propagator ℝ).maxProduct =
        .ok (some (chosen, Real.log 1)) ∧ chosen.keys = [0, 1, 2] := by
  have hpos : ∀ v ∈ pathTree.allVars, 0 < 2 := fun _ _ => Nat.two_pos
  obtain ⟨result, hresult, hnone, hsome⟩ := maxProduct_exact build_path supplied_path hpos
  refine ⟨build_path, supplied_path, hpos, ?_⟩
  have hin : Within (fun _ => 2) pathTree.allVars fun _ => 0 := fun _ _ => Nat.two_pos
  cases hr : result with
  | none => simpa [product_path hin] using hnone.1 hr _ hin
  | some best =>
    obtain ⟨chosen, log⟩ := best
    obtain ⟨hkeys, hstates, _, _, rfl⟩ := hsome chosen log hr
    rw [product_path hstates] at hr
    exact ⟨chosen, hr ▸ hresult, hkeys⟩

end Propagator
end Bayes
