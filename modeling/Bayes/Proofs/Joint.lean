import Mathlib.Algebra.BigOperators.Group.Finset.Sigma
import Bayes.Proofs.Compiled
import Bayes.Proofs.Evidence
import Bayes.Proofs.Reduction
/-!
The joint of a network with findings, by enumeration, and its factors. Every variable puts one part into
the product, its conditional entry or what is known about it; the factor of a clique is the product of
the parts of the variables assigned to it, so the factors of all cliques are the joint.
-/
namespace Bayes

def Findings.agrees (found : Findings) (x : Nat → Nat) : Bool :=
  found.entries.all fun e => x e.1 == e.2.state

def Findings.intervened (found : Findings) (v : Nat) : Bool :=
  (found.get? v).any (·.kind = .intervened)

namespace Network

noncomputable def entryAt (n : Network ℝ) (x : Nat → Nat) (v : Nat) : ℝ :=
  (n.table v).entry ((n.parents v ++ [v]).map x)

/-- The product of the entries of all variables that are not intervened. -/
noncomputable def joint (n : Network ℝ) (found : Findings) (x : Nat → Nat) : ℝ :=
  ((n.ids.filter fun v => !Findings.intervened found v).map (n.entryAt x)).prod

/-- The joint summed over all assignments that agree with the findings and belong to an event. -/
noncomputable def mass (n : Network ℝ) (found : Findings) (event : (Nat → Nat) → Bool) : ℝ :=
  (((assignments n.cardinality n.ids fun _ => 0).filter fun x =>
    Findings.agrees found x && event x).map (n.joint found)).sum

/-- What a variable puts into the product. Evidence stays also when the table is left out. -/
noncomputable def part (n : Network ℝ) (found : Findings) (leftOut : Option Nat) (x : Nat → Nat)
    (v : Nat) : ℝ :=
  if leftOut = some v then
    match found.get? v with
    | some ⟨.observed, state⟩ => if x v = state then 1 else 0
    | _ => 1
  else
    match found.get? v with
    | some ⟨.intervened, state⟩ => if x v = state then 1 else 0
    | some ⟨.observed, state⟩ => if x v = state then n.entryAt x v else 0
    | none => n.entryAt x v

variable {n : Network ℝ} {found : Findings} {leftOut : Option Nat} {x : Nat → Nat} {v c : Nat}
  {t : JunctionTree}

theorem mem_family {w : Nat} : w ∈ n.family v ↔ w ∈ n.parents v ++ [v] := by
  rw [family, Scope.mem_ofList, List.mem_cons, List.mem_append, List.mem_singleton, or_comm]

theorem family_eq : n.family v = Scope.ofList (n.parents v ++ [v]) :=
  (Scope.increasing_ofList _).ext (Scope.increasing_ofList _) fun w => by
    rw [Scope.mem_ofList, Scope.mem_ofList, List.mem_cons, List.mem_append, List.mem_singleton,
      or_comm]

/-! Factors -/

theorem shaped_factor (h : n.WellFormed) (hv : v < n.size) :
    (n.factor v).Shaped n.cardinality (n.family v) := by
  rw [factor_eq hv, family_eq]
  exact Potential.shaped_ofTable (h.shape v hv)

theorem value_factor (h : n.WellFormed) (hv : v < n.size)
    (hx : Within n.cardinality (n.family v) x) : (n.factor v).value x = n.entryAt x v := by
  rw [factor_eq hv, entryAt]
  exact Potential.value_ofTable (h.shape v hv) (hx.mono fun w hw => mem_family.2 hw)

theorem nonneg_factor (h : n.WellFormed) (hv : v < n.size) : (n.factor v).Nonneg := by
  rw [factor_eq hv]
  exact Potential.nonneg_ofTable (h.nonneg v hv) _

structure Means (card : Nat → Nat) (s : List Nat) (q : Potential ℝ) (f : (Nat → Nat) → ℝ) : Prop where
  shaped : q.Shaped card s
  nonneg : q.Nonneg
  value_eq : ∀ x, Within card s x → q.value x = f x

variable {s : List Nat} {q : Potential ℝ} {f : (Nat → Nat) → ℝ}

theorem Means.multiply {r : List Nat} {p : Potential ℝ} {g : (Nat → Nat) → ℝ}
    (hq : Means n.cardinality s q f) (hp : Means n.cardinality r p g) (hr : ∀ v ∈ r, v ∈ s) :
    Means n.cardinality s (q.multiply p) fun x => f x * g x := by
  have hunion := hq.shaped.increasing.union_eq_left hr
  refine ⟨hunion ▸ hq.shaped.multiply hp.shaped,
    Potential.nonneg_multiply hq.nonneg hp.nonneg, fun x hx => ?_⟩
  rw [hq.shaped.value_multiply hp.shaped (hunion.symm ▸ hx), hq.value_eq x hx,
    hp.value_eq x (hx.mono hr)]

theorem Means.condition (hq : Means n.cardinality s q f) (hv : v ∈ s) (state : Nat) :
    Means n.cardinality s (q.condition v state) fun x => if x v = state then f x else 0 := by
  refine ⟨hq.shaped.condition v state, Potential.nonneg_condition hq.nonneg v state,
    fun x hx => ?_⟩
  rw [hq.shaped.value_condition hv hx, hq.value_eq x hx]

theorem Means.congr {g : (Nat → Nat) → ℝ} (hq : Means n.cardinality s q f) (h : ∀ x, f x = g x) :
    Means n.cardinality s q g :=
  { hq with value_eq := fun x hx => (hq.value_eq x hx).trans (h x) }

theorem means_absorbFinding (h : n.WellFormed) (hv : v < n.size)
    (hfamily : ∀ w ∈ n.family v, w ∈ s) (hq : Means n.cardinality s q f) :
    Means n.cardinality s (n.absorbFinding found leftOut q v) fun x =>
      f x * n.part found leftOut x v := by
  have hvs : v ∈ s := hfamily v (mem_family.2 (by simp))
  have htable : Means n.cardinality s (q.multiply (n.factor v)) fun x => f x * n.entryAt x v :=
    hq.multiply ⟨shaped_factor h hv, nonneg_factor h hv, fun x hx => value_factor h hv hx⟩ hfamily
  have hforced (state : Nat) : Means n.cardinality s
      (q.multiply (.indicator v (n.cardinality v) state)) fun x =>
        f x * if x v = state then 1 else 0 :=
    hq.multiply ⟨Potential.shaped_indicator v state, Potential.nonneg_indicator v _ state,
      fun x hx => Potential.value_indicator (hx v (by simp))⟩ (by simpa using hvs)
  rw [absorbFinding]
  simp only [part]
  by_cases hleft : leftOut = some v
  · simp only [hleft, if_true]
    cases hfound : found.get? v with
    | none => exact hq.congr fun x => (mul_one _).symm
    | some finding =>
      obtain ⟨kind, state⟩ := finding
      cases kind with
      | observed => exact (hq.condition hvs state).congr fun x => by simp
      | intervened => exact hq.congr fun x => (mul_one _).symm
  · simp only [hleft, if_false]
    cases hfound : found.get? v with
    | none => exact htable
    | some finding =>
      obtain ⟨kind, state⟩ := finding
      cases kind with
      | observed => exact (htable.condition hvs state).congr fun x => by simp
      | intervened => exact hforced state

theorem means_foldl_absorbFinding (h : n.WellFormed) (l : List Nat) :
    ∀ (q : Potential ℝ) (f : (Nat → Nat) → ℝ), (∀ v ∈ l, v < n.size ∧ ∀ w ∈ n.family v, w ∈ s) →
      Means n.cardinality s q f →
      Means n.cardinality s (l.foldl (n.absorbFinding found leftOut) q) fun x =>
        f x * (l.map (n.part found leftOut x)).prod := by
  induction l with
  | nil =>
    intro q f _ hq
    exact hq.congr fun x => by simp
  | cons v l ih =>
    intro q f hl hq
    obtain ⟨⟨hv, hfamily⟩, hl⟩ := List.forall_mem_cons.1 hl
    refine (ih _ _ hl (means_absorbFinding h hv hfamily hq)).congr fun x => ?_
    rw [List.map_cons, List.prod_cons, mul_assoc]

end Network

namespace JunctionTree

variable {α : Type} {n : Network α} {t : JunctionTree} {v c : Nat}

theorem Compiles.assigned_spec (h : t.Compiles n) (hv : v ∈ t.assigned c) :
    v < n.size ∧ ∀ w ∈ n.family v, w ∈ t.clique c := by
  obtain ⟨hlt, hfam⟩ := mem_assigned.1 hv
  rw [h.length_families] at hlt
  obtain ⟨d, _, hd, hfamily⟩ := h.family v hlt
  obtain rfl : d = c := Option.some.inj (hd.symm.trans hfam)
  exact ⟨hlt, hfamily⟩

theorem Compiles.prod_assigned (h : t.Compiles n) (f : Nat → ℝ) :
    ∏ c ∈ Finset.range t.size, ((t.assigned c).map f).prod = ∏ v ∈ Finset.range n.size, f v := by
  rw [← Finset.prod_fiberwise_of_maps_to (s := Finset.range n.size) (t := Finset.range t.size)
    (g := fun v => (t.family? v).getD 0) (f := f)]
  · refine Finset.prod_congr rfl fun c hc => ?_
    rw [← List.prod_toFinset f (t.nodup_assigned c)]
    refine Finset.prod_congr ?_ fun _ _ => rfl
    ext v
    rw [List.mem_toFinset, mem_assigned, h.length_families, Finset.mem_filter, Finset.mem_range]
    refine and_congr_right fun hv => ?_
    obtain ⟨d, _, hd, _⟩ := h.family v hv
    simp [hd]
  · intro v hv
    obtain ⟨c, hc, hfam, _⟩ := h.family v (Finset.mem_range.1 hv)
    simpa [hfam] using hc

theorem Compiles.allVars_eq (h : t.Compiles n) (v : Nat) :
    v ∈ t.vars (Finset.range t.size) ↔ v ∈ n.ids := by
  rw [mem_vars, Network.mem_ids]
  constructor
  · rintro ⟨c, _, hv⟩
    exact h.clique_lt c v hv
  · intro hv
    obtain ⟨c, hc, _, hfamily⟩ := h.family v hv
    exact ⟨c, Finset.mem_range.2 hc, hfamily v (by simp [Network.family, Scope.mem_ofList])⟩

end JunctionTree

namespace Network

variable {n : Network ℝ} {found : Findings} {leftOut : Option Nat} {x : Nat → Nat} {v c : Nat}
  {t : JunctionTree}

theorem means_cliqueFactor (h : n.WellFormed) (ht : t.Compiles n) (c : Nat) :
    Means n.cardinality (t.clique c) (n.cliqueFactor t found leftOut c) fun x =>
      ((t.assigned c).map (n.part found leftOut x)).prod := by
  have hinc := ht.rooted.increasing c
  have hone : Means n.cardinality (t.clique c)
      (.constant ((t.clique c).map fun v => (v, n.cardinality v)) 1) fun _ => 1 := by
    rw [Potential.constant_eq hinc]
    exact ⟨Potential.shaped_ofFn hinc _, Potential.nonneg_ofFn fun _ => zero_le_one,
      fun x hx => Potential.value_ofFn hinc hx fun _ _ _ => rfl⟩
  rw [cliqueFactor]
  refine (means_foldl_absorbFinding h _ _ _ (fun v hv => ht.assigned_spec hv) hone).congr ?_
  exact fun x => one_mul _

/-! The joint -/

theorem agrees_iff : Findings.agrees found x = true ↔
    ∀ v f, found.get? v = some f → x v = f.state := by
  simp only [Findings.agrees, List.all_eq_true, beq_iff_eq, Prod.forall, VarMap.mem_entries]

theorem prod_map_filter {β : Type} (l : List β) (p : β → Bool) (f : β → ℝ) :
    ((l.filter p).map f).prod = (l.map fun b => if p b = true then f b else 1).prod := by
  induction l with
  | nil => rfl
  | cons b l ih =>
    by_cases hb : p b = true
    · rw [List.filter_cons_of_pos hb, List.map_cons, List.prod_cons, ih, List.map_cons,
        List.prod_cons, if_pos hb]
    · rw [List.filter_cons_of_neg hb, ih, List.map_cons, List.prod_cons, if_neg hb, one_mul]

theorem sum_map_filter {β : Type} (l : List β) (p : β → Bool) (f : β → ℝ) :
    ((l.filter p).map f).sum = (l.map fun b => if p b = true then f b else 0).sum := by
  induction l with
  | nil => rfl
  | cons b l ih =>
    by_cases hb : p b = true
    · rw [List.filter_cons_of_pos hb, List.map_cons, List.sum_cons, ih, List.map_cons,
        List.sum_cons, if_pos hb]
    · rw [List.filter_cons_of_neg hb, ih, List.map_cons, List.sum_cons, if_neg hb, zero_add]

theorem joint_eq_prod (n : Network ℝ) (found : Findings) (x : Nat → Nat) : n.joint found x =
    ∏ v ∈ Finset.range n.size,
      if Findings.intervened found v = true then 1 else n.entryAt x v := by
  rw [joint, prod_map_filter]
  change ∏ v ∈ Finset.range n.size,
    (if (!Findings.intervened found v) = true then n.entryAt x v else 1) = _
  refine Finset.prod_congr rfl fun v _ => ?_
  by_cases hv : Findings.intervened found v = true <;> simp [hv]

/-- The parts of all variables are the joint where an assignment agrees with the findings, and zero
elsewhere. -/
theorem prod_part (hfound : n.Admits found) (x : Nat → Nat) :
    ∏ v ∈ Finset.range n.size, n.part found none x v =
      if Findings.agrees found x = true then n.joint found x else 0 := by
  by_cases hagrees : Findings.agrees found x = true
  · rw [if_pos hagrees, joint_eq_prod]
    refine Finset.prod_congr rfl fun v _ => ?_
    simp only [part, reduceCtorEq, if_false]
    cases hfinding : found.get? v with
    | none => simp [Findings.intervened, hfinding]
    | some finding =>
      obtain ⟨kind, state⟩ := finding
      have hstate : x v = state := agrees_iff.1 hagrees v _ hfinding
      cases kind <;> simp [Findings.intervened, hfinding, hstate]
  · rw [if_neg hagrees]
    obtain ⟨v, finding, hfinding, hne⟩ : ∃ v f, found.get? v = some f ∧ x v ≠ f.state := by
      simpa [agrees_iff] using hagrees
    refine Finset.prod_eq_zero (Finset.mem_range.2 (hfound v finding hfinding).1) ?_
    obtain ⟨kind, state⟩ := finding
    simp only [part, reduceCtorEq, if_false, hfinding]
    cases kind <;> simp only [if_neg hne]

theorem prod_part_leftOut {parts : Finset Nat} (hv : v ∈ parts)
    (hforced : Findings.intervened found v = false) :
    ∏ u ∈ parts, n.part found none x u =
      (∏ u ∈ parts, n.part found (some v) x u) * n.entryAt x v := by
  have hpart (u : Nat) : n.part found none x u =
      n.part found (some v) x u * if u = v then n.entryAt x v else 1 := by
    by_cases huv : u = v
    · subst huv
      simp only [part, reduceCtorEq, if_false, if_true]
      cases hfinding : found.get? u with
      | none => simp
      | some finding =>
        obtain ⟨kind, state⟩ := finding
        cases kind with
        | observed => simp
        | intervened => simp [Findings.intervened, hfinding] at hforced
    · have hvu : some v ≠ some u := fun heq => huv (Option.some.inj heq).symm
      simp [part, hvu, huv]
  rw [Finset.prod_congr rfl fun u _ => hpart u, Finset.prod_mul_distrib, Finset.prod_ite_eq',
    if_pos hv]

theorem prod_cliqueFactor (h : n.WellFormed) (ht : t.Compiles n)
    (hx : Within n.cardinality n.ids x) :
    ∏ c ∈ Finset.range t.size, (n.cliqueFactor t found leftOut c).value x =
      ∏ v ∈ Finset.range n.size, n.part found leftOut x v := by
  rw [← ht.prod_assigned]
  refine Finset.prod_congr rfl fun c _ => ?_
  refine (means_cliqueFactor h ht c).value_eq x (hx.mono fun v hv => ?_)
  exact mem_ids.2 (ht.clique_lt c v hv)

theorem mass_eq (n : Network ℝ) (found : Findings) (event : (Nat → Nat) → Bool) :
    n.mass found event = Reduction.sum.over n.cardinality n.ids (fun x =>
      if event x = true then (if Findings.agrees found x = true then n.joint found x else 0) else 0)
        fun _ => 0 := by
  rw [mass, sum_map_filter, Reduction.over]
  refine congrArg List.sum (List.map_congr_left fun x _ => ?_)
  by_cases ha : Findings.agrees found x = true <;> by_cases he : event x = true <;> simp [ha, he]

end Network
end Bayes
