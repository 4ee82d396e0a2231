import Bayes.Sensitivity
import Bayes.Proofs.Snapshot
/-!
What stands beside the entries of one conditional table. When the table of a variable is left out, only
the factor of its family's clique changes, so the messages that reach this clique are the same, and
together with the changed factor they tell the sum of everything else.
-/
namespace Bayes

theorem Potential.Shaped.value?_eq {card : Nat → Nat} {s : List Nat} {p : Potential ℝ} {x : Nat → Nat}
    (h : p.Shaped card s) (hx : Within card s x) {states : VarMap Nat}
    (hstates : ∀ v ∈ s, states.get? v = some (x v)) : p.value? states = some (p.value x) := by
  rw [Potential.value?, h.scope, mapM_eq_some s hstates]
  exact h.valueAt?_eq hx

theorem Message.Carries.value?_eq {card : Nat → Nat} {s : List Nat} {m : Message ℝ}
    {f : (Nat → Nat) → ℝ} {x : Nat → Nat} (h : m.Carries card s f) (hx : Within card s x)
    {states : VarMap Nat} (hstates : ∀ v ∈ s, states.get? v = some (x v)) :
    m.value? states = some (f x) := by
  rw [Message.value?, h.shaped.value?_eq hx hstates, ← h.value_eq x hx]
  rfl

structure TableEntry.Of (entry : TableEntry) (n : Network ℝ) : Prop where
  owner : entry.owner < n.size
  fits : Table.fits (n.tableShape entry.owner) (entry.parents ++ [entry.state]) = true

namespace TableEntry.Of

variable {entry : TableEntry} {n : Network ℝ}

theorem shape_eq (h : entry.Of n) : n.tableShape entry.owner =
    (n.parents entry.owner).map n.cardinality ++ [n.cardinality entry.owner] := by
  rw [Network.tableShape_eq h.owner, List.map_append, List.map_singleton]

theorem fits_parents (h : entry.Of n) :
    Table.fits ((n.parents entry.owner).map n.cardinality) entry.parents = true ∧
      entry.state < n.cardinality entry.owner := by
  have hfits := h.fits
  rw [h.shape_eq] at hfits
  exact Table.fits_concat.1 hfits

theorem length_parents (h : entry.Of n) :
    entry.parents.length = (n.parents entry.owner).length := by
  simpa using (Table.length_of_fits h.fits_parents.1).symm

theorem fits_state (h : entry.Of n) {state : Nat} (hstate : state < n.cardinality entry.owner) :
    Table.fits (n.tableShape entry.owner) (entry.parents ++ [state]) = true := by
  rw [h.shape_eq]
  exact Table.fits_concat.2 ⟨h.fits_parents.1, hstate⟩

end TableEntry.Of

namespace Network

/-- The mass of everything beside an entry of the table of a variable. -/
noncomputable def beside (n : Network ℝ) (found : Findings) (v : Nat) (index : List Nat) : ℝ :=
  Reduction.sum.over n.cardinality n.ids (fun y =>
    if (n.parents v ++ [v]).map y = index then ∏ u ∈ Finset.range n.size, n.part found (some v) y u
    else 0) fun _ => 0

variable {n : Network ℝ} {found : Findings} {x : Nat → Nat} {u v c d : Nat} {t : JunctionTree}

theorem absorbFinding_of_ne (huv : u ≠ v) (q : Potential ℝ) :
    n.absorbFinding found (some v) q u = n.absorbFinding found none q u := by
  simp [absorbFinding, huv.symm]

theorem factor_leaving_of_ne (hfamily : t.family? v = some c) (hd : d < t.size) (hdc : d ≠ c) :
    (n.leaving (some v) t found).factor d = (n.leaving none t found).factor d := by
  rw [factor_leaving hd, factor_leaving hd, cliqueFactor, cliqueFactor]
  refine List.foldl_ext _ _ _ fun q u hu => absorbFinding_of_ne (fun huv => hdc ?_) q
  obtain ⟨_, hud⟩ := JunctionTree.mem_assigned.1 hu
  rw [huv, hfamily] at hud
  exact (Option.some.inj hud).symm

end Network

namespace Sensitivity

variable {s : Snapshot ℝ} {n : Network ℝ} {c : Nat} {entry : TableEntry}

theorem coefficients_of_intervened
    (hforced : Findings.intervened s.findings entry.owner = true) :
    coefficients n s entry = (List.range (n.cardinality entry.owner)).map fun _ => 0 := by
  cases hfinding : s.findings.get? entry.owner with
  | none => simp [Findings.intervened, hfinding] at hforced
  | some finding =>
    obtain ⟨kind, i⟩ := finding
    cases kind with
    | observed => simp [Findings.intervened, hfinding] at hforced
    | intervened => simp only [coefficients, hfinding]

theorem coefficients_of_free (hfree : Findings.intervened s.findings entry.owner = false)
    (hfamily : s.compiled.tree.family? entry.owner = some c) :
    coefficients n s entry = (List.range (n.cardinality entry.owner)).map fun state =>
      (((surroundings n s c entry.owner).onto (n.family entry.owner) .sum).value?
        ((VarMap.ofList ((n.parents entry.owner).zip entry.parents)).insert entry.owner
          state)).getD 0 := by
  cases hfinding : s.findings.get? entry.owner with
  | none => simp only [coefficients, hfinding, hfamily, Option.getD_some]
  | some finding =>
    obtain ⟨kind, i⟩ := finding
    cases kind with
    | observed => simp only [coefficients, hfinding, hfamily, Option.getD_some]
    | intervened => simp [Findings.intervened, hfinding] at hfree

end Sensitivity

namespace Snapshot

variable {s : Snapshot ℝ} {n : Network ℝ} {v c : Nat}

/-- Everything that reaches a clique, without one table, is told by all cliques without that table. -/
theorem TakenOf.carries_surroundings (h : s.TakenOf n) (hn : n.WellFormed)
    (hfamily : s.compiled.tree.family? v = some c) (hc : c < s.compiled.tree.size) :
    (Sensitivity.surroundings n s c v).Carries n.cardinality (s.compiled.tree.clique c)
      ((n.leaving (some v) s.compiled.tree s.findings).tells .sum n.cardinality c
        (Finset.range s.compiled.tree.size)) := by
  let t := s.compiled.tree
  let p := n.leaving none t s.findings
  let q := n.leaving (some v) t s.findings
  have hp : p.Fits n.cardinality := Network.fits_leaving hn h.compiles
  have hq : q.Fits n.cardinality := Network.fits_leaving hn h.compiles
  have hsent := Propagator.sent_collectAll hp .sum
  have hknown := Propagator.known_distribute hp hsent
  have hsame (e : Nat) (D : Finset Nat) (hD : D ⊆ Finset.range t.size) (hcD : c ∉ D) :
      q.tells .sum n.cardinality e D = p.tells .sum n.cardinality e D := by
    refine Propagator.tells_congr rfl fun d hd => ?_
    exact Network.factor_leaving_of_ne hfamily (Finset.mem_range.1 (hD hd)) fun hdc => hcD (hdc ▸ hd)
  have hupward (e : Nat) (he : t.parent? e = some c) :
      (p.collectAll .sum).upward.Holds n.cardinality e (t.separatorAbove e)
        (q.tells .sum n.cardinality c (t.below e)) := by
    rw [hsame c _ (t.below_subset_range e) (hp.rooted.parent_not_mem_below he)]
    exact hsent.upward e (Propagator.mem_postorder hp (hp.rooted.parent?_some he).1) c he
  have hdownward (a : Nat) (ha : t.parent? c = some a) :
      (p.distributeAll (p.collectAll .sum)).downward.Holds n.cardinality c (t.separatorAbove c)
        (q.tells .sum n.cardinality c (t.outside c)) := by
    have hself : c ∉ t.outside c := fun hmem =>
      (JunctionTree.mem_outside.1 hmem).2 (hp.rooted.self_mem_below hc)
    rw [hsame c (t.outside c) Finset.sdiff_subset hself]
    exact hknown.downward a ((hp.rooted.mem_preorder a).2 (hp.rooted.parent?_some ha).2.1) c ha
  have hproduct := Propagator.carries_product hq hc hupward
  have hall := Propagator.carries_above hq hc hknown.downward_root hdownward subset_rfl hproduct
  have hown : q.own c = Message.ofPotential (n.cliqueFactor t s.findings (some v) c) := by
    rw [Propagator.own, Network.factor_leaving hc]
  rw [Propagator.product, hown] at hall
  have hrange := q.tree.below_union_outside c
  rw [hrange] at hall
  rw [Sensitivity.surroundings, h.calibrated_eq]
  exact hall

theorem TakenOf.value?_surroundings (h : s.TakenOf n) (hn : n.WellFormed) (hv : v < n.size)
    (hfamily : s.compiled.tree.family? v = some c) {index : List Nat}
    (hindex : Table.fits (n.tableShape v) index = true) {states : VarMap Nat}
    (hstates : ∀ w ∈ n.family v, states.get? w = some (assign (n.parents v ++ [v]) index w)) :
    ((Sensitivity.surroundings n s c v).onto (n.family v) .sum).value? states =
      some (n.beside s.findings v index) := by
  obtain ⟨d, hc, hd, hcovers⟩ := h.compiles.family v hv
  obtain rfl : d = c := Option.some.inj (hd.symm.trans hfamily)
  let q := n.leaving (some v) s.compiled.tree s.findings
  have hq : q.Fits n.cardinality := Network.fits_leaving hn h.compiles
  have hincreasing : Scope.Increasing (n.family v) := Scope.increasing_ofList _
  have hkept : (s.compiled.tree.clique d).filter (n.family v).contains = n.family v :=
    (h.compiles.rooted.increasing d).filter_contains hincreasing hcovers
  rw [Network.tableShape_eq hv] at hindex
  have hlength : index.length = (n.parents v ++ [v]).length := by
    simpa using (Table.length_of_fits hindex).symm
  let z := assign (n.parents v ++ [v]) index
  have hz : (n.parents v ++ [v]).map z = index := map_assign (hn.nodup_family v) hlength
  have hwithin : Within n.cardinality (n.family v) z := by
    rw [← hz] at hindex
    exact (fits_map.1 hindex).mono fun w hw => Network.mem_family.1 hw
  have hcarries := (h.carries_surroundings hn hfamily hc).onto (n.family v) .sum
  rw [hkept] at hcarries
  rw [hcarries.value?_eq hwithin hstates]
  have hfixed := Propagator.over_tells_fixed hq hc hcovers hincreasing.nodup hwithin fun _ => 0
  have hpoint : (fun w => if w ∈ n.family v then z w else 0) = z := by
    funext w
    by_cases hw : w ∈ n.family v
    · rw [if_pos hw]
    · rw [if_neg hw]
      exact (assign_of_not_mem fun hmem => hw (Network.mem_family.2 hmem)).symm
  rw [hpoint] at hfixed
  refine congrArg some (hfixed.trans ?_)
  have hall : q.tree.allVars = n.ids := Network.allVars_eq h.compiles
  rw [hall, Network.beside]
  refine Reduction.over_congr fun y hy => ?_
  have hiff : (∀ w ∈ n.family v, y w = z w) ↔ (n.parents v ++ [v]).map y = index := by
    rw [← hz, List.map_inj_left]
    simp only [Network.mem_family]
  simp only [hiff]
  rw [← Network.joint_leaving hn h.compiles (mem_assignments.1 hy).1]
  rfl

theorem TakenOf.coefficients_eq (h : s.TakenOf n) (hn : n.WellFormed) {entry : TableEntry}
    (hentry : entry.Of n) : Sensitivity.coefficients n s entry =
      (List.range (n.cardinality entry.owner)).map fun state =>
        if Findings.intervened s.findings entry.owner = true then 0
        else n.beside s.findings entry.owner (entry.parents ++ [state]) := by
  obtain ⟨c, _, hfamily, _⟩ := h.compiles.family _ hentry.owner
  have hvalue (state : Nat) (hstate : state < n.cardinality entry.owner) :
      ((Sensitivity.surroundings n s c entry.owner).onto (n.family entry.owner) .sum).value?
          ((VarMap.ofList ((n.parents entry.owner).zip entry.parents)).insert entry.owner state) =
        some (n.beside s.findings entry.owner (entry.parents ++ [state])) := by
    refine h.value?_surroundings hn hentry.owner hfamily (hentry.fits_state hstate) fun w hw => ?_
    have hlength := hentry.length_parents
    obtain ⟨hparents, _, hnew⟩ := List.nodup_append.1 (hn.nodup_family entry.owner)
    have hkeys : ((n.parents entry.owner).zip entry.parents).map (·.1) = n.parents entry.owner :=
      List.map_fst_zip (by omega)
    rw [VarMap.get?_insert, assign_concat hlength fun hv => hnew _ hv _ (by simp) rfl]
    by_cases hwv : w = entry.owner
    · rw [if_pos hwv, if_pos hwv]
    · have hwparent : w ∈ n.parents entry.owner := by
        simpa [hwv] using Network.mem_family.1 hw
      rw [if_neg hwv, if_neg hwv, VarMap.get?_ofList (hkeys.symm ▸ hparents),
        lookup_zip hlength hwparent]
  by_cases hforced : Findings.intervened s.findings entry.owner = true
  · simp only [hforced, if_true]
    exact Sensitivity.coefficients_of_intervened hforced
  · have hfree : Findings.intervened s.findings entry.owner = false := by simpa using hforced
    rw [Sensitivity.coefficients_of_free hfree hfamily]
    refine List.map_congr_left fun state hstate => ?_
    rw [hvalue state (List.mem_range.1 hstate), Option.getD_some, if_neg hforced]

end Snapshot
end Bayes
