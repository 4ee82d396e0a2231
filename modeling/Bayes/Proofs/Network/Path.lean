import Mathlib.Algebra.BigOperators.Ring.Finset
import Mathlib.Logic.Relation
import Bayes.Proofs.Network.Edit
/-!
Following the edges of a network. The search from one variable finds another just when a path leads
there, so an edge that is added never closes a cycle, and every network that can be reached has its
variables ranked with parents before their children.
-/
namespace Bayes.Network

variable {α : Type} {n n' : Network α} {v w p c : Nat}

/-- Edges lead from one variable to another, or both are the same. -/
def Leads (n : Network α) : Nat → Nat → Prop := Relation.ReflTransGen fun p c => p ∈ n.parents c

def Linked (n : Network α) : Prop := ∀ p c, c ∈ n.children p ↔ p ∈ n.parents c

/-- Parents come before their children, in some ranking of the variables. -/
def Ranked (n : Network α) : Prop := ∃ rank : Nat → Nat, ∀ c, ∀ p ∈ n.parents c, rank p < rank c

def Acyclic {β : Type} (edge : β → β → Prop) : Prop := ∀ x, ¬ Relation.TransGen edge x x

/-! The search -/

def edgesAhead (n : Network α) (visited : List Nat) : Nat :=
  ∑ v ∈ Finset.range n.size with v ∉ visited, (n.children v).length

theorem children_of_le (hv : n.size ≤ v) : n.children v = [] := by
  have hnone : n.node? v = none := Array.getElem?_eq_none hv
  simp [children, hnone]

theorem parents_of_le (hv : n.size ≤ v) : n.parents v = [] := by
  have hnone : n.node? v = none := Array.getElem?_eq_none hv
  simp [parents, hnone]

theorem children_withTable (n : Network α) (v : Nat) (t : Table α) :
    (n.withTable v t).children = n.children := by
  funext w
  cases hw : n.node? w <;> by_cases h : v = w <;> simp [children, node?_withTable, h, hw]

theorem children_push (n : Network α) (node : Node α) (w : Nat) :
    (⟨n.nodes.push node⟩ : Network α).children w =
      if w = n.size then node.children else n.children w := by
  by_cases hw : w = n.size <;> simp [children, node?_push, hw]

theorem add_sum_children (n : Network α) {P Q : Nat → Prop} [DecidablePred P] [DecidablePred Q]
    (hv : P v) (hQ : ∀ w, Q w ↔ w ≠ v ∧ P w) :
    (n.children v).length + ∑ w ∈ Finset.range n.size with Q w, (n.children w).length =
      ∑ w ∈ Finset.range n.size with P w, (n.children w).length := by
  have herase : (Finset.range n.size).filter Q = ((Finset.range n.size).filter P).erase v := by
    ext w
    simp only [Finset.mem_filter, Finset.mem_erase, hQ]
    tauto
  rw [herase]
  by_cases hlt : v < n.size
  · exact Finset.add_sum_erase _ (fun w => (n.children w).length) (by simp [hlt, hv])
  · rw [Finset.erase_eq_of_notMem (by simp [hlt]), children_of_le (not_lt.1 hlt), List.length_nil,
      zero_add]

theorem edgesAhead_cons {visited : List Nat} (hv : v ∉ visited) :
    (n.children v).length + n.edgesAhead (v :: visited) = n.edgesAhead visited :=
  n.add_sum_children hv fun w => by rw [List.mem_cons, not_or]

theorem foldl_add_eq (l : List Nat) (f : Nat → Nat) :
    ∀ k, l.foldl (fun s v => s + f v) k = k + (l.map f).sum := by
  induction l with
  | nil => exact fun k => rfl
  | cons v l ih =>
    intro k
    rw [List.foldl_cons, ih, List.map_cons, List.sum_cons, Nat.add_assoc]

/-- The search has a step for every edge, one for its start and one to end. -/
theorem reaches_eq : n.reaches v w = n.reachesFrom w (2 + n.edgesAhead []) [v] [] := by
  have hall : n.edgesAhead [] = (n.ids.map fun v => (n.children v).length).sum := by
    simp only [edgesAhead, List.not_mem_nil, not_false_eq_true, Finset.filter_true]
    rfl
  rw [reaches, foldl_add_eq, hall]

theorem closed_of_reachesFrom {goal : Nat} (steps : Nat) : ∀ waiting visited : List Nat,
    n.reachesFrom goal steps waiting visited = false →
    waiting.length + n.edgesAhead visited < steps →
    (∀ v ∈ visited, v ≠ goal ∧ ∀ c ∈ n.children v, c ∈ visited ∨ c ∈ waiting) →
    ∃ seen : Set Nat, (∀ v, v ∈ visited ∨ v ∈ waiting → v ∈ seen) ∧
      ∀ v ∈ seen, v ≠ goal ∧ ∀ c ∈ n.children v, c ∈ seen := by
  induction steps with
  | zero =>
    intro waiting visited _ hsteps
    exact absurd hsteps (Nat.not_lt_zero _)
  | succ steps ih =>
    intro waiting visited hfails hsteps hvisited
    cases waiting with
    | nil => exact ⟨{v | v ∈ visited}, by simp, by simpa using hvisited⟩
    | cons v waiting =>
      rw [reachesFrom] at hfails
      rw [List.length_cons] at hsteps
      split at hfails
      · cases hfails
      · next hgoal =>
        split at hfails
        · next hold =>
          have hold : v ∈ visited := List.contains_iff_mem.1 hold
          obtain ⟨seen, hsub, hclosed⟩ := ih waiting visited hfails (by omega) (by grind)
          exact ⟨seen, by grind, hclosed⟩
        · next hnew =>
          have hnew : v ∉ visited := fun h => hnew (List.contains_iff_mem.2 h)
          have hpaid := edgesAhead_cons (n := n) hnew
          obtain ⟨seen, hsub, hclosed⟩ := ih (n.children v ++ waiting) (v :: visited) hfails
            (by rw [List.length_append]; omega) (by grind)
          exact ⟨seen, by grind, hclosed⟩

theorem leads_of_reachesFrom (h : n.Linked) {goal : Nat} (steps : Nat) :
    ∀ waiting visited : List Nat, n.reachesFrom goal steps waiting visited = true →
      ∃ v ∈ waiting, n.Leads v goal := by
  induction steps with
  | zero =>
    intro waiting visited hfound
    cases hfound
  | succ steps ih =>
    intro waiting visited hfound
    cases waiting with
    | nil => cases hfound
    | cons v waiting =>
      rw [reachesFrom] at hfound
      split at hfound
      · next hgoal => exact ⟨v, List.mem_cons_self, hgoal ▸ Relation.ReflTransGen.refl⟩
      · split at hfound
        · obtain ⟨w, hw, hleads⟩ := ih waiting visited hfound
          exact ⟨w, List.mem_cons_of_mem v hw, hleads⟩
        · obtain ⟨w, hw, hleads⟩ := ih _ _ hfound
          obtain hw | hw := List.mem_append.1 hw
          · exact ⟨v, List.mem_cons_self, Relation.ReflTransGen.head ((h v w).1 hw) hleads⟩
          · exact ⟨w, List.mem_cons_of_mem v hw, hleads⟩

theorem Leads.mem {seen : Set Nat} (h : n.Leads v w)
    (hclosed : ∀ p ∈ seen, ∀ c, p ∈ n.parents c → c ∈ seen) (hv : v ∈ seen) : w ∈ seen := by
  induction h with
  | refl => exact hv
  | tail _ hedge ih => exact hclosed _ ih _ hedge

theorem not_leads_of_closed (h : n.Linked) {seen : Set Nat}
    (hclosed : ∀ v ∈ seen, v ≠ w ∧ ∀ c ∈ n.children v, c ∈ seen) (hv : v ∈ seen) : ¬ n.Leads v w := by
  intro hleads
  have hmem : w ∈ seen := hleads.mem (fun p hp c hc => (hclosed p hp).2 c ((h p c).2 hc)) hv
  exact (hclosed w hmem).1 rfl

theorem reaches_iff (h : n.Linked) : n.reaches v w = true ↔ n.Leads v w := by
  rw [reaches_eq]
  constructor
  · intro hfound
    obtain ⟨u, hu, hleads⟩ := leads_of_reachesFrom h _ _ _ hfound
    rwa [List.mem_singleton.1 hu] at hleads
  · intro hleads
    by_contra hfails
    rw [Bool.not_eq_true] at hfails
    obtain ⟨seen, hstart, hclosed⟩ := closed_of_reachesFrom _ _ _ hfails
      (by rw [List.length_singleton]; omega) (by simp)
    exact not_leads_of_closed h hclosed (hstart v (by simp)) hleads

theorem Linked.known (h : n.Linked) (hp : p ∈ n.parents c) : p < n.size ∧ c < n.size := by
  constructor
  · by_contra hle
    have hc := (h p c).2 hp
    simp [children_of_le (not_lt.1 hle)] at hc
  · by_contra hle
    simp [parents_of_le (not_lt.1 hle)] at hp

theorem Linked.joins (h : n.Linked) (hp : p < n.size) (hc : c < n.size) (hnew : p ∉ n.parents c)
    (hleads : ¬ n.Leads c p) : n.Joins p c where
  parent_lt := hp
  child_lt := hc
  ne heq := hleads (heq ▸ Relation.ReflTransGen.refl)
  new := hnew
  acyclic := by
    rw [← Bool.not_eq_true]
    exact fun hfound => hleads ((reaches_iff h).1 hfound)

theorem Ranked.acyclic (h : n.Ranked) : Acyclic fun p c => p ∈ n.parents c := by
  obtain ⟨rank, hrank⟩ := h
  have hlt {v w : Nat} (hvw : Relation.TransGen (fun p c => p ∈ n.parents c) v w) :
      rank v < rank w := by
    induction hvw with
    | single hp => exact hrank _ _ hp
    | tail _ hp ih => exact ih.trans (hrank _ _ hp)
  exact fun v hcycle => (hlt hcycle).false

theorem Ranked.not_leads (h : n.Ranked) (hold : p ∈ n.parents c) : ¬ n.Leads c p :=
  fun hleads => h.acyclic p (Relation.TransGen.head' hold hleads)

/-! Edits -/

section Edits

variable [Scalar α]

theorem node?_attach (n : Network α) (hc : c < n.size) (w : Nat) :
    (n.attach p c).node? w = (n.node? w).map fun node =>
      { node with
        parents := if c = w then node.parents ++ [p] else node.parents
        children := if p = w then node.children ++ [c] else node.children
        table := if c = w then uniform ((n.parents c ++ [p, c]).map n.cardinality)
          else node.table } := by
  let above := n.nodes.modify c fun node => { node with parents := node.parents ++ [p] }
  let both := above.modify p fun node => { node with children := node.children ++ [c] }
  have hboth (w : Nat) : (⟨both⟩ : Network α).node? w = (n.node? w).map fun node =>
      { node with
        parents := if c = w then node.parents ++ [p] else node.parents
        children := if p = w then node.children ++ [c] else node.children } := by
    simp only [node?, both, above, Array.getElem?_modify]
    cases n.nodes[w]? <;> by_cases hwc : c = w <;> by_cases hwp : p = w <;> simp [hwc, hwp]
  have hcard : (⟨both⟩ : Network α).cardinality = n.cardinality := by
    funext w
    cases hw : n.node? w <;> simp [cardinality, hboth, hw]
  have hshape : (⟨both⟩ : Network α).tableShape c = (n.parents c ++ [p, c]).map n.cardinality := by
    obtain ⟨node, hnode, hparents, hnodecard, -⟩ := node?_of_lt hc
    simp [tableShape, hboth, hnode, hcard, hparents, hnodecard]
  have hattach : n.attach p c = (⟨both⟩ : Network α).withTable c
      (uniform ((⟨both⟩ : Network α).tableShape c)) := rfl
  rw [hattach, node?_withTable, hboth, hshape]
  cases n.node? w <;> by_cases hwc : c = w <;> simp [hwc]

theorem parents_attach (hc : c < n.size) (w : Nat) :
    (n.attach p c).parents w = if c = w then n.parents w ++ [p] else n.parents w := by
  cases hw : n.node? w with
  | none => simp [parents, node?_attach n hc, hw, ne_of_node?_eq_none hc hw]
  | some node => simp [parents, node?_attach n hc, hw]

theorem children_attach (hp : p < n.size) (hc : c < n.size) (w : Nat) :
    (n.attach p c).children w = if p = w then n.children w ++ [c] else n.children w := by
  cases hw : n.node? w with
  | none => simp [children, node?_attach n hc, hw, ne_of_node?_eq_none hp hw]
  | some node => simp [children, node?_attach n hc, hw]

theorem table_attach (hc : c < n.size) (w : Nat) :
    (n.attach p c).table w =
      if c = w then uniform ((n.parents c ++ [p, c]).map n.cardinality) else n.table w := by
  cases hw : n.node? w with
  | none => simp [table, node?_attach n hc, hw, ne_of_node?_eq_none hc hw]
  | some node => simp [table, node?_attach n hc, hw]

@[simp] theorem size_attach : (n.attach p c).size = n.size := size_of_vars_eq (vars_attach n p c)

@[simp] theorem cardinality_attach : (n.attach p c).cardinality = n.cardinality :=
  cardinality_of_vars_eq (vars_attach n p c)

theorem tableShape_attach (hc : c < n.size) {w : Nat} (hw : w < n.size) :
    (n.attach p c).tableShape w =
      if c = w then (n.parents c ++ [p, c]).map n.cardinality else n.tableShape w := by
  have hw' : w < (n.attach p c).size := by rwa [size_attach]
  rw [tableShape_eq hw', parents_attach hc, cardinality_attach, tableShape_eq hw]
  split
  · next hcw => rw [← hcw, List.append_assoc, List.singleton_append]
  · rfl

theorem tableShape_push (h : n.Linked) (node : Node α) {w : Nat} (hw : w < n.size) :
    (⟨n.nodes.push node⟩ : Network α).tableShape w = n.tableShape w := by
  have hw' : w < (⟨n.nodes.push node⟩ : Network α).size := by
    rw [size_push]
    omega
  rw [tableShape_eq hw', parents_push, if_neg hw.ne, tableShape_eq hw]
  refine List.map_congr_left fun q hq => ?_
  have hq : q < n.size := by
    obtain hq | hq := List.mem_append.1 hq
    · exact (h.known hq).1
    · exact List.mem_singleton.1 hq ▸ hw
  rw [cardinality_push, if_neg hq.ne]

theorem linked_edit {u : Edit α} (h : n.Linked) (hok : n.edit u = .ok n') : n'.Linked := by
  intro p c
  have hold := h p c
  obtain ⟨v, t, -, rfl⟩ | ⟨name, states, -, -, -, rfl⟩ | ⟨q, d, hedge, rfl⟩ | rfl := edit_cases hok
  · rwa [children_withTable, parents_withTable]
  · -- a new variable has no edges, like one that is not there
    have hchildren : (if p = n.size then [] else n.children p) = n.children p :=
      ite_eq_right_iff.2 fun hp => by rw [hp, children_of_le le_rfl]
    have hparents : (if c = n.size then [] else n.parents c) = n.parents c :=
      ite_eq_right_iff.2 fun hc => by rw [hc, parents_of_le le_rfl]
    rwa [children_push, parents_push, hchildren, hparents]
  · have hchild : c ∈ (n.attach q d).children p ↔ c ∈ n.children p ∨ (q = p ∧ d = c) := by
      rw [children_attach hedge.parent_lt hedge.child_lt]
      by_cases hqp : q = p
      · simp [hqp, eq_comm]
      · simp [hqp]
    have hparent : p ∈ (n.attach q d).parents c ↔ p ∈ n.parents c ∨ (q = p ∧ d = c) := by
      rw [parents_attach hedge.child_lt]
      by_cases hdc : d = c
      · simp [hdc, eq_comm]
      · simp [hdc]
    rw [hchild, hparent, hold]
  · exact hold

/-- Whatever the child leads to moves behind the new parent. -/
theorem Ranked.attach (h : n.Ranked) (hc : c < n.size) (hnot : ¬ n.Leads c p) :
    (n.attach p c).Ranked := by
  classical
  obtain ⟨rank, hrank⟩ := h
  let moved (v : Nat) : Nat := if n.Leads c v then rank v + rank p + 1 else rank v
  have hbehind {v : Nat} (hv : n.Leads c v) : moved v = rank v + rank p + 1 := if_pos hv
  have hkept {v : Nat} (hv : ¬ n.Leads c v) : moved v = rank v := if_neg hv
  have hold {v q : Nat} (hq : q ∈ n.parents v) : moved q < moved v := by
    have hlt := hrank v q hq
    by_cases hcq : n.Leads c q
    · rw [hbehind hcq, hbehind (Relation.ReflTransGen.tail hcq hq)]
      omega
    · rw [hkept hcq]
      by_cases hcv : n.Leads c v
      · rw [hbehind hcv]
        omega
      · rwa [hkept hcv]
  refine ⟨moved, fun v q hq => ?_⟩
  rw [parents_attach hc] at hq
  split at hq
  · next hv =>
    obtain hq | hq := List.mem_append.1 hq
    · exact hold hq
    · rw [List.mem_singleton.1 hq, ← hv, hkept hnot, hbehind Relation.ReflTransGen.refl]
      omega
  · exact hold hq

theorem ranked_edit {u : Edit α} (h : n.Linked) (hrank : n.Ranked) (hok : n.edit u = .ok n') :
    n'.Ranked := by
  obtain ⟨v, t, -, rfl⟩ | ⟨name, states, -, -, -, rfl⟩ | ⟨p, c, hedge, rfl⟩ | rfl := edit_cases hok
  · simpa [Ranked] using hrank
  · obtain ⟨rank, hrank⟩ := hrank
    refine ⟨rank, fun v q hq => ?_⟩
    rw [parents_push] at hq
    split at hq
    · simp at hq
    · exact hrank v q hq
  · refine hrank.attach hedge.child_lt fun hleads => ?_
    have hfound := (reaches_iff h).2 hleads
    rw [hedge.acyclic] at hfound
    cases hfound
  · exact hrank

end Edits

end Bayes.Network
