import Bayes.Network.Declaration
/-!
Reading a network: its size, the parents, cardinality and table of a variable, and the list of the
variables. Every way to change the nodes is described by what it leaves of these.
-/
namespace Bayes

theorem bind_eq_ok {ε β γ : Type} {x : Except ε β} {f : β → Except ε γ} {c : γ} :
    (x >>= f) = .ok c ↔ ∃ b, x = .ok b ∧ f b = .ok c := by
  cases x with
  | error e => simp [bind, Except.bind]
  | ok b => simp [bind, Except.bind]

theorem map_eq_ok {ε β γ : Type} {x : Except ε β} {f : β → γ} {c : γ} :
    x.map f = .ok c ↔ ∃ b, x = .ok b ∧ f b = c := by
  cases x <;> simp [Except.map]

theorem foldlM_invariant {ε β σ : Type} {step : σ → β → Except ε σ} (P : σ → Prop)
    (hstep : ∀ s b s', P s → step s b = .ok s' → P s') (l : List β) :
    ∀ s s', P s → l.foldlM step s = .ok s' → P s' := by
  induction l with
  | nil =>
    intro s s' hs h
    cases h
    exact hs
  | cons b l ih =>
    intro s s' hs h
    rw [List.foldlM_cons] at h
    obtain ⟨s₁, h₁, h⟩ := bind_eq_ok.1 h
    exact ih s₁ s' (hstep s b s₁ hs h₁) h

namespace Network

section Parts

variable {α : Type} {n : Network α} {v w : Nat}

def table [Scalar α] (n : Network α) (v : Nat) : Table α :=
  ((n.node? v).map (·.table)).getD (Table.ofFn [] fun _ => 1)

theorem node?_isSome : (n.node? v).isSome = true ↔ v < n.size := by
  simp [node?, size]

theorem node?_of_lt [Scalar α] (hv : v < n.size) : ∃ node, n.node? v = some node ∧
    node.parents = n.parents v ∧ node.cardinality = n.cardinality v ∧ node.table = n.table v := by
  obtain ⟨node, hnode⟩ := Option.isSome_iff_exists.1 (node?_isSome.2 hv)
  exact ⟨node, hnode, by simp [parents, hnode], by simp [cardinality, hnode], by simp [table, hnode]⟩

theorem lt_of_node? {node : Node α} (h : n.node? v = some node) : v < n.size :=
  node?_isSome.1 (by simp [h])

theorem ne_of_node?_eq_none (hv : v < n.size) (hw : n.node? w = none) : v ≠ w := by
  rintro rfl
  simpa [hw] using node?_isSome.2 hv

theorem lookup_ok {node : Node α} (h : n.lookup v = .ok node) : n.node? v = some node := by
  rw [lookup] at h
  cases hnode : n.node? v with
  | none => simp [hnode] at h
  | some node' =>
    rw [hnode] at h
    cases h
    rfl

theorem lookupState_ok {state : Nat} (h : state < n.cardinality v) :
    ∃ node, n.lookupState v state = .ok node := by
  cases hnode : n.node? v with
  | none => simp [cardinality, hnode] at h
  | some node =>
    have hstate : state < node.cardinality := by simpa [cardinality, hnode] using h
    exact ⟨node, by simp [lookupState, lookup, hnode, hstate]⟩

theorem vars_getElem? (n : Network α) (v : Nat) :
    n.vars[v]? = (n.node? v).map fun node => node.toVariable := by
  rw [vars, List.getElem?_map, Array.getElem?_toList]
  rfl

theorem cardinality_eq (n : Network α) (v : Nat) :
    n.cardinality v = (n.vars[v]?.map (·.cardinality)).getD 0 := by
  rw [vars_getElem?, Option.map_map]
  rfl

theorem vars_of_lt (hv : v < n.size) : ∃ x, n.vars[v]? = some x ∧ x.cardinality = n.cardinality v := by
  obtain ⟨node, hnode⟩ := Option.isSome_iff_exists.1 (node?_isSome.2 hv)
  exact ⟨node.toVariable, by simp [vars_getElem?, hnode], by simp [cardinality, hnode]⟩

theorem lt_of_vars {x : Variable} (h : n.vars[v]? = some x) : v < n.size := by
  rw [vars_getElem?] at h
  obtain ⟨node, hnode, _⟩ := Option.map_eq_some_iff.1 h
  exact lt_of_node? hnode

theorem size_of_vars_eq {m : Network α} (h : m.vars = n.vars) : m.size = n.size := by
  simpa [vars, size] using congrArg List.length h

theorem mem_ids : v ∈ n.ids ↔ v < n.size := by simp [ids]

theorem tableShape_eq [Scalar α] (hv : v < n.size) :
    n.tableShape v = (n.parents v ++ [v]).map n.cardinality := by
  obtain ⟨node, hnode, hparents, hcard, _⟩ := node?_of_lt hv
  simp [tableShape, hnode, hparents, hcard]

theorem cardinality_of_vars_eq {m : Network α} (h : m.vars = n.vars) : m.cardinality = n.cardinality :=
  funext fun v => by rw [cardinality_eq, cardinality_eq, h]

theorem tableShape_congr [Scalar α] {m : Network α} (hvars : m.vars = n.vars)
    (hparents : m.parents = n.parents) (hv : v < n.size) : m.tableShape v = n.tableShape v := by
  rw [tableShape_eq hv, tableShape_eq (by rwa [size_of_vars_eq hvars]), hparents,
    cardinality_of_vars_eq hvars]

theorem table_of_le [Scalar α] (hv : n.size ≤ v) : n.table v = Table.ofFn [] fun _ => 1 := by
  have hnone : n.node? v = none := Array.getElem?_eq_none hv
  simp [table, hnone]

theorem factor_eq [Scalar α] (hv : v < n.size) :
    n.factor v = .ofTable (n.parents v ++ [v]) (n.table v) := by
  obtain ⟨node, hnode, hparents, _, htable⟩ := node?_of_lt hv
  simp [factor, hnode, hparents, htable]

theorem vars_modify (nodes : Array (Node α)) (v : Nat) {f : Node α → Node α}
    (hf : ∀ node, (f node).toVariable = node.toVariable) :
    (⟨nodes.modify v f⟩ : Network α).vars = (⟨nodes⟩ : Network α).vars := by
  refine List.ext_getElem? fun w => ?_
  rw [vars_getElem?, vars_getElem?, node?, node?, Array.getElem?_modify]
  cases nodes[w]? <;> split <;> simp [hf]

/-! Another table -/

theorem node?_withTable (n : Network α) (v : Nat) (t : Table α) (w : Nat) :
    (n.withTable v t).node? w = if v = w then (n.node? w).map fun node => { node with table := t }
      else n.node? w := by
  rw [node?, withTable, Array.getElem?_modify]
  rfl

theorem vars_withTable (n : Network α) (v : Nat) (t : Table α) : (n.withTable v t).vars = n.vars :=
  vars_modify n.nodes v (by intro; rfl)

@[simp] theorem size_withTable (n : Network α) (v : Nat) (t : Table α) :
    (n.withTable v t).size = n.size := by
  simp [size, withTable]

@[simp] theorem ids_withTable (n : Network α) (v : Nat) (t : Table α) :
    (n.withTable v t).ids = n.ids := by
  simp [ids]

@[simp] theorem parents_withTable (n : Network α) (v : Nat) (t : Table α) :
    (n.withTable v t).parents = n.parents := by
  funext w
  by_cases h : v = w
  · cases hnode : n.node? w <;> simp [parents, node?_withTable, h, hnode]
  · simp [parents, node?_withTable, h]

@[simp] theorem cardinality_withTable (n : Network α) (v : Nat) (t : Table α) :
    (n.withTable v t).cardinality = n.cardinality := by
  funext w
  by_cases h : v = w
  · cases hnode : n.node? w <;> simp [cardinality, node?_withTable, h, hnode]
  · simp [cardinality, node?_withTable, h]

@[simp] theorem tableShape_withTable (n : Network α) (v : Nat) (t : Table α) :
    (n.withTable v t).tableShape = n.tableShape := by
  funext w
  by_cases h : v = w
  · cases hnode : n.node? w <;> simp [tableShape, node?_withTable, h, hnode]
  · simp [tableShape, node?_withTable, h]

theorem table_withTable [Scalar α] (n : Network α) (hv : v < n.size) (t : Table α) (w : Nat) :
    (n.withTable v t).table w = if w = v then t else n.table w := by
  by_cases h : v = w
  · obtain ⟨node, hnode, _⟩ := node?_of_lt hv
    subst h
    simp [table, node?_withTable, hnode]
  · simp [table, node?_withTable, h, Ne.symm h]

/-! Another variable -/

theorem node?_push (n : Network α) (node : Node α) (w : Nat) :
    (⟨n.nodes.push node⟩ : Network α).node? w = if w = n.size then some node else n.node? w := by
  rw [node?, Array.getElem?_push]
  rfl

theorem vars_push (n : Network α) (node : Node α) :
    (⟨n.nodes.push node⟩ : Network α).vars = n.vars ++ [node.toVariable] := by
  simp [vars]

theorem size_push (n : Network α) (node : Node α) :
    (⟨n.nodes.push node⟩ : Network α).size = n.size + 1 := by
  simp [size]

theorem parents_push (n : Network α) (node : Node α) (w : Nat) :
    (⟨n.nodes.push node⟩ : Network α).parents w =
      if w = n.size then node.parents else n.parents w := by
  by_cases hw : w = n.size <;> simp [parents, node?_push, hw]

theorem cardinality_push (n : Network α) (node : Node α) (w : Nat) :
    (⟨n.nodes.push node⟩ : Network α).cardinality w =
      if w = n.size then node.cardinality else n.cardinality w := by
  by_cases hw : w = n.size <;> simp [cardinality, node?_push, hw]

theorem table_push [Scalar α] (n : Network α) (node : Node α) (w : Nat) :
    (⟨n.nodes.push node⟩ : Network α).table w =
      if w = n.size then node.table else n.table w := by
  by_cases hw : w = n.size <;> simp [table, node?_push, hw]

/-! Another edge -/

theorem vars_attach [Scalar α] (n : Network α) (p c : Nat) : (n.attach p c).vars = n.vars := by
  rw [attach, vars_withTable]
  exact (vars_modify _ p (by intro; rfl)).trans (vars_modify _ c (by intro; rfl))

end Parts

end Network
end Bayes
