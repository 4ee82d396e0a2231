import Bayes.Proofs.Joint
import Bayes.Proofs.Network.Path
/-!
Surgery on a network: some variables are cut off from their parents, and each is made certain of one
state. What comes out is again a network that can be reached by editing, with the same variables.
-/
namespace Bayes

def Table.certain {α : Type} [Scalar α] (cardinality state : Nat) : Table α :=
  .ofFn [cardinality] fun index => if index = [state] then 1 else 0

/-- Some variables are forced into states: they lose their parents, and are lost as children. -/
def Node.operated {α : Type} [Scalar α] (forced : Nat → Option Nat) (v : Nat) (node : Node α) :
    Node α where
  toVariable := node.toVariable
  parents := if (forced v).isSome then [] else node.parents
  children := node.children.filter fun c => (forced c).isNone
  table := (forced v).elim node.table (.certain node.cardinality)

/-- The network in which some variables are forced into states. -/
def Network.surgery {α : Type} [Scalar α] (n : Network α) (forced : Nat → Option Nat) : Network α :=
  ⟨n.nodes.mapIdx (Node.operated forced)⟩

namespace Network

section Reading

variable {α : Type} [Scalar α] {n n' : Network α} {forced : Nat → Option Nat} {v w : Nat}

omit [Scalar α] in
theorem ext_node? (h : ∀ v, n.node? v = n'.node? v) : n = n' := by
  obtain ⟨nodes⟩ := n
  obtain ⟨nodes'⟩ := n'
  exact congrArg Network.mk (Array.ext_getElem? h)

theorem node?_surgery (n : Network α) (forced : Nat → Option Nat) (v : Nat) :
    (n.surgery forced).node? v = (n.node? v).map (Node.operated forced v) := by
  rw [node?, surgery, Array.getElem?_mapIdx]
  rfl

@[simp] theorem size_surgery : (n.surgery forced).size = n.size := by simp [size, surgery]

@[simp] theorem ids_surgery : (n.surgery forced).ids = n.ids := by simp [ids]

@[simp] theorem vars_surgery : (n.surgery forced).vars = n.vars := by
  refine List.ext_getElem? fun v => ?_
  rw [vars_getElem?, vars_getElem?, node?_surgery, Option.map_map]
  rfl

@[simp] theorem cardinality_surgery : (n.surgery forced).cardinality = n.cardinality := by
  funext v
  rw [cardinality, cardinality, node?_surgery, Option.map_map]
  rfl

theorem parents_surgery : (n.surgery forced).parents v =
    if (forced v).isSome then [] else n.parents v := by
  cases hv : n.node? v <;> simp [parents, node?_surgery, hv, Node.operated]

theorem table_surgery (hv : v < n.size) : (n.surgery forced).table v =
    (forced v).elim (n.table v) (.certain (n.cardinality v)) := by
  obtain ⟨node, hnode, -, hcard, htable⟩ := node?_of_lt hv
  simp [table, node?_surgery, hnode, Node.operated, ← hcard]

/-! One edit before the surgery -/

theorem surgery_withTable_of_forced (hv : (forced v).isSome) (t : Table α) :
    (n.withTable v t).surgery forced = n.surgery forced := by
  obtain ⟨state, hstate⟩ := Option.isSome_iff_exists.1 hv
  refine ext_node? fun w => ?_
  rw [node?_surgery, node?_surgery, node?_withTable]
  split
  · next heq =>
    subst heq
    rw [Option.map_map]
    congr 1
    funext node
    simp [Node.operated, hstate]
  · rfl

theorem surgery_withTable (hv : forced v = none) (t : Table α) :
    (n.withTable v t).surgery forced = (n.surgery forced).withTable v t := by
  refine ext_node? fun w => ?_
  rw [node?_surgery, node?_withTable, node?_withTable, node?_surgery]
  split
  · next heq =>
    subst heq
    rw [Option.map_map, Option.map_map]
    congr 1
    funext node
    simp [Node.operated, hv]
  · rfl

theorem surgery_push (name : String) (states : List String) :
    let fresh : Node α := ⟨⟨name, states⟩, [], [], uniform [states.length]⟩
    (⟨n.nodes.push fresh⟩ : Network α).surgery forced =
      ⟨(n.surgery forced).nodes.push (Node.operated forced n.size fresh)⟩ := by
  intro fresh
  refine ext_node? fun w => ?_
  rw [node?_surgery, node?_push, node?_push, node?_surgery, size_surgery]
  split
  · next heq => rw [heq]; rfl
  · rfl

theorem surgery_attach_of_forced {p c : Nat} (hc : c < n.size) (hforced : (forced c).isSome) :
    (n.attach p c).surgery forced = n.surgery forced := by
  obtain ⟨state, hstate⟩ := Option.isSome_iff_exists.1 hforced
  refine ext_node? fun w => ?_
  rw [node?_surgery, node?_surgery, node?_attach n hc, Option.map_map]
  congr 1
  funext node
  by_cases hw : c = w
  · subst hw
    by_cases hp : p = c <;> simp [Node.operated, hstate, hp]
  · by_cases hp : p = w <;> simp [Node.operated, hstate, hp, hw]

theorem surgery_attach {p c : Nat} (hc : c < n.size) (hfree : forced c = none) :
    (n.attach p c).surgery forced = (n.surgery forced).attach p c := by
  refine ext_node? fun w => ?_
  rw [node?_surgery, node?_attach n hc, node?_attach _ (by simpa using hc), node?_surgery,
    Option.map_map, Option.map_map, parents_surgery, cardinality_surgery]
  congr 1
  funext node
  by_cases hw : c = w
  · subst hw
    by_cases hp : p = c <;> simp [Node.operated, hfree, hp]
  · by_cases hp : p = w <;> simp [Node.operated, hfree, hp, hw]

theorem leads_of_surgery (h : (n.surgery forced).Leads v w) : n.Leads v w := by
  refine Relation.ReflTransGen.mono (fun p c (hp : p ∈ (n.surgery forced).parents c) => ?_) v w h
  rw [parents_surgery] at hp
  split at hp
  · simp at hp
  · exact hp

theorem idOf?_surgery (name : String) : (n.surgery forced).idOf? name = n.idOf? name := by
  have hvars (m : Network α) : m.idOf? name = m.vars.findIdx? (·.name == name) := by
    rw [vars, List.findIdx?_map]
    rfl
  rw [hvars, hvars, vars_surgery]

end Reading

/-! The outcome can be reached -/

variable {n n' : Network ℝ} {forced : Nat → Option Nat} {v : Nat}

def Forces (forced : Nat → Option Nat) (n : Network ℝ) : Prop :=
  ∀ v < n.size, ∀ state, forced v = some state → state < n.cardinality v

theorem Forces.of_le (h : Forces forced n') (hsize : n.size ≤ n'.size)
    (hcard : ∀ v < n.size, n'.cardinality v = n.cardinality v) : Forces forced n :=
  fun v hv state hstate => hcard v hv ▸ h v (hv.trans_le hsize) state hstate

theorem rows_certain (cardinality state : Nat) : (Table.certain cardinality state : Table ℝ).rows =
    [(List.range cardinality).map fun i => if i = state then 1 else 0] := by
  refine (Table.rows_ofFn [] cardinality _).trans ?_
  simp [Table.indices]

theorem takes_certain {state : Nat} (hv : v < n.size) (hparents : n.parents v = [])
    (hstate : state < n.cardinality v) : n.Takes v (.certain (n.cardinality v) state) := by
  refine ⟨hv, ?_, fun x hx => ?_, fun row hrow => ?_⟩
  · rw [tableShape_eq hv, hparents]
    rfl
  · simp only [Table.certain, Table.ofFn, Table.toList] at hx
    obtain ⟨index, -, rfl⟩ := List.mem_map.1 hx
    split <;> simp [isProbability, Scalar.lt, Scalar.isFinite]
  · have hsum : row.sum = 1 := by
      rw [rows_certain, List.mem_singleton] at hrow
      rw [hrow, Reduction.sum_range_single hstate fun i hi => if_neg hi]
      simp
    have htolerance : (0 : ℝ) < Scalar.rowTolerance := by
      simp [Scalar.rowTolerance, Scalar.ofNat]
    simp [isNormalized, hsum, Scalar.lt, htolerance.le]

theorem Reachable.surgery_push (h : (n.surgery forced).Reachable) {name : String}
    {states : List String} (hname : n.idOf? name = none) (hcount : 2 ≤ states.length)
    (hdistinct : states.eraseDups.length = states.length)
    (hforced : ∀ state, forced n.size = some state → state < states.length) :
    ((⟨n.nodes.push ⟨⟨name, states⟩, [], [], uniform [states.length]⟩⟩ : Network ℝ).surgery
      forced).Reachable := by
  rw [Network.surgery_push]
  have hadded := h.edit (.addVariable name states)
    (addVariable_of_new ((idOf?_surgery name).trans hname) hcount hdistinct)
  cases hv : forced n.size with
  | none => simpa [Node.operated, hv] using hadded
  | some state =>
    let fresh : Node ℝ := ⟨⟨name, states⟩, [], [], uniform [states.length]⟩
    let pushed : Network ℝ := ⟨(n.surgery forced).nodes.push fresh⟩
    have hsize : n.size < pushed.size := by simp [pushed, size_push]
    have hparents : pushed.parents n.size = [] := by simp [pushed, fresh, parents_push]
    have hcard : pushed.cardinality n.size = states.length := by
      simp [pushed, fresh, cardinality_push, Variable.cardinality]
    have hset : (⟨(n.surgery forced).nodes.push (Node.operated forced n.size fresh)⟩ : Network ℝ) =
        pushed.withTable n.size (.certain (pushed.cardinality n.size) state) := by
      refine ext_node? fun w => ?_
      rw [node?_withTable, node?_push, node?_push, hcard]
      by_cases hw : n.size = w
      · subst hw
        simp [Node.operated, hv, fresh, Variable.cardinality]
      · simp [hw, Ne.symm hw]
    have hstate : state < pushed.cardinality n.size := by
      rw [hcard]
      exact hforced state hv
    rw [hset]
    exact hadded.edit (.setTable n.size _)
      (setTable_of_takes (takes_certain hsize hparents hstate))

/-- A network after surgery comes from edits of its own: those of the network, except those that the
surgery undoes, and a certain table for every forced variable. -/
theorem Reachable.surgery (h : n.Reachable) (hforced : Forces forced n) :
    (n.surgery forced).Reachable := by
  induction h with
  | empty => exact .empty
  | @edit n n' hn u hok ih =>
    obtain ⟨v, t, ht, rfl⟩ | ⟨name, states, hname, hcount, hdistinct, rfl⟩ | ⟨p, c, hedge, rfl⟩ | rfl :=
      edit_cases hok
    · have ih := ih (hforced.of_le (by simp) (by simp))
      cases hv : forced v with
      | some state => rwa [surgery_withTable_of_forced (by simp [hv])]
      | none =>
        rw [surgery_withTable hv]
        refine ih.edit (.setTable v t) (setTable_of_takes ⟨by simpa using ht.lt, ?_, ht.isProbability,
          ht.isNormalized⟩)
        rw [ht.shape, tableShape_eq ht.lt, tableShape_eq (by simpa using ht.lt), parents_surgery, hv,
          cardinality_surgery]
        rfl
    · have ih := ih (hforced.of_le (by simp [size_push]) fun v hv => by
        rw [cardinality_push, if_neg hv.ne])
      refine ih.surgery_push hname hcount hdistinct fun state hstate => ?_
      have hlt := hforced n.size (by simp [size_push]) state hstate
      rwa [cardinality_push, if_pos rfl] at hlt
    · have ih := ih (hforced.of_le (by simp) (by simp))
      cases hc : forced c with
      | some state => rwa [surgery_attach_of_forced hedge.child_lt (by simp [hc])]
      | none =>
        have hparents : (n.surgery forced).parents c = n.parents c := by simp [parents_surgery, hc]
        have hacyclic : (n.surgery forced).reaches c p = false := by
          refine Bool.eq_false_iff.2 fun hfound => ?_
          have hleads := leads_of_surgery ((reaches_iff ih.linked_ranked.1).1 hfound)
          have hcycle := (reaches_iff hn.linked_ranked.1).2 hleads
          rw [hedge.acyclic] at hcycle
          cases hcycle
        rw [surgery_attach hedge.child_lt hc]
        exact ih.edit (.addEdge p c) (addEdge_of_joins ⟨by simpa using hedge.parent_lt,
          by simpa using hedge.child_lt, hedge.ne, hparents ▸ hedge.new, hacyclic⟩)
    · exact ih hforced

end Network
end Bayes
