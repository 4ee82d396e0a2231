import Bayes.Proofs.Distinct
import Bayes.Proofs.Network.Path
import Bayes.Proofs.Table
/-!
What no edit breaks. Names stay different, parents and children tell of the same edges, there is no
cycle, and every conditional table has the shape that the parents ask for: an edge changes the shape and
makes the table uniform at once, and any other table was checked before it was set.
-/
namespace Bayes.Network

variable {α : Type} [Scalar α] {n n' : Network α} {v p c : Nat}

/-! Tables -/

/-- Entries that are finite and not negative, in rows that sum to one within the tolerance. -/
structure Conditional (entries : List α) (rows : List (List α)) : Prop where
  finite : ∀ x ∈ entries, Scalar.isFinite x = true
  nonneg : ∀ x ∈ entries, Scalar.lt x 0 = false
  sum : ∀ row ∈ rows, Scalar.lt Scalar.rowTolerance (row.sum - 1) = false ∧
    Scalar.lt Scalar.rowTolerance (1 - row.sum) = false

/-- One can be split into `k` parts that are a row of a conditional table, whatever rounding does. -/
def Splits (α : Type) [Scalar α] (k : Nat) : Prop :=
  Conditional [(1 : α) / Scalar.ofNat k] [List.replicate k ((1 : α) / Scalar.ofNat k)]

theorem takes_iff {t : Table α} : n.Takes v t ↔
    v < n.size ∧ t.shape = n.tableShape v ∧ Conditional t.toList t.rows := by
  constructor
  · intro h
    have hentry (x : α) (hx : x ∈ t.toList) : Scalar.isFinite x = true ∧ Scalar.lt x 0 = false := by
      simpa [isProbability] using h.isProbability x hx
    exact ⟨h.lt, h.shape, fun x hx => (hentry x hx).1, fun x hx => (hentry x hx).2,
      fun row hrow => by simpa [isNormalized] using h.isNormalized row hrow⟩
  · rintro ⟨hv, hshape, ht⟩
    exact ⟨hv, hshape, fun x hx => by simp [isProbability, ht.finite x hx, ht.nonneg x hx],
      fun row hrow => by simp [isNormalized, ht.sum row hrow]⟩

theorem conditional_uniform (shape : List Nat) {k : Nat} (h : Splits α k) :
    Conditional (uniform (shape ++ [k]) : Table α).toList (uniform (shape ++ [k])).rows := by
  have huniform : (uniform (shape ++ [k]) : Table α) =
      Table.ofFn (shape ++ [k]) fun _ => 1 / Scalar.ofNat k := by
    rw [uniform, List.getLast?_concat, Option.getD_some]
  have hentry (x : α) (hx : x ∈ (uniform (shape ++ [k]) : Table α).toList) :
      x ∈ [(1 : α) / Scalar.ofNat k] := by
    rw [huniform, Table.toList, Table.ofFn] at hx
    obtain ⟨-, -, rfl⟩ := List.mem_map.1 hx
    exact List.mem_singleton_self _
  refine ⟨fun x hx => h.finite x (hentry x hx), fun x hx => h.nonneg x (hentry x hx),
    fun row hrow => h.sum row ?_⟩
  rw [huniform] at hrow
  exact List.mem_singleton.2 (Table.eq_replicate_of_mem_rows hrow)

def Fills (shape : List Nat) (t : Table α) : Prop :=
  t = uniform shape ∨ t.shape = shape ∧ Conditional t.toList t.rows

theorem Fills.shape_eq {shape : List Nat} {t : Table α} (h : Fills shape t) : t.shape = shape := by
  obtain rfl | h := h
  · rfl
  · exact h.1

/-! Invariants -/

structure Coherent (n : Network α) : Prop where
  named : n.Named
  states : ∀ x ∈ n.vars, 2 ≤ x.states.length ∧ x.states.Nodup
  linked : n.Linked
  ranked : n.Ranked
  nodup_parents : ∀ v, (n.parents v).Nodup
  nodup_children : ∀ v, (n.children v).Nodup
  fills : ∀ v < n.size, Fills (n.tableShape v) (n.table v)

theorem coherent_empty : (empty : Network α).Coherent := by
  have hnone (v : Nat) : (empty : Network α).node? v = none := Array.getElem?_eq_none (Nat.zero_le v)
  refine ⟨List.nodup_nil, by simp [vars, empty], ?_, ⟨fun _ => 0, ?_⟩, ?_, ?_, ?_⟩
  · simp [Linked, children, parents, hnone]
  · simp [parents, hnone]
  · simp [parents, hnone]
  · simp [children, hnone]
  · simp [size, empty]

theorem states_edit {u : Edit α} (h : ∀ x ∈ n.vars, 2 ≤ x.states.length ∧ x.states.Nodup)
    (hok : n.edit u = .ok n') : ∀ x ∈ n'.vars, 2 ≤ x.states.length ∧ x.states.Nodup := by
  obtain ⟨v, t, -, rfl⟩ | ⟨name, states, -, hcount, hdistinct, rfl⟩ | ⟨p, c, -, rfl⟩ | rfl :=
    edit_cases hok
  · rwa [vars_withTable]
  · rw [vars_push]
    intro x hx
    obtain hx | hx := List.mem_append.1 hx
    · exact h x hx
    · rw [List.mem_singleton.1 hx]
      exact ⟨hcount, length_eraseDups_eq_iff.1 hdistinct⟩
  · rwa [vars_attach]
  · exact h

theorem nodup_parents_edit {u : Edit α} (h : ∀ v, (n.parents v).Nodup) (hok : n.edit u = .ok n') :
    ∀ v, (n'.parents v).Nodup := by
  intro w
  obtain ⟨v, t, -, rfl⟩ | ⟨name, states, -, -, -, rfl⟩ | ⟨p, c, hedge, rfl⟩ | rfl := edit_cases hok
  · simpa using h w
  · rw [parents_push]
    split
    · exact List.nodup_nil
    · exact h w
  · rw [parents_attach hedge.child_lt]
    split
    · next hw =>
      rw [← List.concat_eq_append]
      exact (h w).concat (hw ▸ hedge.new)
    · exact h w
  · exact h w

theorem nodup_children_edit {u : Edit α} (hlinked : n.Linked) (h : ∀ v, (n.children v).Nodup)
    (hok : n.edit u = .ok n') : ∀ v, (n'.children v).Nodup := by
  intro w
  obtain ⟨v, t, -, rfl⟩ | ⟨name, states, -, -, -, rfl⟩ | ⟨p, c, hedge, rfl⟩ | rfl := edit_cases hok
  · rw [children_withTable]
    exact h w
  · rw [children_push]
    split
    · exact List.nodup_nil
    · exact h w
  · rw [children_attach hedge.parent_lt hedge.child_lt]
    split
    · next hw =>
      rw [← List.concat_eq_append]
      exact (h w).concat (hw ▸ fun hc => hedge.new ((hlinked p c).1 hc))
    · exact h w
  · exact h w

theorem fills_edit {u : Edit α} (hlinked : n.Linked)
    (h : ∀ v < n.size, Fills (n.tableShape v) (n.table v)) (hok : n.edit u = .ok n') :
    ∀ v < n'.size, Fills (n'.tableShape v) (n'.table v) := by
  intro w hw
  obtain ⟨v, t, ht, rfl⟩ | ⟨name, states, -, -, -, rfl⟩ | ⟨p, c, hedge, rfl⟩ | rfl := edit_cases hok
  · rw [size_withTable] at hw
    rw [tableShape_withTable, table_withTable n ht.lt]
    split
    · next hwv => exact hwv ▸ Or.inr (takes_iff.1 ht).2
    · exact h w hw
  · by_cases hnew : w = n.size
    · refine Or.inl ?_
      rw [tableShape_eq hw, parents_push, table_push, if_pos hnew, if_pos hnew]
      simp [hnew, cardinality_push, Variable.cardinality]
    · rw [size_push] at hw
      have hold : w < n.size := by omega
      rw [tableShape_push hlinked _ hold, table_push, if_neg hnew]
      exact h w hold
  · rw [size_attach] at hw
    rw [tableShape_attach hedge.child_lt hw, table_attach hedge.child_lt]
    -- only the shape of the child grows, and its table is made anew in that shape
    split
    · exact Or.inl rfl
    · exact h w hw
  · exact h w hw

theorem Coherent.edit (h : n.Coherent) {u : Edit α} (hok : n.edit u = .ok n') : n'.Coherent where
  named := h.named.edit hok
  states := states_edit h.states hok
  linked := linked_edit h.linked hok
  ranked := ranked_edit h.linked h.ranked hok
  nodup_parents := nodup_parents_edit h.nodup_parents hok
  nodup_children := nodup_children_edit h.linked h.nodup_children hok
  fills := fills_edit h.linked h.fills hok

theorem Coherent.two_le_cardinality (h : n.Coherent) (hv : v < n.size) : 2 ≤ n.cardinality v := by
  obtain ⟨x, hx, hcard⟩ := vars_of_lt hv
  rw [← hcard]
  exact (h.states x (List.mem_of_getElem? hx)).1

/-- If the table of the variable is uniform, it has the parts that one is split into. -/
def SplitsEvenly (n : Network α) (v : Nat) : Prop :=
  n.table v = uniform (n.tableShape v) → Splits α (n.cardinality v)

theorem Coherent.conditional (h : n.Coherent) (hv : v < n.size) (hsplits : n.SplitsEvenly v) :
    Conditional (n.table v).toList (n.table v).rows := by
  obtain huniform | ht := h.fills v hv
  · rw [huniform, tableShape_eq hv, List.map_append, List.map_singleton]
    exact conditional_uniform _ (hsplits huniform)
  · exact ht.2

end Bayes.Network
