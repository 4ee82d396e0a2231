import Bayes.Proofs.Network.Consistent
/-!
Many edges, added one after the other. Each of them is tested against those before it only, but whether
all can be added does not depend on their order: they can, if all of them together close no cycle.
-/
namespace Bayes.Network

variable {α : Type} [Scalar α] {n n' : Network α} {p c w : Nat} {es : List (Nat × Nat)}

def addEdges (es : List (Nat × Nat)) (n : Network α) : Except (Error α) (Network α) :=
  es.foldlM (fun m e => m.addEdge e.1 e.2) n

theorem addEdges_cons (e : Nat × Nat) (es : List (Nat × Nat)) (n : Network α) :
    addEdges (e :: es) n = n.addEdge e.1 e.2 >>= addEdges es := by
  rw [addEdges, List.foldlM_cons]
  rfl

/-! One edge -/

theorem parents_addEdge (hok : n.addEdge p c = .ok n') (w : Nat) : n'.parents w =
    if c = w then if p ∈ n.parents w then n.parents w else n.parents w ++ [p] else n.parents w := by
  obtain ⟨hold, rfl⟩ | ⟨hedge, rfl⟩ := addEdge_eq hok
  · by_cases hw : c = w
    · rw [if_pos hw, if_pos (hw ▸ hold)]
    · rw [if_neg hw]
  · rw [parents_attach hedge.child_lt]
    by_cases hw : c = w
    · rw [if_pos hw, if_pos hw, if_neg (hw ▸ hedge.new)]
    · rw [if_neg hw, if_neg hw]

theorem vars_addEdge (hok : n.addEdge p c = .ok n') : n'.vars = n.vars := by
  obtain ⟨-, rfl⟩ | ⟨-, rfl⟩ := addEdge_eq hok
  · rfl
  · exact vars_attach n p c

theorem mem_parents_addEdge (hok : n.addEdge p c = .ok n') {q w : Nat} :
    q ∈ n'.parents w ↔ q ∈ n.parents w ∨ (q, w) = (p, c) := by
  rw [parents_addEdge hok, Prod.mk.injEq]
  by_cases hw : c = w
  · subst hw
    by_cases hold : p ∈ n.parents c
    · rw [if_pos rfl, if_pos hold]
      exact ⟨Or.inl, fun h => h.elim id fun hq => hq.1 ▸ hold⟩
    · simp [hold]
  · simp [hw, Ne.symm hw]

theorem addEdge_isOk (h : n.Linked) (hp : p < n.size) (hc : c < n.size)
    (hacyclic : p ∈ n.parents c ∨ ¬ n.Leads c p) : ∃ n', n.addEdge p c = .ok n' := by
  by_cases hold : p ∈ n.parents c
  · exact ⟨n, addEdge_of_mem hp hold⟩
  · exact ⟨_, addEdge_of_joins (h.joins hp hc hold (hacyclic.resolve_left hold))⟩

/-! All of them -/

theorem addEdges_isOk (h : n.Coherent) : (∃ n', addEdges es n = .ok n') ↔
    (∀ e ∈ es, e.1 < n.size ∧ e.2 < n.size) ∧
    Acyclic fun p c => p ∈ n.parents c ∨ (p, c) ∈ es := by
  induction es generalizing n with
  | nil => simpa [addEdges, pure, Except.pure] using h.ranked.acyclic
  | cons e es ih =>
    obtain ⟨p, c⟩ := e
    -- after the first edge the rest meets the same edges as the whole list did before
    have hfirst {m : Network α} (hm : n.addEdge p c = .ok m) : (∃ n', addEdges es m = .ok n') ↔
        (∀ e ∈ es, e.1 < n.size ∧ e.2 < n.size) ∧
        Acyclic fun q w => q ∈ n.parents w ∨ (q, w) ∈ (p, c) :: es := by
      have hsame : (fun q w => q ∈ m.parents w ∨ (q, w) ∈ es) =
          fun q w => q ∈ n.parents w ∨ (q, w) ∈ (p, c) :: es := by
        funext q w
        rw [mem_parents_addEdge hm, List.mem_cons, or_assoc]
      rw [ih (h.edit (u := .addEdge p c) hm), size_of_vars_eq (vars_addEdge hm), hsame]
    rw [addEdges_cons, List.forall_mem_cons]
    constructor
    · rintro ⟨n', hok⟩
      obtain ⟨m, hm, hrest⟩ := bind_eq_ok.1 hok
      obtain ⟨hknown, hacyclic⟩ := (hfirst hm).1 ⟨n', hrest⟩
      refine ⟨⟨?_, hknown⟩, hacyclic⟩
      obtain ⟨hold, -⟩ | ⟨hedge, -⟩ := addEdge_eq hm
      · exact h.linked.known hold
      · exact ⟨hedge.parent_lt, hedge.child_lt⟩
    · rintro ⟨⟨⟨hp, hc⟩, hknown⟩, hacyclic⟩
      have hnot : ¬ n.Leads c p := fun hleads => hacyclic p
        (Relation.TransGen.head' (Or.inr List.mem_cons_self)
          (Relation.ReflTransGen.mono (fun _ _ hmem => Or.inl hmem) c p hleads))
      obtain ⟨m, hm⟩ := addEdge_isOk h.linked hp hc (Or.inr hnot)
      obtain ⟨n', hrest⟩ := (hfirst hm).2 ⟨hknown, hacyclic⟩
      exact ⟨n', bind_eq_ok.2 ⟨m, hm, hrest⟩⟩

theorem vars_addEdges (hok : addEdges es n = .ok n') : n'.vars = n.vars :=
  foldlM_invariant (fun m => m.vars = n.vars) (fun _ _ _ hm h => (vars_addEdge h).trans hm) es n n' rfl
    hok

theorem Coherent.addEdges (h : n.Coherent) (hok : addEdges es n = .ok n') : n'.Coherent :=
  foldlM_invariant Coherent (fun _ e _ hm h => hm.edit (u := .addEdge e.1 e.2) h) es n n' h hok

theorem parents_addEdges (h : ∀ v, (n.parents v).Nodup) (hok : addEdges es n = .ok n') (w : Nat) :
    n'.parents w = (n.parents w ++ (es.filter (·.2 == w)).map (·.1)).eraseDups := by
  induction es generalizing n with
  | nil =>
    cases hok
    simp [eraseDups_eq_self (h w)]
  | cons e es ih =>
    obtain ⟨p, c⟩ := e
    rw [addEdges_cons] at hok
    obtain ⟨m, hm, hrest⟩ := bind_eq_ok.1 hok
    rw [ih (nodup_parents_edit (u := .addEdge p c) h hm) hrest, parents_addEdge hm]
    by_cases hw : c = w
    · simp [hw, eraseDups_append_cons]
    · simp [hw]

def Blank (n : Network α) : Prop := ∀ v < n.size, n.table v = uniform (n.tableShape v)

theorem Blank.addEdge (h : n.Blank) (hok : n.addEdge p c = .ok n') : n'.Blank := by
  obtain ⟨-, rfl⟩ | ⟨hedge, rfl⟩ := addEdge_eq hok
  · exact h
  · intro v hv
    rw [size_attach] at hv
    rw [tableShape_attach hedge.child_lt hv, table_attach hedge.child_lt]
    split
    · rfl
    · exact h v hv

theorem Blank.addEdges (h : n.Blank) (hok : addEdges es n = .ok n') : n'.Blank :=
  foldlM_invariant Blank (fun _ _ _ hm h => hm.addEdge h) es n n' h hok

end Bayes.Network
