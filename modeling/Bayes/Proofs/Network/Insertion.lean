import Bayes.Proofs.Network.Edges
import Bayes.Proofs.Network.InPlace
import Bayes.Proofs.Network.Search
/-!
Adding edges. A new edge is refused just when a path leads back from the child to the parent, changes
nothing when it is there already, and otherwise becomes the last edge of both ends and makes the table of
the child uniform. So whether some edges can be added one after the other, and to what they lead, does not
depend on their order: they can, if together with those that are there they close no cycle.
-/
namespace Bayes.Network
open Call

variable {α : Type} [Scalar α] {n n' : Network α} {p c : Nat} {x y : Variable}
  {es order : List (Nat × Nat)}

/-- One network has an edge more than another one, and nothing else is different. -/
structure Gains (n : Network α) (p c : Nat) (n' : Network α) : Prop where
  vars : n'.vars = n.vars
  parents : n'.parents c = n.parents c ++ [p]
  children : n'.children p = n.children p ++ [c]
  table : n'.table c = uniform ((n.parents c ++ [p]).map n.cardinality ++ [n.cardinality c])
  parents_ne : ∀ w, w ≠ c → n'.parents w = n.parents w
  children_ne : ∀ w, w ≠ p → n'.children w = n.children w
  table_ne : ∀ w, w ≠ c → n'.table w = n.table w

theorem gains_attach (hp : p < n.size) (hc : c < n.size) : n.Gains p c (n.attach p c) where
  vars := vars_attach n p c
  parents := by rw [parents_attach hc, if_pos rfl]
  children := by rw [children_attach hp hc, if_pos rfl]
  table := by simp [table_attach hc]
  parents_ne w hw := by rw [parents_attach hc, if_neg hw.symm]
  children_ne w hw := by rw [children_attach hp hc, if_neg hw.symm]
  table_ne w hw := by rw [table_attach hc, if_neg hw.symm]

theorem Gains.ne (h : n.Gains p c n') : n' ≠ n := by
  intro heq
  have hparents := h.parents
  rw [heq] at hparents
  simp at hparents

theorem addEdge_of_leads (h : n.Linked) (hx : n.vars[p]? = some x) (hy : n.vars[c]? = some y)
    (hnew : p ∉ n.parents c) (hleads : n.Leads c p) :
    n.addEdge p c = .error (.cyclicNetwork x.name y.name) := by
  rw [vars_getElem?] at hx hy
  obtain ⟨above, habove, rfl⟩ := Option.map_eq_some_iff.1 hx
  obtain ⟨below, hbelow, rfl⟩ := Option.map_eq_some_iff.1 hy
  have hparents : p ∉ below.parents := by simpa [Network.parents, hbelow] using hnew
  have hreaches : n.reaches c p = true := (reaches_iff h).2 hleads
  simp [addEdge, lookup, habove, hbelow, hparents, hreaches]

/-- What comes of an edge: it is there already, it is refused, or it is added. -/
theorem Coherent.addEdge_cases (h : n.Coherent) (hx : n.vars[p]? = some x)
    (hy : n.vars[c]? = some y) :
    (p ∈ n.parents c ∧ ¬ n.Leads c p ∧ n.addEdge p c = .ok n) ∨
    (p ∉ n.parents c ∧ n.Leads c p ∧ n.addEdge p c = .error (.cyclicNetwork x.name y.name)) ∨
    (p ∉ n.parents c ∧ ¬ n.Leads c p ∧ n.addEdge p c = .ok (n.attach p c)) := by
  have hp : p < n.size := lt_of_vars hx
  have hc : c < n.size := lt_of_vars hy
  by_cases hold : p ∈ n.parents c
  · exact Or.inl ⟨hold, h.ranked.not_leads hold, addEdge_of_mem hp hold⟩
  · by_cases hleads : n.Leads c p
    · exact Or.inr (Or.inl ⟨hold, hleads, addEdge_of_leads h.linked hx hy hold hleads⟩)
    · exact Or.inr (Or.inr ⟨hold, hleads, addEdge_of_joins (h.linked.joins hp hc hold hleads)⟩)

/-! Some edges, one call after the other -/

def addEdgesInPlace (es : List (Nat × Nat)) : Call α (Network α) Unit :=
  es.forM fun e => editInPlace (.addEdge e.1 e.2)

theorem addEdgesInPlace_cons (e : Nat × Nat) (es : List (Nat × Nat)) (n : Network α) :
    addEdgesInPlace (e :: es) n = match n.addEdge e.1 e.2 with
      | .ok m => addEdgesInPlace es m
      | .error err => .error err n := by
  change (editInPlace (.addEdge e.1 e.2) >>= fun _ => addEdgesInPlace es) n = _
  simp only [bind, EStateM.bind, editInPlace_apply, edit]
  cases n.addEdge e.1 e.2 <;> rfl

theorem addEdgesInPlace_eq_ok : addEdgesInPlace es n = .ok () n' ↔ addEdges es n = .ok n' := by
  induction es generalizing n with
  | nil => simp [addEdgesInPlace, addEdges, pure, EStateM.pure, Except.pure]
  | cons e es ih =>
    rw [addEdgesInPlace_cons, addEdges_cons]
    cases n.addEdge e.1 e.2 with
    | error err => simp [bind, Except.bind]
    | ok m => exact ih

theorem mem_parents_addEdges (h : n.Coherent) (hok : addEdges es n = .ok n') :
    p ∈ n'.parents c ↔ p ∈ n.parents c ∨ (p, c) ∈ es := by
  rw [parents_addEdges h.nodup_parents hok, List.mem_eraseDups]
  simp

/-- In whatever order they are added, edges leave as many variables with the same parents. -/
theorem Coherent.addEdgesInPlace_congr (h : n.Coherent) {order : List (Nat × Nat)}
    (horder : ∀ e, e ∈ order ↔ e ∈ es) {m m' : Network α} (hm : addEdgesInPlace es n = .ok () m)
    (hm' : addEdgesInPlace order n = .ok () m') :
    m'.size = m.size ∧ ∀ p c, p ∈ m'.parents c ↔ p ∈ m.parents c := by
  rw [addEdgesInPlace_eq_ok] at hm hm'
  refine ⟨size_of_vars_eq ((vars_addEdges hm').trans (vars_addEdges hm).symm), fun p c => ?_⟩
  rw [mem_parents_addEdges h hm, mem_parents_addEdges h hm', horder]

/-- For all variables that are known, an edge is refused just when both ends are the same or a path leads
back; it changes nothing just when it is there already; and otherwise only its ends learn of it. The search
for the path needs no bound. In whatever order some edges are added, and however often, they can all be
added just when no cycle is among all edges. -/
theorem Reached.addEdge_exact (h : n.Reached) :
    (∀ p c x y, n.vars[p]? = some x → n.vars[c]? = some y →
      n.search p [c] (Array.replicate n.size false) = n.reaches c p ∧
      ((∃ e m, editInPlace (.addEdge p c) n = .error e m) ↔
        p = c ∨ Relation.TransGen (fun p c => p ∈ n.parents c) c p) ∧
      (∀ e m, editInPlace (.addEdge p c) n = .error e m →
        e = .cyclicNetwork x.name y.name ∧ m = n) ∧
      (editInPlace (.addEdge p c) n = .ok () n ↔ p ∈ n.parents c) ∧
      (p ∉ n.parents c → ¬ (p = c ∨ Relation.TransGen (fun p c => p ∈ n.parents c) c p) →
        ∃ n', editInPlace (.addEdge p c) n = .ok () n' ∧ n.Gains p c n')) ∧
    ∀ es : List (Nat × Nat), (∀ e ∈ es, e.1 < n.size ∧ e.2 < n.size) →
      ∀ order : List (Nat × Nat), (∀ e, e ∈ order ↔ e ∈ es) →
        ((∃ n', addEdgesInPlace order n = .ok () n') ↔
          Acyclic fun p c => p ∈ n.parents c ∨ (p, c) ∈ es) ∧
        ∀ n', addEdgesInPlace order n = .ok () n' →
          ∀ p c, p ∈ n'.parents c ↔ p ∈ n.parents c ∨ (p, c) ∈ es := by
  have hn := h.coherent
  refine ⟨fun p c x y hx hy => ?_, fun es hes order horder => ⟨?_, fun n' hok p c => ?_⟩⟩
  · have hp : p < n.size := lt_of_vars hx
    have hc : c < n.size := lt_of_vars hy
    have hleads : n.Leads c p ↔ p = c ∨ Relation.TransGen (fun p c => p ∈ n.parents c) c p := by
      rw [Leads, Relation.reflTransGen_iff_eq_or_transGen]
    have hgains := gains_attach (n := n) hp hc
    rw [← hleads, editInPlace_apply]
    refine ⟨search_eq_reaches hn.linked hc, ?_⟩
    obtain ⟨hold, hnot, hadd⟩ | ⟨hnew, hcycle, hadd⟩ | ⟨hnew, hnot, hadd⟩ := hn.addEdge_cases hx hy
    · simp [edit, hadd, hold, hnot]
    · simp [edit, hadd, hnew, hcycle]
    · simp [edit, hadd, hnew, hnot, hgains.ne, hgains]
  · simp only [addEdgesInPlace_eq_ok, addEdges_isOk hn, horder]
    exact and_iff_right hes
  · simp only [mem_parents_addEdges hn (addEdgesInPlace_eq_ok.1 hok), horder]

/-- The edge from the rain to the grass is there already; with the edge back it would be a cycle, whichever
of them comes first. -/
theorem addEdge_exact_of_wetGrass : wetGrass.Reached ∧
    editInPlace (.addEdge 0 1) wetGrass = .ok () wetGrass ∧
    (∃ e m, editInPlace (.addEdge 1 1) wetGrass = .error e m) ∧
    (¬ ∃ n', addEdgesInPlace [(0, 1), (1, 0)] wetGrass = .ok () n') ∧
    ¬ ∃ n', addEdgesInPlace [(1, 0), (0, 1)] wetGrass = .ok () n' := by
  have hrain : wetGrass.vars[0]? = some ⟨"rain", ["no", "yes"]⟩ := rfl
  have hgrass : wetGrass.vars[1]? = some ⟨"grass", ["dry", "wet"]⟩ := rfl
  have hedge : 0 ∈ wetGrass.parents 1 := List.mem_singleton_self 0
  obtain ⟨hone, hall⟩ := reached_wetGrass.addEdge_exact
  obtain ⟨-, -, -, hold, -⟩ := hone 0 1 _ _ hrain hgrass
  obtain ⟨-, hself, -⟩ := hone 1 1 _ _ hgrass hgrass
  have hknown : ∀ e ∈ [(0, 1), (1, 0)], e.1 < wetGrass.size ∧ e.2 < wetGrass.size := by
    change ∀ e ∈ [(0, 1), (1, 0)], e.1 < 2 ∧ e.2 < 2
    decide
  have hcycle : ¬ Acyclic fun p c => p ∈ wetGrass.parents c ∨ (p, c) ∈ [(0, 1), (1, 0)] := by
    intro hacyclic
    exact hacyclic 0 (.tail (.single (Or.inl hedge)) (Or.inr (by simp)))
  refine ⟨reached_wetGrass, hold.2 hedge, hself.2 (Or.inl rfl), ?_, ?_⟩
  · exact mt (hall _ hknown _ fun _ => Iff.rfl).1.1 hcycle
  · exact mt (hall _ hknown [(1, 0), (0, 1)] (by simp [or_comm])).1.1 hcycle

end Bayes.Network
