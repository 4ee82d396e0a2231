import Bayes.Proofs.Network.Declaration
/-!
Reading the declarations off a network. Declared again, they give a network with the same variables,
parents and tables.
-/
namespace Bayes.Network

variable {α : Type} {n n' : Network α} {ds : List (Declaration α)} {d : Declaration α} {v : Nat}

def nameOf? (n : Network α) (v : Nat) : Option String := (n.node? v).map (·.name)

def declarations (n : Network α) : List (Declaration α) :=
  n.nodes.toList.map fun node =>
    { name := node.name
      states := node.states
      parents := node.parents.filterMap n.nameOf?
      values := some node.table.toList }

theorem length_declarations (n : Network α) : n.declarations.length = n.size := by
  simp [declarations, size]

theorem names_declarations (n : Network α) : n.declarations.map (·.name) = n.names := by
  simp [declarations, names, vars]

theorem vars_declarations (n : Network α) : n.vars = n.declarations.map (·.toVariable) := by
  simp [declarations, vars, Declaration.toVariable]

theorem getElem?_declarations [Scalar α] (h : n.declarations[v]? = some d) : v < n.size ∧
    d.parents = (n.parents v).filterMap n.nameOf? ∧ d.values = some (n.table v).toList := by
  rw [declarations, List.getElem?_map] at h
  obtain ⟨node, hnode, rfl⟩ := Option.map_eq_some_iff.1 h
  have hnode : n.node? v = some node := by simpa [node?] using hnode
  exact ⟨lt_of_node? hnode, by simp [parents, hnode], by simp [table, hnode]⟩

theorem Named.position_declarations (h : n.Named) {name : String} (hname : n.nameOf? v = some name) :
    position n.declarations name = v := by
  obtain ⟨node, hnode, rfl⟩ := Option.map_eq_some_iff.1 hname
  have hv : n.names[v]? = some node.name := by
    simp [names, vars_getElem?, hnode]
  obtain ⟨hlt, hget⟩ := List.getElem?_eq_some_iff.1 hv
  rw [position, names_declarations, ← hget]
  exact List.Nodup.idxOf_getElem h v hlt

theorem nameOf?_isSome (hv : v < n.size) : ∃ name, n.nameOf? v = some name := by
  obtain ⟨node, hnode⟩ := Option.isSome_iff_exists.1 (node?_isSome.2 hv)
  exact ⟨node.name, by simp [nameOf?, hnode]⟩

theorem Named.map_position_nameOf? (h : n.Named) {vs : List Nat} (hvs : ∀ v ∈ vs, v < n.size) :
    (vs.filterMap n.nameOf?).map (position n.declarations) = vs := by
  have hback : ∀ v ∈ vs, (n.nameOf? v).map (position n.declarations) = some v := by
    intro v hv
    obtain ⟨name, hname⟩ := nameOf?_isSome (hvs v hv)
    rw [hname, Option.map_some, h.position_declarations hname]
  rw [List.map_filterMap, List.filterMap_congr hback, List.filterMap_some]

variable [Scalar α]

theorem Coherent.parents_declarations (h : n.Coherent) (hd : n.declarations[v]? = some d) :
    d.parents.Nodup ∧ d.parents.map (position n.declarations) = n.parents v := by
  obtain ⟨-, hparents, -⟩ := getElem?_declarations hd
  have hback := h.named.map_position_nameOf? fun p (hp : p ∈ n.parents v) => (h.linked.known hp).1
  rw [← hparents] at hback
  exact ⟨List.Nodup.of_map _ (hback ▸ h.nodup_parents v), hback⟩

/-- What is read off a network is valid, if the tables that are uniform still would be taken. -/
theorem Coherent.valid_declarations (h : n.Coherent) (hsplits : ∀ v < n.size, n.SplitsEvenly v) :
    Valid n.declarations := by
  have hnames : (n.declarations.map (·.name)).Nodup := by
    rw [names_declarations]
    exact h.named
  refine ⟨hnames, fun d hd => ?_, fun d hd p hp => ?_, ?_, fun d hd values hvalues => ?_⟩
  · refine h.states d.toVariable ?_
    rw [vars_declarations]
    exact List.mem_map_of_mem hd
  · obtain ⟨v, hv⟩ := List.mem_iff_getElem?.1 hd
    have hposition := List.mem_map_of_mem (f := position n.declarations) hp
    rw [(h.parents_declarations hv).2] at hposition
    have hlt := (h.linked.known hposition).1
    rw [← length_declarations] at hlt
    exact position_lt.1 hlt
  · refine h.ranked.acyclic.comap (position n.declarations) fun p c hedge => ?_
    obtain ⟨d, hd, rfl, hp⟩ := hedge
    obtain ⟨v, hv⟩ := List.mem_iff_getElem?.1 hd
    rw [position_of_getElem? hnames hv, ← (h.parents_declarations hv).2]
    exact List.mem_map_of_mem hp
  · obtain ⟨v, hd⟩ := List.mem_iff_getElem?.1 hd
    obtain ⟨hv, -, htable⟩ := getElem?_declarations hd
    obtain ⟨hnodup, hparents⟩ := h.parents_declarations hd
    have hshape := (h.fills v hv).shape_eq
    have hcard := (variable_of_declaration (vars_declarations n) hd).2
    cases hvalues.symm.trans htable
    rw [← size_tableShape (vars_declarations n) hd (by rw [eraseDups_eq_self hnodup, hparents]), ← hcard,
      ← h.rows_eq hv hshape, Table.length_toList, hshape]
    exact ⟨rfl, h.conditional hv (hsplits v hv)⟩

theorem Coherent.eq_of_describes (h : n.Coherent) (hdescribes : Describes n.declarations n') :
    n'.vars = n.vars ∧ n'.parents = n.parents ∧ n'.table = n.table := by
  have hvars : n'.vars = n.vars := hdescribes.vars.trans (vars_declarations n).symm
  have hsize := size_of_vars_eq hvars
  have hdeclared (v : Nat) (hv : v < n.size) : ∃ d, n.declarations[v]? = some d :=
    ⟨_, List.getElem?_eq_getElem (length_declarations n ▸ hv)⟩
  have hparents : n'.parents = n.parents := by
    funext v
    by_cases hv : v < n.size
    · obtain ⟨d, hd⟩ := hdeclared v hv
      obtain ⟨hnodup, hparents⟩ := h.parents_declarations hd
      rw [hdescribes.parents v d hd, eraseDups_eq_self hnodup, hparents]
    · rw [parents_of_le (hsize ▸ not_lt.1 hv), parents_of_le (not_lt.1 hv)]
  refine ⟨hvars, hparents, funext fun v => ?_⟩
  by_cases hv : v < n.size
  · obtain ⟨d, hd⟩ := hdeclared v hv
    refine Table.eq_of_toList ?_ (hdescribes.given v d _ hd (getElem?_declarations hd).2.2)
    rw [hdescribes.shape v (hsize ▸ hv), tableShape_congr hvars hparents hv, (h.fills v hv).shape_eq]
  · rw [table_of_le (hsize ▸ not_lt.1 hv), table_of_le (not_lt.1 hv)]

/-- Just the valid declarations are accepted, and what is built of them is what they describe; and from
the declarations read off it, every network is built again. -/
theorem ofDeclarations_exact (ds : List (Declaration α)) :
    ((∃ n, ofDeclarations ds = .ok n) ↔ Valid ds) ∧
    (∀ n, ofDeclarations ds = .ok n → Describes ds n) ∧
    ∀ n : Network α, n.Reached → (∀ v < n.size, n.SplitsEvenly v) →
      ∃ n', ofDeclarations n.declarations = .ok n' ∧
        n'.vars = n.vars ∧ n'.parents = n.parents ∧ n'.table = n.table := by
  refine ⟨ofDeclarations_isOk, fun n => describes_ofDeclarations, fun n hn hsplits => ?_⟩
  have h := hn.coherent
  obtain ⟨n', hok⟩ := ofDeclarations_isOk.2 (h.valid_declarations hsplits)
  exact ⟨n', hok, h.eq_of_describes (describes_ofDeclarations hok)⟩

theorem ofDeclarations_exact_of_wetGrass : wetGrass.Reached ∧
    (∀ v < wetGrass.size, wetGrass.SplitsEvenly v) ∧
    ∃ n, ofDeclarations wetGrass.declarations = .ok n ∧ n.parents 1 = [0] ∧
      (n.table 1).toList = [1 / 2, 1 / 2, 1 / 2, 1 / 2] := by
  have hsplits (v : Nat) (hv : v < wetGrass.size) : wetGrass.SplitsEvenly v :=
    reached_wetGrass.coherent.splitsEvenly hv
  obtain ⟨n, hok, -, hparents, htable⟩ :=
    (ofDeclarations_exact ([] : List (Declaration ℝ))).2.2 wetGrass reached_wetGrass hsplits
  have hentries : (wetGrass.table 1).toList = [1 / 2, 1 / 2, 1 / 2, 1 / 2] := by
    have huniform : wetGrass.table 1 = uniform [2, 2] := rfl
    simp [huniform, uniform, Table.ofFn, Table.toList, Table.indices, Table.size, List.range_succ,
      Scalar.ofNat]
  exact ⟨reached_wetGrass, hsplits, n, hok, hparents ▸ rfl, htable ▸ hentries⟩

end Bayes.Network
