import Bayes.Proofs.Network.InPlace
import Bayes.Proofs.Network.Rounds
/-!
Which declarations are accepted, and what is built of them. Valid is a list whatever the order of its
declarations and of the parents in them; and a network can be declared again as it is.
-/
namespace Bayes.Network

variable {α : Type} {n n' : Network α} {ds : List (Declaration α)} {d : Declaration α}
  {name : String} {v : Nat}

def position (ds : List (Declaration α)) (name : String) : Nat := (ds.map (·.name)).idxOf name

def statesOf (ds : List (Declaration α)) (name : String) : Nat :=
  ((ds.find? (·.name == name)).map (·.states.length)).getD 0

def Listed (ds : List (Declaration α)) (p c : String) : Prop := ∃ d ∈ ds, d.name = c ∧ p ∈ d.parents

/-! Places -/

theorem position_of_getElem? (h : (ds.map (·.name)).Nodup) (hd : ds[v]? = some d) :
    position ds d.name = v := by
  obtain ⟨hv, rfl⟩ := List.getElem?_eq_some_iff.1 hd
  have hposition := h.idxOf_getElem v (by simpa using hv)
  rwa [List.getElem_map] at hposition

theorem getElem?_position (hd : d ∈ ds) (h : (ds.map (·.name)).Nodup) :
    ds[position ds d.name]? = some d := by
  obtain ⟨v, hv, rfl⟩ := List.getElem_of_mem hd
  rw [position_of_getElem? h (List.getElem?_eq_getElem hv), List.getElem?_eq_getElem hv]

theorem statesOf_eq (ds : List (Declaration α)) (name : String) :
    statesOf ds name = (ds[position ds name]?.map (·.states.length)).getD 0 := by
  have hposition : position ds name = ds.findIdx (·.name == name) := List.findIdx_map ds _ _
  rw [statesOf, List.find?_eq_getElem?_findIdx, hposition]

theorem names_of_vars (h : n.vars = ds.map (·.toVariable)) : n.names = ds.map (·.name) := by
  simp [names, h]

theorem variable_of_declaration (h : n.vars = ds.map (·.toVariable)) (hd : ds[v]? = some d) :
    v < n.size ∧ n.cardinality v = d.states.length := by
  have hv : n.vars[v]? = some d.toVariable := by rw [h, List.getElem?_map, hd, Option.map_some]
  exact ⟨lt_of_vars hv, by rw [cardinality_eq, hv]; rfl⟩

theorem cardinality_position (h : n.vars = ds.map (·.toVariable)) (name : String) :
    n.cardinality (position ds name) = statesOf ds name := by
  rw [cardinality_eq, h, List.getElem?_map, Option.map_map, statesOf_eq]
  rfl

theorem mem_edgesOf {p c : Nat} : (p, c) ∈ ds.flatMap (edgesOf (ds.map (·.name))) ↔
    ∃ d ∈ ds, ∃ q ∈ d.parents, position ds q = p ∧ position ds d.name = c := by
  simp [edgesOf, position]

theorem position_lt : position ds name < ds.length ↔ ∃ e ∈ ds, e.name = name := by
  rw [position, ← List.length_map (·.name), List.idxOf_lt_length_iff, List.mem_map]

theorem position_injOn {p q : String} (hp : ∃ e ∈ ds, e.name = p) (h : position ds p = position ds q) :
    p = q :=
  (List.idxOf_inj (List.mem_map.2 hp)).1 h

theorem edgesOf_lt_iff : (∀ e ∈ ds.flatMap (edgesOf (ds.map (·.name))),
    e.1 < ds.length ∧ e.2 < ds.length) ↔ ∀ d ∈ ds, ∀ p ∈ d.parents, ∃ e ∈ ds, e.name = p := by
  constructor
  · intro h d hd p hp
    have hedge := mem_edgesOf.2 ⟨d, hd, p, hp, rfl, rfl⟩
    exact position_lt.1 (h (position ds p, position ds d.name) hedge).1
  · rintro h ⟨p, c⟩ hmem
    obtain ⟨d, hd, q, hq, rfl, rfl⟩ := mem_edgesOf.1 hmem
    exact ⟨position_lt.2 (h d hd q hq), position_lt.2 ⟨d, hd, rfl⟩⟩

theorem Acyclic.comap {β γ : Type} {edge : β → β → Prop} {edge' : γ → γ → Prop} (f : β → γ)
    (h : Acyclic edge') (hf : ∀ x y, edge x y → edge' (f x) (f y)) : Acyclic edge :=
  fun x hcycle => h (f x) (hcycle.lift f hf)

/-- The edges between positions close a cycle just when those between names do. -/
theorem acyclic_edgesOf_iff (hparents : ∀ d ∈ ds, ∀ p ∈ d.parents, ∃ e ∈ ds, e.name = p) :
    (Acyclic fun p c => (p, c) ∈ ds.flatMap (edgesOf (ds.map (·.name)))) ↔ Acyclic (Listed ds) := by
  simp only [mem_edgesOf]
  constructor
  · intro h
    refine h.comap (position ds) fun p c hedge => ?_
    obtain ⟨d, hd, rfl, hp⟩ := hedge
    exact ⟨d, hd, p, hp, rfl, rfl⟩
  · intro h
    -- both ends of an edge are positions of declared names, so they can be named
    have hname {name : String} (hdeclared : ∃ e ∈ ds, e.name = name) :
        (ds.map (·.name))[position ds name]?.getD "" = name := by
      have hlt := List.idxOf_lt_length_of_mem (List.mem_map.2 hdeclared)
      rw [position, List.getElem?_eq_getElem hlt, List.getElem_idxOf, Option.getD_some]
    refine h.comap (fun v => (ds.map (·.name))[v]?.getD "") fun p c hedge => ?_
    obtain ⟨d, hd, q, hq, rfl, rfl⟩ := hedge
    rw [hname ⟨d, hd, rfl⟩, hname (hparents d hd q hq)]
    exact ⟨d, hd, rfl, hq⟩

variable [Scalar α]

/-- Names and states are distinct, parents are declared, no way along parents leads back, and values are
the entries of a conditional table with the declared parents, each counted once, as its axes. -/
structure Valid (ds : List (Declaration α)) : Prop where
  names : (ds.map (·.name)).Nodup
  states : ∀ d ∈ ds, 2 ≤ d.states.length ∧ d.states.Nodup
  parents : ∀ d ∈ ds, ∀ p ∈ d.parents, ∃ e ∈ ds, e.name = p
  acyclic : Acyclic (Listed ds)
  values : ∀ d ∈ ds, ∀ values, d.values = some values →
    values.length = (d.parents.eraseDups.map (statesOf ds)).prod * d.states.length ∧
    Conditional values (Table.runs d.states.length values)

/-- The variables are those declared, in the same order; the parents of each are those listed, in their
order, each of them once; and its table has the entries that are given, or is uniform. -/
structure Describes (ds : List (Declaration α)) (n : Network α) : Prop where
  vars : n.vars = ds.map (·.toVariable)
  parents : ∀ v d, ds[v]? = some d → n.parents v = d.parents.eraseDups.map (position ds)
  shape : ∀ v < n.size, (n.table v).shape = n.tableShape v
  given : ∀ v d values, ds[v]? = some d → d.values = some values → (n.table v).toList = values
  uniform : ∀ v d, ds[v]? = some d → d.values = none → n.table v = uniform (n.tableShape v)

theorem size_tableShape (h : n.vars = ds.map (·.toVariable)) (hd : ds[v]? = some d)
    (hparents : n.parents v = d.parents.eraseDups.map (position ds)) :
    Table.size (n.tableShape v) = (d.parents.eraseDups.map (statesOf ds)).prod * d.states.length := by
  obtain ⟨hv, hcard⟩ := variable_of_declaration h hd
  have hscope : d.parents.eraseDups.map (n.cardinality ∘ position ds) =
      d.parents.eraseDups.map (statesOf ds) :=
    List.map_congr_left fun p _ => cardinality_position h p
  rw [tableShape_eq hv, List.map_append, List.map_singleton, Table.size_concat, hparents, List.map_map,
    hscope, hcard, Table.size, List.prod_eq_foldr]

theorem Coherent.rows_eq (h : n.Coherent) (hv : v < n.size) {t : Table α}
    (hshape : t.shape = n.tableShape v) : t.rows = Table.runs (n.cardinality v) t.toList := by
  rw [tableShape_eq hv, List.map_append, List.map_singleton] at hshape
  exact Table.rows_eq_runs (Nat.zero_lt_of_lt (h.two_le_cardinality hv)) hshape

theorem Coherent.exists_takes_iff (h : n.Coherent) (hv : v < n.size) {values : List α} :
    (∃ t : Table α, t.toList = values ∧ n.Takes v t) ↔
      values.length = Table.size (n.tableShape v) ∧
        Conditional values (Table.runs (n.cardinality v) values) := by
  constructor
  · rintro ⟨t, rfl, ht⟩
    obtain ⟨-, hshape, hconditional⟩ := takes_iff.1 ht
    rw [← h.rows_eq hv hshape, t.length_toList, hshape]
    exact ⟨rfl, hconditional⟩
  · rintro ⟨hlength, hconditional⟩
    have ht : Table.ofList? (n.tableShape v) values = some ⟨n.tableShape v, values.toArray, by simpa⟩ :=
      dif_pos hlength
    obtain ⟨hshape, hlist⟩ := Table.ofList?_eq_some.1 ht
    refine ⟨_, hlist, takes_iff.2 ⟨hv, hshape, ?_⟩⟩
    rwa [h.rows_eq hv hshape, hlist]

/-! The first two rounds -/

theorem coherent_declared (hnames : (ds.map (·.name)).Nodup)
    (hstates : ∀ d ∈ ds, 2 ≤ d.states.length ∧ d.states.Nodup) : (declared ds).Coherent :=
  foldlM_invariant Coherent (fun _ d _ hm hok => hm.edit (u := .addVariable d.name d.states) hok) ds
    empty (declared ds) coherent_empty (declareVariables_empty.2 ⟨hnames, hstates, rfl⟩)

structure Wired (ds : List (Declaration α)) (n : Network α) : Prop where
  coherent : n.Coherent
  vars : n.vars = ds.map (·.toVariable)
  blank : n.Blank
  parents : ∀ v d, ds[v]? = some d → n.parents v = d.parents.eraseDups.map (position ds)

theorem size_declared (ds : List (Declaration α)) : (declared ds).size = ds.length := by
  simp [declared, size]

theorem declareAllParents_isOk (h : (declared ds).Coherent) :
    (∃ n, ds.foldlM declareParents (declared ds) = .ok n) ↔
      (∀ d ∈ ds, ∀ p ∈ d.parents, ∃ e ∈ ds, e.name = p) ∧ Acyclic (Listed ds) := by
  have hnames (d : Declaration α) (hd : d ∈ ds) : d.name ∈ (declared ds).names :=
    names_declared ds ▸ List.mem_map_of_mem hd
  simp only [declareAllParents_eq_ok hnames, addEdges_isOk h, names_declared, parents_declared,
    List.not_mem_nil, false_or, size_declared, edgesOf_lt_iff]
  exact and_congr_right acyclic_edgesOf_iff

theorem wired_of_declareAllParents (h : (declared ds).Coherent)
    (hok : ds.foldlM declareParents (declared ds) = .ok n) : Wired ds n := by
  have hnames := names_declared ds
  have hedges := (declareAllParents_eq_ok fun d hd => hnames ▸ List.mem_map_of_mem hd).1 hok
  refine ⟨h.addEdges hedges, (vars_addEdges hedges).trans (vars_declared ds),
    (blank_declared ds).addEdges hedges, fun v d hd => ?_⟩
  have hmem := List.mem_of_getElem? hd
  have hdeclared := ((declareAllParents_isOk h).1 ⟨n, hok⟩).1 d hmem
  have hparents := parents_declareAllParents h hnames hok d hmem
  rw [hnames, parents_declared, List.nil_append] at hparents
  have hposition : (ds.map (·.name)).idxOf d.name = v :=
    position_of_getElem? (hnames ▸ h.named) hd
  rw [hposition] at hparents
  exact hparents.trans
    (eraseDups_map (position ds) d.parents fun p hp q _ heq => position_injOn (hdeclared p hp) heq)

/-! All rounds -/

theorem ofDeclarations_eq_ok : ofDeclarations ds = .ok n' ↔
    ((ds.map (·.name)).Nodup ∧ ∀ d ∈ ds, 2 ≤ d.states.length ∧ d.states.Nodup) ∧
    ∃ n, ds.foldlM declareParents (declared ds) = .ok n ∧ ds.foldlM declareValues n = .ok n' := by
  rw [ofDeclarations, bind_eq_ok]
  simp only [declareVariables_empty, bind_eq_ok]
  constructor
  · rintro ⟨_, ⟨hnames, hstates, rfl⟩, hrest⟩
    exact ⟨⟨hnames, hstates⟩, hrest⟩
  · rintro ⟨⟨hnames, hstates⟩, hrest⟩
    exact ⟨_, ⟨hnames, hstates, rfl⟩, hrest⟩

theorem Wired.declareAllValues_isOk (h : Wired ds n) :
    (∃ n', ds.foldlM declareValues n = .ok n') ↔ ∀ d ∈ ds, ∀ values, d.values = some values →
      values.length = (d.parents.eraseDups.map (statesOf ds)).prod * d.states.length ∧
      Conditional values (Table.runs d.states.length values) := by
  have hnames := names_of_vars h.vars
  rw [Network.declareAllValues_isOk hnames]
  refine forall₄_congr fun d hd values _ => ?_
  have hd := getElem?_position hd (hnames ▸ h.coherent.named)
  obtain ⟨hv, hcard⟩ := variable_of_declaration h.vars hd
  rw [hnames, ← size_tableShape h.vars hd (h.parents _ d hd), ← hcard]
  exact h.coherent.exists_takes_iff hv

theorem ofDeclarations_isOk : (∃ n, ofDeclarations ds = .ok n) ↔ Valid ds := by
  simp only [ofDeclarations_eq_ok]
  constructor
  · rintro ⟨n', ⟨hnames, hstates⟩, n, hparents, hvalues⟩
    have hdeclared := coherent_declared hnames hstates
    obtain ⟨hknown, hacyclic⟩ := (declareAllParents_isOk hdeclared).1 ⟨n, hparents⟩
    have hwired := wired_of_declareAllParents hdeclared hparents
    exact ⟨hnames, hstates, hknown, hacyclic, hwired.declareAllValues_isOk.1 ⟨n', hvalues⟩⟩
  · intro h
    have hdeclared := coherent_declared h.names h.states
    obtain ⟨n, hparents⟩ := (declareAllParents_isOk hdeclared).2 ⟨h.parents, h.acyclic⟩
    have hwired := wired_of_declareAllParents hdeclared hparents
    obtain ⟨n', hvalues⟩ := hwired.declareAllValues_isOk.2 h.values
    exact ⟨n', ⟨h.names, h.states⟩, n, hparents, hvalues⟩

theorem describes_ofDeclarations (hok : ofDeclarations ds = .ok n') : Describes ds n' := by
  have hcoherent : n'.Coherent :=
    ofDeclarations_invariant Coherent coherent_empty (fun _ _ _ hm hok => hm.edit hok) hok
  obtain ⟨⟨hnames, hstates⟩, n, hparents, hvalues⟩ := ofDeclarations_eq_ok.1 hok
  have hwired := wired_of_declareAllParents (coherent_declared hnames hstates) hparents
  obtain ⟨hvars, hsame⟩ := declareAllValues_keeps hvalues
  have htable (v : Nat) (d : Declaration α) (hd : ds[v]? = some d) :
      (d.values = none → n'.table v = n.table v) ∧
        ∀ values, d.values = some values → (n'.table v).toList = values := by
    have hd' := table_declareAllValues hwired.coherent (names_of_vars hwired.vars) hvalues d
      (List.mem_of_getElem? hd)
    have hposition : (ds.map (·.name)).idxOf d.name = v := position_of_getElem? hnames hd
    rwa [names_of_vars hwired.vars, hposition] at hd'
  refine ⟨hvars.trans hwired.vars, fun v d hd => hsame ▸ hwired.parents v d hd,
    fun v hv => (hcoherent.fills v hv).shape_eq, fun v d values hd => (htable v d hd).2 values,
    fun v d hd hnone => ?_⟩
  have hv := (variable_of_declaration hwired.vars hd).1
  rw [(htable v d hd).1 hnone, tableShape_congr hvars hsame hv]
  exact hwired.blank v hv

end Bayes.Network
