import Mathlib.Data.List.Nodup
import Bayes.Proofs.Network.Parts
import Bayes.Proofs.Table
/-!
What an edit that succeeds does to a network. A table is checked before it is set, a new variable gets a
name that no other one has, and an edge goes between two variables and closes no cycle. Nothing renames
a variable, so the names stay different.
-/
namespace Bayes.Network

variable {α : Type} {n n' : Network α}

section Edits

variable [Scalar α]

/-- A table that may be set for a variable: it has the shape of the family, its entries are
probabilities, and so are the sums of its rows, up to rounding one. -/
structure Takes (n : Network α) (v : Nat) (t : Table α) : Prop where
  lt : v < n.size
  shape : t.shape = n.tableShape v
  isProbability : ∀ x ∈ t.toList, isProbability x = true
  isNormalized : ∀ row ∈ t.rows, isNormalized row.sum = true

structure Joins (n : Network α) (p c : Nat) : Prop where
  parent_lt : p < n.size
  child_lt : c < n.size
  ne : p ≠ c
  new : p ∉ n.parents c
  acyclic : n.reaches c p = false

theorem takes_of_checkTable {v : Nat} {t : Table α} (hok : n.checkTable v t = .ok ()) : n.Takes v t := by
  rw [checkTable] at hok
  cases hlookup : n.lookup v with
  | error e => simp [hlookup] at hok
  | ok node =>
    cases hfault : fault? node.name (n.tableShape v) t with
    | some e => simp [hlookup, hfault] at hok
    | none =>
      rw [fault?] at hfault
      by_cases hshape : t.shape = n.tableShape v
      · rw [if_neg (not_not_intro hshape)] at hfault
        cases hfind : t.toList.find? fun x => !Network.isProbability x with
        | some e => simp [hfind] at hfault
        | none =>
          simp only [hfind, Option.map_eq_none_iff, List.find?_eq_none] at hfault
          refine ⟨lt_of_node? (lookup_ok hlookup), hshape, fun x hx => ?_, fun row hrow => ?_⟩
          · simpa using List.find?_eq_none.1 hfind x hx
          · obtain ⟨i, hi, hget⟩ := List.getElem_of_mem (List.mem_map_of_mem (f := List.sum) hrow)
            have hmem : (row.sum, i) ∈ (t.rows.map List.sum).zipIdx :=
              List.mem_zipIdx_iff_getElem?.2 (List.getElem?_eq_some_iff.2 ⟨hi, hget⟩)
            simpa using hfault _ hmem
      · rw [if_pos hshape] at hfault
        simp at hfault

theorem setTable_eq {v : Nat} {t : Table α} (hok : n.setTable v t = .ok n') :
    n.Takes v t ∧ n' = n.withTable v t := by
  obtain ⟨_, hcheck, rfl⟩ := map_eq_ok.1 hok
  exact ⟨takes_of_checkTable hcheck, rfl⟩

theorem setValues_eq {v : Nat} {values : List α} (hok : n.setValues v values = .ok n') :
    ∃ t, t.toList = values ∧ n.Takes v t ∧ n' = n.withTable v t := by
  rw [setValues] at hok
  cases hlookup : n.lookup v with
  | error e => simp [hlookup] at hok
  | ok node =>
    cases htable : Table.ofList? (n.tableShape v) values with
    | none => simp [hlookup, htable] at hok
    | some t =>
      rw [hlookup, htable] at hok
      exact ⟨t, (Table.ofList?_eq_some.1 htable).2, setTable_eq hok⟩

theorem addVariable_eq {name : String} {states : List String}
    (hok : n.addVariable name states = .ok n') :
    n.idOf? name = none ∧ 2 ≤ states.length ∧ states.eraseDups.length = states.length ∧
      n' = ⟨n.nodes.push ⟨⟨name, states⟩, [], [], uniform [states.length]⟩⟩ := by
  rw [addVariable] at hok
  split at hok
  · cases hok
  · next hname =>
    split at hok
    · cases hok
    · next hstates =>
      cases hok
      simp only [Bool.or_eq_true, decide_eq_true_eq, not_or, Nat.not_lt, not_not] at hstates
      exact ⟨by simpa using hname, hstates.1, hstates.2, rfl⟩

theorem addEdge_eq {p c : Nat} (hok : n.addEdge p c = .ok n') :
    p ∈ n.parents c ∧ n' = n ∨ n.Joins p c ∧ n' = n.attach p c := by
  rw [addEdge] at hok
  cases hp : n.lookup p with
  | error e => simp [hp] at hok
  | ok above =>
    cases hc : n.lookup c with
    | error e => simp [hp, hc] at hok
    | ok below =>
      have hbelow : below.parents = n.parents c := by simp [parents, lookup_ok hc]
      rw [hp, hc] at hok
      simp only [hbelow] at hok
      split at hok
      · next hold => exact Or.inl ⟨List.contains_iff_mem.1 hold, (Except.ok.inj hok).symm⟩
      · next hnew =>
        split at hok
        · cases hok
        · next hcycle =>
          simp only [Bool.or_eq_true, decide_eq_true_eq, not_or, Bool.not_eq_true] at hcycle
          refine Or.inr ⟨⟨lt_of_node? (lookup_ok hp), lt_of_node? (lookup_ok hc), hcycle.1, ?_,
            hcycle.2⟩, (Except.ok.inj hok).symm⟩
          simpa using hnew

/-- Every edit sets a table, adds a variable with a new name and without parents, adds a variable to the
parents of another one, or changes nothing. -/
theorem edit_cases {u : Edit α} (hok : n.edit u = .ok n') :
    (∃ v t, n.Takes v t ∧ n' = n.withTable v t) ∨
    (∃ name states, n.idOf? name = none ∧ 2 ≤ states.length ∧
      states.eraseDups.length = states.length ∧
      n' = ⟨n.nodes.push ⟨⟨name, states⟩, [], [], uniform [states.length]⟩⟩) ∨
    (∃ p c, n.Joins p c ∧ n' = n.attach p c) ∨ n' = n := by
  cases u with
  | addVariable name states => exact Or.inr (Or.inl ⟨name, states, addVariable_eq hok⟩)
  | addVariableOfSize name cardinality => exact Or.inr (Or.inl ⟨name, _, addVariable_eq hok⟩)
  | addEdge parent child =>
    obtain h | h := addEdge_eq hok
    · exact Or.inr (Or.inr (Or.inr h.2))
    · exact Or.inr (Or.inr (Or.inl ⟨parent, child, h⟩))
  | setTable v table => exact Or.inl ⟨v, table, setTable_eq hok⟩
  | setValues v values =>
    obtain ⟨t, -, h⟩ := setValues_eq hok
    exact Or.inl ⟨v, t, h⟩

/-! What may be done is done -/

theorem setTable_of_takes {v : Nat} {t : Table α} (h : n.Takes v t) :
    n.setTable v t = .ok (n.withTable v t) := by
  obtain ⟨node, hnode⟩ := Option.isSome_iff_exists.1 (node?_isSome.2 h.lt)
  have hentries : t.toList.find? (fun x => !Network.isProbability x) = none :=
    List.find?_eq_none.2 fun x hx => by simp [h.isProbability x hx]
  have hrows : (t.rows.map List.sum).zipIdx.find? (fun e => !Network.isNormalized e.1) = none := by
    refine List.find?_eq_none.2 fun e he => ?_
    obtain ⟨row, hrow, hsum⟩ := List.mem_map.1 (List.fst_mem_of_mem_zipIdx he)
    simp [← hsum, h.isNormalized row hrow]
  simp [setTable, checkTable, lookup, hnode, fault?, h.shape, hentries, hrows, Except.map]

theorem setValues_of_takes {v : Nat} {t : Table α} (h : n.Takes v t) :
    n.setValues v t.toList = .ok (n.withTable v t) := by
  obtain ⟨node, hnode⟩ := Option.isSome_iff_exists.1 (node?_isSome.2 h.lt)
  have htable : Table.ofList? (n.tableShape v) t.toList = some t :=
    Table.ofList?_eq_some.2 ⟨h.shape, rfl⟩
  rw [setValues, lookup, hnode]
  simp only [htable]
  exact setTable_of_takes h

theorem addVariable_of_new {name : String} {states : List String} (hname : n.idOf? name = none)
    (hcount : 2 ≤ states.length) (hdistinct : states.eraseDups.length = states.length) :
    n.addVariable name states =
      .ok ⟨n.nodes.push ⟨⟨name, states⟩, [], [], uniform [states.length]⟩⟩ := by
  simp [addVariable, hname, hdistinct, Nat.not_lt.2 hcount]

theorem addEdge_of_mem {p c : Nat} (hp : p < n.size) (h : p ∈ n.parents c) : n.addEdge p c = .ok n := by
  obtain ⟨above, habove⟩ := Option.isSome_iff_exists.1 (node?_isSome.2 hp)
  cases hbelow : n.node? c with
  | none => simp [parents, hbelow] at h
  | some below =>
    have hold : p ∈ below.parents := by simpa [parents, hbelow] using h
    simp [addEdge, lookup, habove, hbelow, hold]

theorem addEdge_of_joins {p c : Nat} (h : n.Joins p c) : n.addEdge p c = .ok (n.attach p c) := by
  obtain ⟨above, habove⟩ := Option.isSome_iff_exists.1 (node?_isSome.2 h.parent_lt)
  obtain ⟨below, hbelow⟩ := Option.isSome_iff_exists.1 (node?_isSome.2 h.child_lt)
  have hnew : p ∉ below.parents := by simpa [parents, hbelow] using h.new
  simp [addEdge, lookup, habove, hbelow, hnew, h.ne, h.acyclic]

end Edits

/-! Names -/

def names (n : Network α) : List String := n.vars.map (·.name)

theorem length_names (n : Network α) : n.names.length = n.size := by simp [names, vars, size]

theorem names_of_vars_eq {m : Network α} (h : m.vars = n.vars) : m.names = n.names := by
  rw [names, h, names]

def Named (n : Network α) : Prop := (n.vars.map (·.name)).Nodup

theorem Named.eq_of_name (h : n.Named) {v w : Nat} {x y : Variable} (hx : n.vars[v]? = some x)
    (hy : n.vars[w]? = some y) (hname : x.name = y.name) : v = w := by
  have hx' : (n.vars.map (·.name))[v]? = some x.name := by simp [hx]
  have hy' : (n.vars.map (·.name))[w]? = some x.name := by simp [hy, hname]
  exact (List.getElem?_inj (List.getElem?_eq_some_iff.1 hx').1 h).1 (hx'.trans hy'.symm)

theorem idOf?_eq_none {name : String} : n.idOf? name = none ↔ name ∉ n.vars.map (·.name) := by
  simp [idOf?, vars, List.findIdx?_eq_none_iff]

theorem idOf?_eq (n : Network α) (name : String) :
    n.idOf? name = if name ∈ n.names then some (n.names.idxOf name) else none := by
  have hfind : n.idOf? name = n.names.findIdx? (· == name) := by
    simp [idOf?, names, vars, List.findIdx?_map, Function.comp_def]
  split
  · next hmem =>
    exact hfind.trans (List.findIdx?_eq_some_of_exists ⟨name, hmem, beq_self_eq_true name⟩)
  · next hnot => exact idOf?_eq_none.2 hnot

theorem lookupName_eq_ok {name : String} {v : Nat} :
    n.lookupName name = .ok v ↔ name ∈ n.names ∧ v = n.names.idxOf name := by
  rw [lookupName, idOf?_eq]
  by_cases h : name ∈ n.names <;> simp [h, eq_comm]

theorem Named.edit [Scalar α] (h : n.Named) {u : Edit α} (hok : n.edit u = .ok n') : n'.Named := by
  obtain ⟨v, t, -, rfl⟩ | ⟨name, states, hname, -, -, rfl⟩ | ⟨p, c, -, rfl⟩ | rfl := edit_cases hok
  · rwa [Named, vars_withTable]
  · rw [Named, vars_push, List.map_append]
    refine List.nodup_append.2 ⟨h, List.nodup_singleton _, fun a ha b hb hab => ?_⟩
    have hb : b = name := List.mem_singleton.1 hb
    exact idOf?_eq_none.1 hname (hb ▸ hab ▸ ha)
  · rwa [Named, vars_attach]
  · exact h

end Bayes.Network
