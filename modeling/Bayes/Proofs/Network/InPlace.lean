import Bayes.Proofs.Call
import Bayes.Proofs.Network
/-!
Editing a network in place, one list or table after the other. Every edit looks at all that it is given
before it writes anything, so one that fails leaves the network as it was, and what edits keep holds
after any calls, failed ones among them.
-/
namespace Bayes.Network
open Call

variable {α : Type} [Scalar α] {n n' : Network α}

/-! The edits, with every store of its own -/

def withParent (n : Network α) (p c : Nat) : Network α :=
  ⟨n.nodes.modify c fun node => { node with parents := node.parents ++ [p] }⟩

def withChild (n : Network α) (p c : Nat) : Network α :=
  ⟨n.nodes.modify p fun node => { node with children := node.children ++ [c] }⟩

def addVariableInPlace (name : String) (states : List String) : Call α (Network α) Unit := do
  check fun n => if (n.idOf? name).isSome then .error (.duplicateVariable name) else .ok ()
  let distinct := states.eraseDups.length
  check fun _ =>
    if states.length < 2 || distinct ≠ states.length then .error (.invalidCardinality name distinct)
    else .ok ()
  write fun n => ((), ⟨n.nodes.push ⟨⟨name, states⟩, [], [], uniform [states.length]⟩⟩)

/-- An edge that is there already is left at once. Between the stores parents, children and tables do
not belong together. -/
def addEdgeInPlace (p c : Nat) : Call α (Network α) Unit := do
  let above ← check (·.lookup p)
  let below ← check (·.lookup c)
  if below.parents.contains p then return ()
  else
    check fun n =>
      if p = c || n.reaches c p then .error (.cyclicNetwork above.name below.name) else .ok ()
    write fun n => ((), n.withParent p c)
    write fun n => ((), n.withChild p c)
    write fun n => ((), n.withTable c (uniform (n.tableShape c)))

def setTableInPlace (v : Nat) (t : Table α) : Call α (Network α) Unit := do
  check (·.checkTable v t)
  write fun n => ((), n.withTable v t)

def setValuesInPlace (v : Nat) (values : List α) : Call α (Network α) Unit := do
  let node ← check (·.lookup v)
  let shape ← read (·.tableShape v)
  let table ← check fun _ =>
    match Table.ofList? shape values with
    | none => .error (.tableShapeMismatch node.name shape [values.length])
    | some table => .ok table
  setTableInPlace v table

def editInPlace : Edit α → Call α (Network α) Unit
  | .addVariable name states => addVariableInPlace name states
  | .addVariableOfSize name cardinality =>
    addVariableInPlace name ((List.range cardinality).map fun i => "s" ++ toString i)
  | .addEdge parent child => addEdgeInPlace parent child
  | .setTable v table => setTableInPlace v table
  | .setValues v values => setValuesInPlace v values

def edited (f : Network α → Except (Error α) (Network α)) : Call α (Network α) Unit :=
  whole fun n => (f n).map ((), ·)

/-! Each of them is a whole -/

theorem addVariableInPlace_eq (name : String) (states : List String) :
    addVariableInPlace (α := α) name states = edited (·.addVariable name states) := by
  simp only [addVariableInPlace, write_eq_whole, check_bind]
  refine congrArg whole (funext fun n => ?_)
  simp only [addVariable]
  split
  · rfl
  · split <;> rfl

theorem addEdgeInPlace_eq (p c : Nat) : addEdgeInPlace (α := α) p c = edited (·.addEdge p c) := by
  -- nothing can fail between the stores, so together they are one
  simp only [addEdgeInPlace, pure_eq_write, write_bind]
  simp only [write_eq_whole, check_bind, ← apply_ite whole]
  refine congrArg whole (funext fun n => ?_)
  simp only [addEdge]
  cases n.lookup p with
  | error e => rfl
  | ok above =>
    cases n.lookup c with
    | error e => rfl
    | ok below =>
      simp only [bind, Except.bind]
      by_cases hold : below.parents.contains p
      · simp only [if_pos hold, Except.map]
      · simp only [if_neg hold]
        by_cases hcycle : decide (p = c) || n.reaches c p
        · simp only [if_pos hcycle, Except.map]
        · simp only [if_neg hcycle]
          rfl

theorem setTableInPlace_eq (v : Nat) (t : Table α) :
    setTableInPlace v t = edited (·.setTable v t) := by
  simp only [setTableInPlace, write_eq_whole, check_bind]
  refine congrArg whole (funext fun n => ?_)
  simp only [setTable]
  cases n.checkTable v t <;> rfl

theorem setValuesInPlace_eq (v : Nat) (values : List α) :
    setValuesInPlace v values = edited (·.setValues v values) := by
  simp only [setValuesInPlace, setTableInPlace_eq, edited, check_bind, read_bind]
  refine congrArg whole (funext fun n => ?_)
  simp only [setValues]
  cases n.lookup v with
  | error e => rfl
  | ok node => cases Table.ofList? (n.tableShape v) values <;> rfl

theorem editInPlace_eq (u : Edit α) : editInPlace u = edited (·.edit u) := by
  cases u with
  | addVariable name states => exact addVariableInPlace_eq name states
  | addVariableOfSize name cardinality => exact addVariableInPlace_eq name _
  | addEdge parent child => exact addEdgeInPlace_eq parent child
  | setTable v table => exact setTableInPlace_eq v table
  | setValues v values => exact setValuesInPlace_eq v values

theorem editInPlace_apply (u : Edit α) (n : Network α) :
    editInPlace u n = match n.edit u with
      | .ok n' => .ok () n'
      | .error e => .error e n := by
  rw [editInPlace_eq, edited, whole]
  cases n.edit u <;> rfl

/-! Any calls -/

/-- The networks that calls lead to, whatever they are given and whether they succeed or fail. -/
inductive Reached : Network α → Prop
  | empty : Reached .empty
  | call {n : Network α} (h : Reached n) (u : Edit α) : Reached ((editInPlace u).after n)

theorem Reached.calls (h : n.Reached) (us : List (Edit α)) :
    Reached (us.foldl (fun n u => (editInPlace u).after n) n) := by
  induction us generalizing n with
  | nil => exact h
  | cons u us ih => exact ih (h.call u)

theorem Reached.coherent (h : n.Reached) : n.Coherent := by
  induction h with
  | empty => exact coherent_empty
  | @call n h u ih =>
    rw [after, editInPlace_apply]
    cases hok : n.edit u with
    | ok n' => exact ih.edit hok
    | error e => exact ih

/-- What a reader of a network counts on. -/
structure Consistent (n : Network α) : Prop where
  names : (n.vars.map (·.name)).Nodup
  states : ∀ x ∈ n.vars, 2 ≤ x.states.length ∧ x.states.Nodup
  children_iff : ∀ p c, p ∈ n.parents c ↔ c ∈ n.children p
  once : ∀ v, (n.parents v).Nodup ∧ (n.children v).Nodup
  known : ∀ p c, p ∈ n.parents c → p < n.size ∧ c < n.size
  acyclic : Acyclic fun p c => p ∈ n.parents c
  shape : ∀ v < n.size, (n.table v).shape = (n.parents v).map n.cardinality ++ [n.cardinality v]
  conditional : ∀ v < n.size, n.SplitsEvenly v → Conditional (n.table v).toList (n.table v).rows

/-- Every network that calls lead to is consistent, and a call that fails leaves it as it was. -/
theorem Reached.consistent (h : n.Reached) : n.Consistent ∧
    ∀ u, editInPlace u n = match n.edit u with
      | .ok n' => .ok () n'
      | .error e => .error e n := by
  have hn := h.coherent
  refine ⟨⟨hn.named, hn.states, fun p c => (hn.linked p c).symm,
    fun v => ⟨hn.nodup_parents v, hn.nodup_children v⟩, fun _ _ => hn.linked.known,
    hn.ranked.acyclic, fun v hv => ?_, fun v => hn.conditional⟩, fun u => editInPlace_apply u n⟩
  rw [(hn.fills v hv).shape_eq, tableShape_eq hv, List.map_append, List.map_singleton]

noncomputable def wetGrass : Network ℝ :=
  [.addVariable "rain" ["no", "yes"], .addVariable "grass" ["dry", "wet"], .addEdge 0 1,
    .addEdge 1 0].foldl (fun n u => (editInPlace u).after n) .empty

theorem reached_wetGrass : wetGrass.Reached := Reached.empty.calls _

theorem Reached.consistent_of_wetGrass : wetGrass.Reached ∧ wetGrass.parents 1 = [0] ∧
    (∀ row ∈ (wetGrass.table 1).rows, |row.sum - 1| ≤ 1 / 10 ^ 6) ∧
    editInPlace (.addEdge 1 0) wetGrass = .error (.cyclicNetwork "grass" "rain") wetGrass := by
  obtain ⟨hconsistent, hcalls⟩ := reached_wetGrass.consistent
  have hsplits := reached_wetGrass.coherent.splitsEvenly (v := 1) Nat.one_lt_two
  refine ⟨reached_wetGrass, rfl, ?_, hcalls (.addEdge 1 0)⟩
  exact (conditional_real.1 (hconsistent.conditional 1 Nat.one_lt_two hsplits)).2

end Bayes.Network
