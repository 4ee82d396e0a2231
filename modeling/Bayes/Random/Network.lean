import Bayes.Network.Edit
/-!
Random networks from a stream of draws. Edges lead from lower to higher numbers, so no draw can close
a cycle, and every row of a table is drawn evenly from the distributions on its states.
-/
namespace Bayes.Random

/-- What can be drawn from a stream: a number between two bounds, an event of some probability, and
an exponentially distributed number. -/
structure Draws (σ α : Type) where
  between (lo hi : Nat) : σ → Nat × σ
  event (p : α) : σ → Bool × σ
  exponential : σ → α × σ

structure Shape (α : Type) where
  count : Nat
  edgeProbability : α
  maxParents : Nat
  minCardinality : Nat
  maxCardinality : Nat

variable {σ α : Type} [Scalar α] (d : Draws σ α) (shape : Shape α)

def Shape.standard : Shape α where
  count := 5
  edgeProbability := 1 / Scalar.ofNat 2
  maxParents := 3
  minCardinality := 2
  maxCardinality := 2

def Shape.isHeld : Bool :=
  shape.count == 0 || Capacity.ofCollections (max shape.maxCardinality shape.minCardinality)

def clamped (p : α) : α := if Scalar.lt p 0 then 0 else if Scalar.lt 1 p then 1 else p

/-- A variable has at least two states, whatever is asked for. -/
def drawVariable (drawn : Network α × σ) (i : Nat) : Except (Error α) (Network α × σ) := do
  let lo := max shape.minCardinality 2
  let (cardinality, s) := d.between lo (max shape.maxCardinality lo) drawn.2
  return (← drawn.1.addVariableOfSize ("v" ++ toString i) cardinality, s)

/-- Nothing is drawn for a variable that has all the parents it may have. -/
def drawEdge (drawn : Network α × σ) (e : Nat × Nat) : Except (Error α) (Network α × σ) := do
  let (parent, child) := e
  if (drawn.1.parents child).length < shape.maxParents then
    let (hit, s) := d.event (clamped shape.edgeProbability) drawn.2
    if hit then return (← drawn.1.addEdge parent child, s) else return (drawn.1, s)
  else return drawn

def drawMany : Nat → σ → List α × σ
  | 0, s => ([], s)
  | count + 1, s =>
    let (x, s) := d.exponential s
    let (xs, s) := drawMany count s
    (x :: xs, s)

def rowsNormalized (t : Table α) : Table α :=
  Table.ofFn t.shape fun index =>
    t.entry index / ((List.range (t.shape.getLast?.getD 1)).map fun i =>
      t.entry (index.dropLast ++ [i])).sum

def drawTable (drawn : Network α × σ) (v : Nat) : Except (Error α) (Network α × σ) := do
  let shape := drawn.1.tableShape v
  let (xs, s) := drawMany d (Table.size shape) drawn.2
  match Table.ofList? shape xs with
  | none => return (drawn.1, s)
  | some t => return (← drawn.1.setTable v (rowsNormalized t), s)

/-- First all cardinalities are drawn, then all edges, then all tables. -/
def network (s : σ) : Except (Error α) (Network α) := do
  let vs := List.range shape.count
  let drawn ← vs.foldlM (drawVariable d shape) (Network.empty, s)
  let drawn ← (vs.flatMap fun child => (List.range child).map fun parent => (parent, child)).foldlM
    (drawEdge d shape) drawn
  return (← vs.foldlM (drawTable d) drawn).1

end Bayes.Random
