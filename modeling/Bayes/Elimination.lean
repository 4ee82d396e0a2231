import Bayes.Graph
/-!
The elimination game: a vertex is taken away after its neighbours have been joined to each other. At
every step the vertex that needs the fewest new edges goes first, then the one with the smallest
clique, then the lowest one. The keys of the remaining vertices are kept in an increasing queue, and
a step renews only those of the neighbours and of their neighbours.
-/
namespace Bayes.Elimination

structure Key where
  fillIn : Nat
  cliqueSize : Nat
  vertex : Nat
deriving DecidableEq

def Key.before (a b : Key) : Bool :=
  a.fillIn < b.fillIn ||
    (a.fillIn == b.fillIn && (a.cliqueSize < b.cliqueSize ||
      (a.cliqueSize == b.cliqueSize && a.vertex < b.vertex)))

def missing (g : Graph) (v : Nat) : List (Nat × Nat) :=
  (Scope.pairs (g.neighbors v)).filter fun e => !g.hasEdge e.1 e.2

def key (g : Graph) (v : Nat) : Key := ⟨(missing g v).length, g.degree v + 1, v⟩

def eliminate (g : Graph) (v : Nat) : Graph := (g.addEdges (missing g v)).isolate v

structure Step where
  vertex : Nat
  later : List Nat
  added : List (Nat × Nat)

structure Game where
  graph : Graph
  keys : Array Key
  queue : List Key

def enqueue (k : Key) : List Key → List Key
  | [] => [k]
  | l :: queue => if k.before l then k :: l :: queue else l :: enqueue k queue

namespace Game

def start (g : Graph) : Game :=
  let keys := g.vertices.map (key g)
  ⟨g, keys.toArray, keys.foldr enqueue []⟩

def renew (game : Game) (v : Nat) : Game :=
  let fresh := key game.graph v
  let queue := match game.keys[v]? with
    | some old => game.queue.erase old
    | none => game.queue
  ⟨game.graph, game.keys.setIfInBounds v fresh, enqueue fresh queue⟩

/-- The vertices whose neighbourhood a step may have changed. -/
def touched (g : Graph) (later : List Nat) : List Nat :=
  Scope.ofList (later ++ later.flatMap g.neighbors)

def next? (game : Game) : Option (Step × Game) :=
  match game.queue with
  | [] => none
  | k :: queue =>
    let v := k.vertex
    let later := game.graph.neighbors v
    let graph := eliminate game.graph v
    some (⟨v, later, missing game.graph v⟩,
      (touched graph later).foldl renew ⟨graph, game.keys, queue⟩)

def play : Nat → Game → List Step
  | 0, _ => []
  | rounds + 1, game =>
    match game.next? with
    | none => []
    | some (step, game) => step :: play rounds game

end Game

def steps (g : Graph) : List Step := (Game.start g).play g.size

end Bayes.Elimination
