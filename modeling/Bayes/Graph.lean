import Bayes.Scope
/-!
Simple undirected graphs on the vertices 0, 1, ... as increasing lists of neighbours. A graph is
symmetric and without loops by construction; what an operation does is said by the edges it leaves.
-/
namespace Bayes

def row (adjacency : Array (List Nat)) (v : Nat) : List Nat := adjacency[v]?.getD []

structure Graph where
  adjacency : Array (List Nat)
  symm : ∀ u v, v ∈ row adjacency u → u ∈ row adjacency v
  irrefl : ∀ v, v ∉ row adjacency v
  increasing : ∀ v, Scope.Increasing (row adjacency v)

namespace Graph

def size (g : Graph) : Nat := g.adjacency.size

def neighbors (g : Graph) (v : Nat) : List Nat := row g.adjacency v

def degree (g : Graph) (v : Nat) : Nat := (g.neighbors v).length

def hasEdge (g : Graph) (u v : Nat) : Bool := (g.neighbors u).contains v

def vertices (g : Graph) : List Nat := List.range g.size

theorem hasEdge_iff (g : Graph) (u v : Nat) : g.hasEdge u v ↔ v ∈ g.neighbors u := by
  simp [hasEdge]

theorem hasEdge_comm (g : Graph) (u v : Nat) : g.hasEdge u v = g.hasEdge v u := by
  rw [Bool.eq_iff_iff, hasEdge_iff, hasEdge_iff]
  exact ⟨g.symm u v, g.symm v u⟩

theorem hasEdge_self (g : Graph) (v : Nat) : g.hasEdge v v = false := by
  simpa [hasEdge, neighbors] using g.irrefl v

theorem lt_size_of_hasEdge {g : Graph} {u v : Nat} (h : g.hasEdge u v) : u < g.size := by
  rw [hasEdge_iff] at h
  by_cases hu : u < g.size
  · exact hu
  · have : row g.adjacency u = [] := by simp [row, Array.getElem?_eq_none (Nat.le_of_not_lt hu)]
    simp [neighbors, this] at h

def edgeless (n : Nat) : Graph where
  adjacency := Array.replicate n []
  symm u v h := by simp [row, Array.getElem?_replicate] at h; split at h <;> simp_all
  irrefl v h := by simp [row, Array.getElem?_replicate] at h; split at h <;> simp_all
  increasing v := by
    simp only [row, Array.getElem?_replicate]; split <;> exact Scope.increasing_nil

def lacksEdge (g : Graph) (u v : Nat) : Bool := u != v && !g.hasEdge u v

/-- Both ends are vertices. A loop is never added, so its ends may be any numbers. -/
def spans (g : Graph) (u v : Nat) : Bool := u == v || (u < g.size && v < g.size)

def joined (adjacency : Array (List Nat)) (u v : Nat) : Array (List Nat) :=
  (adjacency.modify u (Scope.insert v)).modify v (Scope.insert u)

theorem mem_row_joined {a : Array (List Nat)} {u v x w : Nat} (hu : u < a.size) (hv : v < a.size)
    (huv : u ≠ v) :
    w ∈ row (joined a u v) x ↔ w ∈ row a x ∨ (x = u ∧ w = v) ∨ (x = v ∧ w = u) := by
  by_cases hxu : u = x
  · subst hxu
    simp [row, joined, Array.getElem?_modify, Ne.symm huv, Array.getElem?_eq_getElem hu,
      Scope.mem_insert, huv]
    exact or_comm
  · by_cases hxv : v = x
    · subst hxv
      simp [row, joined, Array.getElem?_modify, huv, Array.getElem?_eq_getElem hv,
        Scope.mem_insert, Ne.symm huv]
      exact or_comm
    · simp [row, joined, Array.getElem?_modify, hxu, hxv, Ne.symm hxu, Ne.symm hxv]

theorem increasing_row_modify {a : Array (List Nat)} (h : ∀ x, Scope.Increasing (row a x))
    (u v x : Nat) : Scope.Increasing (row (a.modify u (Scope.insert v)) x) := by
  by_cases hx : u = x
  · subst hx
    have := h u
    cases e : a[u]? with
    | none => simpa [row, Array.getElem?_modify, e] using Scope.increasing_nil
    | some s =>
      simp only [row, e, Option.getD_some] at this
      simpa [row, Array.getElem?_modify, e] using Scope.increasing_insert this
  · simpa [row, Array.getElem?_modify, hx] using h x

/-- Loops, edges that are there and ends outside the graph change nothing. -/
def addEdge (g : Graph) (u v : Nat) : Graph :=
  if h : u ≠ v ∧ u < g.size ∧ v < g.size then
    { adjacency := joined g.adjacency u v
      symm := fun x w hw => by
        rw [mem_row_joined h.2.1 h.2.2 h.1] at hw ⊢
        have := g.symm x w
        grind
      irrefl := fun x hx => by
        rw [mem_row_joined h.2.1 h.2.2 h.1] at hx
        have := g.irrefl x
        grind
      increasing := fun x =>
        increasing_row_modify (increasing_row_modify g.increasing u v) v u x }
  else g

def addEdges (g : Graph) (edges : List (Nat × Nat)) : Graph :=
  edges.foldl (fun g e => g.addEdge e.1 e.2) g

theorem hasEdge_addEdge (g : Graph) (u v x w : Nat) :
    (g.addEdge u v).hasEdge x w ↔ g.hasEdge x w ∨
      u ≠ v ∧ u < g.size ∧ v < g.size ∧ (x = u ∧ w = v ∨ x = v ∧ w = u) := by
  unfold addEdge
  split
  · next h =>
    rw [hasEdge_iff, hasEdge_iff]
    simp only [neighbors, mem_row_joined h.2.1 h.2.2 h.1]
    grind
  · next h => grind

theorem size_addEdge (g : Graph) (u v : Nat) : (g.addEdge u v).size = g.size := by
  unfold addEdge
  split <;> simp [size, joined]

def cleared (adjacency : Array (List Nat)) (v : Nat) : Array (List Nat) :=
  (adjacency.map fun s => s.filter (· != v)).modify v fun _ => []

theorem mem_row_cleared {a : Array (List Nat)} {v x w : Nat} :
    w ∈ row (cleared a v) x ↔ w ∈ row a x ∧ x ≠ v ∧ w ≠ v := by
  by_cases hx : v = x
  · subst hx
    cases e : a[v]? <;> simp [row, cleared, Array.getElem?_modify, e]
  · cases e : a[x]? <;> simp [row, cleared, Array.getElem?_modify, hx, e, Ne.symm hx]

def isolate (g : Graph) (v : Nat) : Graph where
  adjacency := cleared g.adjacency v
  symm x w hw := by
    rw [mem_row_cleared] at hw ⊢
    exact ⟨g.symm x w hw.1, hw.2.2, hw.2.1⟩
  irrefl x hx := g.irrefl x (mem_row_cleared.1 hx).1
  increasing x := by
    by_cases hx : v = x
    · subst hx
      cases e : g.adjacency[v]? <;>
        simp [row, cleared, Array.getElem?_modify, e, Scope.increasing_nil]
    · have := g.increasing x
      cases e : g.adjacency[x]? with
      | none => simp [row, cleared, Array.getElem?_modify, hx, e, Scope.increasing_nil]
      | some s =>
        simp only [row, e, Option.getD_some] at this
        simpa [row, cleared, Array.getElem?_modify, hx, e] using this.filter _

theorem hasEdge_isolate (g : Graph) (v x w : Nat) :
    (g.isolate v).hasEdge x w ↔ g.hasEdge x w ∧ x ≠ v ∧ w ≠ v := by
  rw [hasEdge_iff, hasEdge_iff]
  exact mem_row_cleared

theorem size_isolate (g : Graph) (v : Nat) : (g.isolate v).size = g.size := by
  simp [size, isolate, cleared]

/-- Every edge once, with the lower end first, in increasing order. -/
def edges (g : Graph) : List (Nat × Nat) :=
  g.vertices.flatMap fun u => ((g.neighbors u).filter (u < ·)).map fun v => (u, v)

def edgeCount (g : Graph) : Nat := g.vertices.foldl (fun ends v => ends + g.degree v) 0 / 2

end Graph
end Bayes
