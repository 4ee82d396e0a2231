import Bayes.Proofs.Compilation
import Bayes.Proofs.Graph.Edges
import Bayes.Proofs.Network.Insertion
/-!
The moral graph. Two variables are joined in it when one is a parent of the other or both are parents of a
third, whichever child they are first met at and however often; so it follows from the parents alone, in
whatever order they became parents.
-/
namespace Bayes

namespace Graph

variable {g : Graph} {es : List (Nat × Nat)}

/-- The neighbours of an end that is no vertex can not be looked up. -/
def addEdge? (g : Graph) (u v : Nat) : Option Graph :=
  if g.spans u v then some (g.addEdge u v) else none

theorem addEdge?_eq {u v : Nat} (hu : u < g.size) (hv : v < g.size) :
    g.addEdge? u v = some (g.addEdge u v) := by
  simp [addEdge?, spans, hu, hv]

theorem addEdges_cons (e : Nat × Nat) (es : List (Nat × Nat)) (g : Graph) :
    g.addEdges (e :: es) = (g.addEdge e.1 e.2).addEdges es := rfl

theorem addEdges_append (es fs : List (Nat × Nat)) (g : Graph) :
    g.addEdges (es ++ fs) = (g.addEdges es).addEdges fs := List.foldl_append

theorem addEdges_congr {fs : List (Nat × Nat)} (h : ∀ e, e ∈ es ↔ e ∈ fs) (g : Graph) :
    g.addEdges es = g.addEdges fs := by
  refine ext_hasEdge (by rw [size_addEdges, size_addEdges]) fun u v => ?_
  simp only [hasEdge_addEdges, h]

end Graph

namespace Network

variable {α : Type} {n m : Network α} {v w c p : Nat}

/-! One edge after the other -/

def marry? (child : Nat) : List Nat → Graph → Option Graph
  | [], g => some g
  | p :: rest, g => do
    let g ← g.addEdge? p child
    let g ← rest.foldlM (·.addEdge? p) g
    marry? child rest g

def moralizeInTurn? (n : Network α) : Option Graph :=
  n.ids.foldlM (fun g child => marry? child (n.parents child) g) (Graph.edgeless n.size)

def weddings (child : Nat) : List Nat → List (Nat × Nat)
  | [] => []
  | p :: rest => (p, child) :: rest.map (fun q => (p, q)) ++ weddings child rest

theorem mem_weddings {e : Nat × Nat} {l : List Nat} :
    e ∈ weddings c l ↔ e ∈ l.map (fun p => (p, c)) ++ Scope.pairs l := by
  induction l with
  | nil => simp [weddings, Scope.pairs]
  | cons p l ih =>
    simp only [weddings, Scope.pairs, List.map_cons, List.mem_append, List.mem_cons] at ih ⊢
    tauto

theorem foldlM_addEdge? {g : Graph} (hp : p < g.size) (l : List Nat) (hl : ∀ q ∈ l, q < g.size) :
    l.foldlM (·.addEdge? p) g = some (g.addEdges (l.map fun q => (p, q))) := by
  induction l generalizing g with
  | nil => rfl
  | cons q l ih =>
    obtain ⟨hq, hl⟩ := List.forall_mem_cons.1 hl
    rw [List.foldlM_cons, Graph.addEdge?_eq hp hq, Option.bind_eq_bind, Option.bind_some,
      ih (by rwa [Graph.size_addEdge]) (by simpa only [Graph.size_addEdge] using hl)]
    rfl

theorem marry?_eq {g : Graph} (hc : c < g.size) (l : List Nat) (hl : ∀ p ∈ l, p < g.size) :
    marry? c l g = some (g.addEdges (weddings c l)) := by
  induction l generalizing g with
  | nil => rfl
  | cons p l ih =>
    obtain ⟨hp, hl⟩ := List.forall_mem_cons.1 hl
    have hrest := foldlM_addEdge? (g := g.addEdge p c) (by rwa [Graph.size_addEdge]) l
      (by simpa only [Graph.size_addEdge] using hl)
    have hmarry := ih (g := (g.addEdge p c).addEdges (l.map fun q => (p, q)))
      (by rwa [Graph.size_addEdges, Graph.size_addEdge])
      (by simpa only [Graph.size_addEdges, Graph.size_addEdge] using hl)
    simp only [marry?, Graph.addEdge?_eq hp hc, hrest, hmarry, Option.bind_eq_bind, Option.bind_some]
    rw [weddings, Graph.addEdges_append, Graph.addEdges_cons]

theorem Closed.moralizeInTurn?_eq (h : n.Closed) : n.moralizeInTurn? = some n.moralize := by
  have hturn (l : List Nat) : ∀ g : Graph, g.size = n.size → (∀ c ∈ l, c < n.size) →
      l.foldlM (fun g child => marry? child (n.parents child) g) g =
        some (g.addEdges (l.flatMap fun c => weddings c (n.parents c))) := by
    induction l with
    | nil => exact fun g _ _ => rfl
    | cons c l ih =>
      intro g hsize hl
      obtain ⟨hc, hl⟩ := List.forall_mem_cons.1 hl
      have hmarry : marry? c (n.parents c) g = some (g.addEdges (weddings c (n.parents c))) :=
        marry?_eq (hsize ▸ hc) _ fun p hp => hsize ▸ h c p hp
      rw [List.foldlM_cons, hmarry, Option.bind_eq_bind, Option.bind_some,
        ih _ (by rwa [Graph.size_addEdges]) hl, List.flatMap_cons, Graph.addEdges_append]
  rw [moralizeInTurn?, hturn n.ids _ (Graph.size_edgeless n.size) fun c hc => mem_ids.1 hc, moralize]
  refine congrArg some (Graph.addEdges_congr (fun e => ?_) _)
  simp only [List.mem_flatMap, mem_weddings, marriages]

/-! Who is joined -/

theorem of_mem_marriages (h : (v, w) ∈ n.marriages c) :
    v ∈ n.parents w ∨ v ∈ n.parents c ∧ w ∈ n.parents c := by
  obtain h | h := List.mem_append.1 h
  · obtain ⟨p, hp, heq⟩ := List.mem_map.1 h
    obtain ⟨rfl, rfl⟩ := Prod.mk.inj heq
    exact Or.inl hp
  · exact Or.inr (Scope.mem_of_mem_pairs h)

theorem Closed.hasEdge_moralize_iff (h : n.Closed) (hne : v ≠ w) : n.moralize.hasEdge v w ↔
    v ∈ n.parents w ∨ w ∈ n.parents v ∨ ∃ c, v ∈ n.parents c ∧ w ∈ n.parents c := by
  have hknown {p c : Nat} (hp : p ∈ n.parents c) : c < n.size := by
    by_contra hc
    rw [parents_of_le (not_lt.1 hc)] at hp
    cases hp
  have hparent {p c : Nat} (hp : p ∈ n.parents c) : p ∈ n.family c :=
    Scope.mem_ofList.2 (List.mem_cons_of_mem c hp)
  have hself (c : Nat) : c ∈ n.family c := Scope.mem_ofList.2 List.mem_cons_self
  constructor
  · intro hedge
    rw [moralize, Graph.hasEdge_addEdges] at hedge
    obtain hold | ⟨⟨a, b⟩, hmem, -, -, -, hends⟩ := hedge
    · rw [Graph.hasEdge_edgeless] at hold
      cases hold
    · obtain ⟨c, -, hmem⟩ := List.mem_flatMap.1 hmem
      have hparents := of_mem_marriages hmem
      obtain ⟨rfl, rfl⟩ | ⟨rfl, rfl⟩ := hends <;> grind
  · rintro (hp | hp | ⟨c, hv, hw⟩)
    · exact h.hasEdge_moralize (hknown hp) (hparent hp) (hself w) hne
    · exact h.hasEdge_moralize (hknown hp) (hself v) (hparent hp) hne
    · exact h.hasEdge_moralize (hknown hv) (hparent hv) (hparent hw) hne

theorem Closed.moralize_congr (h : n.Closed) (hsize : m.size = n.size)
    (hparents : ∀ p c, p ∈ m.parents c ↔ p ∈ n.parents c) : m.moralize = n.moralize := by
  have hm : m.Closed := fun c p hp => hsize ▸ h c p ((hparents p c).1 hp)
  refine Graph.ext_hasEdge (by rw [size_moralize, size_moralize, hsize]) fun u v => ?_
  by_cases huv : u = v
  · subst huv
    rw [Graph.hasEdge_self, Graph.hasEdge_self]
  · rw [hm.hasEdge_moralize_iff huv, h.hasEdge_moralize_iff huv]
    simp only [hparents]

/-- The graph has exactly the variables for vertices, and joins two of them just when one is a parent of
the other or both are parents of one variable; so it does not depend on the order in which edges were
added, and joins the members of a family to each other. Its edges are listed once, in order, with the lower
end first, and counted as they are listed. -/
theorem Reached.moralize_exact [Scalar α] (h : n.Reached) :
    n.moralizeInTurn? = some n.moralize ∧
    n.moralize.size = n.size ∧
    (∀ v w, n.moralize.hasEdge v w = n.moralize.hasEdge w v) ∧
    (∀ v, n.moralize.hasEdge v v = false) ∧
    (∀ v w, v ≠ w → (n.moralize.hasEdge v w ↔
      v ∈ n.parents w ∨ w ∈ n.parents v ∨ ∃ c, v ∈ n.parents c ∧ w ∈ n.parents c)) ∧
    (∀ v w, (v, w) ∈ n.moralize.edges ↔ v < w ∧ n.moralize.hasEdge v w) ∧
    n.moralize.edges.Pairwise (Prod.Lex (· < ·) (· < ·)) ∧
    n.moralize.edgeCount = n.moralize.edges.length ∧
    (∀ m : Network α, m.size = n.size → (∀ p c, p ∈ m.parents c ↔ p ∈ n.parents c) →
      m.moralize = n.moralize) ∧
    (∀ es order : List (Nat × Nat), (∀ e, e ∈ order ↔ e ∈ es) → ∀ m m' : Network α,
      addEdgesInPlace es n = .ok () m → addEdgesInPlace order n = .ok () m' →
      m'.moralize = m.moralize) ∧
    ∀ c < n.size, (∀ v ∈ n.family c, v < n.moralize.size) ∧
      ∀ v ∈ n.family c, ∀ w ∈ n.family c, v ≠ w → n.moralize.hasEdge v w := by
  have hclosed := h.coherent.closed
  refine ⟨hclosed.moralizeInTurn?_eq, size_moralize n, Graph.hasEdge_comm _, Graph.hasEdge_self _,
    fun v w => hclosed.hasEdge_moralize_iff, fun v w => Graph.mem_edges, Graph.pairwise_edges _,
    Graph.edgeCount_eq _, fun m => hclosed.moralize_congr, fun es order horder m m' hm hm' => ?_,
    fun c hc => ⟨fun v hv => ?_, fun v hv w hw => hclosed.hasEdge_moralize hc hv hw⟩⟩
  · obtain ⟨hsize, hparents⟩ := h.coherent.addEdgesInPlace_congr horder hm hm'
    have hm : m.Closed := (h.coherent.addEdges (addEdgesInPlace_eq_ok.1 hm)).closed
    exact hm.moralize_congr hsize hparents
  · rw [size_moralize]
    obtain rfl | hv := List.mem_cons.1 (Scope.mem_ofList.1 hv)
    · exact hc
    · exact hclosed c v hv

noncomputable def lawn : Network ℝ :=
  [.addVariable "rain" ["no", "yes"], .addVariable "lawn" ["dry", "wet"],
    .addVariable "sprinkler" ["off", "on"], .addEdge 2 1, .addEdge 0 1].foldl
    (fun n u => (editInPlace u).after n) .empty

/-- The parents are married; a further edge from one to the other, which makes them a family of their
own, adds none. -/
theorem moralize_exact_of_lawn : lawn.Reached ∧ lawn.moralize.edges = [(0, 1), (0, 2), (1, 2)] ∧
    lawn.moralize.edgeCount = 3 ∧ lawn.moralize.hasEdge 0 2 ∧
    ∃ m m', addEdgesInPlace [(0, 2), (0, 1)] lawn = .ok () m ∧
      addEdgesInPlace [(0, 1), (0, 2)] lawn = .ok () m' ∧ m'.moralize = m.moralize := by
  have hreached : lawn.Reached := Reached.empty.calls _
  obtain ⟨-, -, -, -, hjoined, -, -, hcount, -, hedges, -⟩ := hreached.moralize_exact
  have hlist : lawn.moralize.edges = [(0, 1), (0, 2), (1, 2)] := rfl
  rw [hlist] at hcount
  refine ⟨hreached, hlist, hcount, ?_, _, _, rfl, rfl,
    hedges [(0, 2), (0, 1)] [(0, 1), (0, 2)] (by simp [or_comm]) _ _ rfl rfl⟩
  have hparents : lawn.parents 1 = [2, 0] := rfl
  exact (hjoined 0 2 (by decide)).2 (Or.inr (Or.inr ⟨1, by simp [hparents], by simp [hparents]⟩))

end Network
end Bayes
