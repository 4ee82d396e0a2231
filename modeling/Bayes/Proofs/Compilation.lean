import Bayes.Engine
import Bayes.Proofs.Compiled
import Bayes.Proofs.JunctionTree.Heaviest
/-!
Every network that editing leads to can be compiled. A variable and its parents are joined to each other
in the moral graph, so they lie inside one maximal clique; and the maximal cliques have a junction tree,
so one is built for them.
-/
namespace Bayes

namespace Scope

theorem mem_pairs_or {s : List Nat} {v w : Nat} (hv : v ∈ s) (hw : w ∈ s) (hne : v ≠ w) :
    (v, w) ∈ pairs s ∨ (w, v) ∈ pairs s := by
  induction s with
  | nil => simp at hv
  | cons u s ih =>
    simp only [pairs, List.mem_append, List.mem_map, Prod.mk.injEq]
    grind

end Scope

namespace Network

variable {α : Type} {n n' : Network α} {v w : Nat}

def Closed (n : Network α) : Prop := ∀ v, ∀ p ∈ n.parents v, p < n.size

section Edits

variable [Scalar α]

theorem Coherent.closed (h : n.Coherent) : n.Closed := fun _ _ hp => (h.linked.known hp).1

theorem closed_edits {edits : List (Edit α)} (h : edits.foldlM Network.edit .empty = .ok n) :
    n.Closed :=
  (foldlM_invariant Coherent (fun _ _ _ hm hok => hm.edit hok) edits .empty n coherent_empty h).closed

end Edits

theorem Closed.hasEdge_moralize (h : n.Closed) {c : Nat} (hc : c < n.size) (hv : v ∈ n.family c)
    (hw : w ∈ n.family c) (hne : v ≠ w) : n.moralize.hasEdge v w := by
  have hlt (u : Nat) (hu : u ∈ n.family c) : u < n.size := by
    rw [family, Scope.mem_ofList, List.mem_cons] at hu
    obtain rfl | hu := hu
    · exact hc
    · exact h c u hu
  have hmarried {a b : Nat} (ha : a ∈ n.family c) (hb : b ∈ n.family c) (hab : a ≠ b)
      (hmem : (a, b) ∈ n.marriages c) : n.moralize.hasEdge a b := by
    rw [moralize, Graph.hasEdge_addEdges, Graph.size_edgeless]
    exact Or.inr ⟨(a, b), List.mem_flatMap.2 ⟨c, mem_ids.2 hc, hmem⟩, hab, hlt a ha, hlt b hb,
      Or.inl ⟨rfl, rfl⟩⟩
  have hmember : (v, w) ∈ n.marriages c ∨ (w, v) ∈ n.marriages c := by
    rw [family, Scope.mem_ofList, List.mem_cons] at hv hw
    simp only [marriages, List.mem_append, List.mem_map, Prod.mk.injEq]
    have hpairs := fun hv hw => Scope.mem_pairs_or (s := n.parents c) hv hw hne
    grind
  obtain hmem | hmem := hmember
  · exact hmarried hv hw hne hmem
  · rw [Graph.hasEdge_comm]
    exact hmarried hw hv hne.symm hmem

theorem build_triangulate (g : Graph) (cardinalities : List Nat) : ∃ t : JunctionTree,
    JunctionTree.build (g.triangulate cardinalities).cliques =
      (.ok t : Except (Error α) JunctionTree) := by
  have hjunction := (Triangulation.settled_triangulate g cardinalities).junction
  refine (JunctionTree.decided _).1.2 (JunctionTree.HasJunction.exists_isJunction ?_)
  have hscopes : Finset.univ.val.map (JunctionTree.scopes (g.triangulate cardinalities).cliques) =
      Triangulation.kept (g.triangulate cardinalities).steps := by
    rw [Fin.univ_val_map, Triangulation.kept]
    refine congrArg _ (List.ext_getElem (by simp [Triangulation.cliques]) fun i _ _ => ?_)
    simp [JunctionTree.scopes, Triangulation.cliques]
  exact hscopes ▸ hjunction

theorem Closed.familyOf_isOk (h : n.Closed) {t : JunctionTree}
    (ht : JunctionTree.build (n.moralize.triangulate n.cardinalities).cliques =
      (.ok t : Except (Error α) JunctionTree)) (hv : v < n.size) :
    ∃ c < t.size, t.familyOf n v = .ok c ∧ ∀ w ∈ n.family v, w ∈ t.clique c := by
  have hself : v ∈ n.family v := by simp [family, Scope.mem_ofList]
  have hlt : ∀ w ∈ n.family v, w < n.moralize.size := by
    intro w hw
    rw [size_moralize]
    rw [family, Scope.mem_ofList, List.mem_cons] at hw
    obtain rfl | hw := hw
    · exact hv
    · exact h v w hw
  obtain ⟨s, hs, hfamily⟩ := Triangulation.exists_mem_cliques n.cardinalities
    (List.ne_nil_of_mem hself) hlt fun a ha b hb hab => h.hasEdge_moralize hv ha hb hab
  obtain ⟨d, hd, hclique⟩ : ∃ d < t.size, ∀ w ∈ s, w ∈ t.clique d := by
    obtain ⟨d, hd, rfl⟩ := List.getElem_of_mem hs
    have hcliques := (JunctionTree.build_spec ht).2
    rw [JunctionTree.arranged_of_ne_nil (List.ne_nil_of_mem hs)] at hcliques
    refine ⟨d, by simpa [JunctionTree.size, hcliques] using hd, fun w hw => ?_⟩
    simpa [JunctionTree.clique, hcliques, hd, Scope.mem_ofList] using hw
  have hcovering : d ∈ t.covering (n.family v) v :=
    JunctionTree.mem_covering.2 ⟨hd, hclique v (hfamily v hself), fun w hw => hclique w (hfamily w hw)⟩
  obtain ⟨c, hc⟩ := t.smallest?_isSome (List.ne_nil_of_mem hcovering)
  obtain ⟨hlt, -, hcover⟩ := JunctionTree.mem_covering.1 (JunctionTree.smallest?_mem hc)
  exact ⟨c, hlt, by rw [JunctionTree.familyOf, hc], hcover⟩

theorem Closed.settleFamilies_isOk (h : n.Closed) {t : JunctionTree}
    (ht : JunctionTree.build (n.moralize.triangulate n.cardinalities).cliques =
      (.ok t : Except (Error α) JunctionTree)) : ∃ t', t.settleFamilies n = .ok t' := by
  obtain ⟨families, hfamilies⟩ := mapM_isOk n.ids fun v hv => by
    obtain ⟨c, -, hc, -⟩ := h.familyOf_isOk ht (mem_ids.1 hv)
    exact ⟨c, hc⟩
  exact ⟨_, by rw [JunctionTree.settleFamilies, hfamilies]; rfl⟩

theorem Closed.compile_isOk (h : n.Closed) {limit : Option Nat}
    (hlimit : limit.filter (· < (n.moralize.triangulate n.cardinalities).tableEntries) = none) :
    ∃ compiled, n.compile limit = .ok compiled := by
  obtain ⟨t, ht⟩ := build_triangulate (α := α) n.moralize n.cardinalities
  obtain ⟨t', ht'⟩ := h.settleFamilies_isOk ht
  refine ⟨⟨n.vars, n.moralize.triangulate n.cardinalities, t'⟩, ?_⟩
  rw [compile]
  simp only [hlimit, ht, ht', bind, Except.bind, pure, Except.pure]

/-- Too many entries are the only reason against compiling. -/
theorem Closed.compile_cases (h : n.Closed) (limit : Option Nat) :
    (∃ compiled, n.compile limit = .ok compiled) ∨
    ∃ entries bound, limit = some bound ∧ n.compile limit = .error (.tooComplex entries bound) := by
  cases hlimit : limit.filter (· < (n.moralize.triangulate n.cardinalities).tableEntries) with
  | some bound =>
    rw [compile]
    simp only [hlimit]
    exact Or.inr ⟨_, bound, (Option.filter_eq_some_iff.1 hlimit).1, rfl⟩
  | none => exact Or.inl (h.compile_isOk hlimit)

/-! Another table -/

theorem familyOf_withTable (n : Network α) (v : Nat) (t : Table α) (tree : JunctionTree) (w : Nat) :
    tree.familyOf (n.withTable v t) w = tree.familyOf n w := by
  have hname (m : Network α) : (m.node? w).map (·.name) = m.vars[w]?.map (·.name) := by
    rw [vars_getElem?]
    cases m.node? w <;> rfl
  rw [JunctionTree.familyOf, JunctionTree.familyOf, hname, hname, vars_withTable, family, family,
    parents_withTable]

theorem compile_withTable (n : Network α) (v : Nat) (t : Table α) (limit : Option Nat) :
    (n.withTable v t).compile limit = n.compile limit := by
  have hmarriages : (n.withTable v t).marriages = n.marriages := by
    funext w
    simp [marriages]
  have hmoral : (n.withTable v t).moralize = n.moralize := by
    simp [moralize, hmarriages]
  have hsettle (tree : JunctionTree) :
      tree.settleFamilies (n.withTable v t) = tree.settleFamilies n := by
    have hfamily : tree.familyOf (n.withTable v t) = tree.familyOf n :=
      funext fun w => familyOf_withTable n v t tree w
    simp [JunctionTree.settleFamilies, hfamily]
  have hcardinalities : (n.withTable v t).cardinalities = n.cardinalities := by
    rw [cardinalities, vars_withTable, cardinalities]
  rw [compile, compile, hmoral, hcardinalities, vars_withTable]
  simp only [hsettle]

end Network

namespace Engine

variable {α : Type} {n : Network α}

theorem ofNetwork_of_compile {config : Config} {compiled : Compiled}
    (h : n.compile config.entryLimit = .ok compiled) :
    ofNetwork n config = .ok { network := n, compiled, config, evidence := n.evidence } := by
  simp only [ofNetwork, h, bind, Except.bind, pure, Except.pure]

variable [Scalar α]

/-- An engine without a limit can be made for every network that editing leads to, and nothing fails
because cliques have no junction tree or leave out a family. -/
theorem ofNetwork_ok {edits : List (Edit α)} (h : edits.foldlM Network.edit .empty = .ok n) :
    (∃ t, JunctionTree.build (α := α) (n.moralize.triangulate n.cardinalities).cliques = .ok t ∧
      ∀ v < n.size, ∃ c < t.size, t.familyOf n v = .ok c ∧
        v ∈ t.clique c ∧ ∀ p ∈ n.parents v, p ∈ t.clique c) ∧
    ∀ config : Config, (config.entryLimit = none → ∃ e, ofNetwork n config = .ok e) ∧
      ∀ reason, ofNetwork n config ≠ .error (.notChordal reason) := by
  have hclosed := Network.closed_edits h
  refine ⟨?_, fun config => ?_⟩
  · obtain ⟨t, ht⟩ := Network.build_triangulate (α := α) n.moralize n.cardinalities
    refine ⟨t, ht, fun v hv => ?_⟩
    obtain ⟨c, hc, hfamily, hmem⟩ := hclosed.familyOf_isOk ht hv
    have hmem (w : Nat) (hw : w ∈ v :: n.parents v) : w ∈ t.clique c :=
      hmem w (Scope.mem_ofList.2 hw)
    exact ⟨c, hc, hfamily, hmem v (by simp), fun p hp => hmem p (by simp [hp])⟩
  · obtain ⟨compiled, hok⟩ | ⟨entries, bound, hlimit, herror⟩ :=
      hclosed.compile_cases config.entryLimit
    · have hengine : ofNetwork n config = .ok
          { network := n, compiled, config, evidence := n.evidence } := by
        simp only [ofNetwork, hok, bind, Except.bind, pure, Except.pure]
      exact ⟨fun _ => ⟨_, hengine⟩, fun reason => by simp [hengine]⟩
    · have hfail : ofNetwork n config = .error (.tooComplex entries bound) := by
        simp only [ofNetwork, herror, bind, Except.bind]
      exact ⟨fun hnone => by simp [hnone] at hlimit, fun reason => by simp [hfail]⟩

theorem ofNetwork_ok_of_edge_and_point : ∃ (n : Network Float) (e : Engine Float),
    [.addVariable "rain" ["no", "yes"], .addVariable "wet" ["no", "yes"], .addEdge 0 1,
      .addVariable "coin" ["heads", "tails"]].foldlM Network.edit .empty = .ok n ∧
    ofNetwork n {} = .ok e := by
  obtain ⟨n, hn⟩ : ∃ n : Network Float,
      [.addVariable "rain" ["no", "yes"], .addVariable "wet" ["no", "yes"], .addEdge 0 1,
        .addVariable "coin" ["heads", "tails"]].foldlM Network.edit .empty = .ok n := ⟨_, rfl⟩
  obtain ⟨e, he⟩ := ((ofNetwork_ok hn).2 {}).1 rfl
  exact ⟨n, e, hn, he⟩

theorem exists_ofNetwork {n : Network ℝ} (hn : n.Reachable) : ∃ e, ofNetwork n {} = .ok e := by
  have hclosed : n.Closed := hn.wellFormed.parents_lt
  obtain ⟨compiled, hcompiled⟩ | ⟨_, _, hlimit, _⟩ := hclosed.compile_cases none
  · exact ⟨_, ofNetwork_of_compile hcompiled⟩
  · cases hlimit

noncomputable def coin : Network ℝ :=
  ⟨#[⟨⟨"coin", ["heads", "tails"]⟩, [], [], Network.uniform [2]⟩]⟩

def coinTree : JunctionTree := ⟨#[[0]], [], [⟨0, none, [], 0⟩], [0]⟩

def coinTriangulation : Triangulation := ⟨.edgeless 1, [2], [⟨0, [], []⟩]⟩

theorem reachable_coin : coin.Reachable :=
  Network.Reachable.edit .empty (.addVariable "coin" ["heads", "tails"]) rfl

theorem compile_coin : coin.compile none = .ok ⟨coin.vars, coinTriangulation, coinTree⟩ := by
  have htriangulate : coin.moralize.triangulate coin.cardinalities = coinTriangulation := rfl
  have hcliques : coinTriangulation.cliques = [[0]] := rfl
  have hbuild : JunctionTree.build [[0]] =
      (.ok { coinTree with families := [] } : Except (Error ℝ) JunctionTree) := by cbv
  have hsettle : ({ coinTree with families := [] } : JunctionTree).settleFamilies coin =
      .ok coinTree := rfl
  rw [Network.compile, htriangulate]
  simp only [hcliques, hbuild, hsettle, Option.filter_none, bind, Except.bind, pure, Except.pure]

theorem ofNetwork_coin : ofNetwork coin {} =
    .ok ⟨coin, ⟨coin.vars, coinTriangulation, coinTree⟩, {}, coin.evidence, false, 0, none, []⟩ := by
  simp only [ofNetwork, compile_coin, bind, Except.bind, pure, Except.pure]

end Engine
end Bayes
