import Bayes.Proofs.Compilation
import Bayes.Proofs.Network.InPlace
import Bayes.Proofs.Triangulation.Maximal
/-!
The limit on the entries of all tables is compared with their true number. A count that stays at the
largest machine word is the exact count cut off there, for products inside of sums, too: a factor zero
comes after the cut as well as before it. So a limit below that word lets through just the networks
whose tables have that many entries at most.
-/
namespace Bayes

namespace TableSize

def entriesOf (cardinalities clique : List Nat) : Nat :=
  (clique.map (cardinality cardinalities)).prod

def entries (cardinalities : List Nat) (cliques : List (List Nat)) : Nat :=
  (cliques.map (entriesOf cardinalities)).sum

theorem mul_min (a b : Nat) : mul (min a limit) b = min (a * b) limit := by
  rw [mul]
  obtain ha | ha := Nat.le_total a limit
  · rw [Nat.min_eq_left ha]
  · obtain rfl | hb := Nat.eq_zero_or_pos b
    · rw [Nat.mul_zero, Nat.mul_zero]
    · have hcut : limit ≤ limit * b := Nat.le_mul_of_pos_right limit hb
      have hexact : limit ≤ a * b := hcut.trans (Nat.mul_le_mul_right b ha)
      rw [Nat.min_eq_right ha, Nat.min_eq_right hcut, Nat.min_eq_right hexact]

theorem add_min (a b : Nat) : add (min a limit) (min b limit) = min (a + b) limit := by
  rw [add]
  omega

variable (cardinalities : List Nat)

theorem foldl_mul (clique : List Nat) : ∀ a,
    clique.foldl (fun size v => mul size (cardinality cardinalities v)) (min a limit) =
      min (a * entriesOf cardinalities clique) limit := by
  induction clique with
  | nil =>
    intro a
    rw [entriesOf, List.map_nil, List.prod_nil, Nat.mul_one]
    rfl
  | cons v clique ih =>
    intro a
    rw [List.foldl_cons, mul_min, ih, entriesOf, entriesOf, List.map_cons, List.prod_cons,
      Nat.mul_assoc]

theorem ofClique_eq (clique : List Nat) :
    ofClique cardinalities clique = min (entriesOf cardinalities clique) limit := by
  have hfold := foldl_mul cardinalities clique 1
  rwa [Nat.one_mul] at hfold

theorem foldl_add (cliques : List (List Nat)) : ∀ a,
    cliques.foldl (fun size clique => add size (ofClique cardinalities clique)) (min a limit) =
      min (a + entries cardinalities cliques) limit := by
  induction cliques with
  | nil => exact fun a => rfl
  | cons clique cliques ih =>
    intro a
    rw [List.foldl_cons, ofClique_eq, add_min, ih, entries, entries, List.map_cons, List.sum_cons,
      Nat.add_assoc]

theorem total_eq (cliques : List (List Nat)) :
    total cardinalities cliques = min (entries cardinalities cliques) limit := by
  have hfold := foldl_add cardinalities cliques 0
  rwa [Nat.zero_add] at hfold

theorem entries_congr {cliques others : List (List Nat)}
    (h : (cliques.map Multiset.ofList : Multiset (Multiset Nat)) = others.map Multiset.ofList) :
    entries cardinalities cliques = entries cardinalities others := by
  have hsum (l : List (List Nat)) : entries cardinalities l =
      ((l.map Multiset.ofList : Multiset (Multiset Nat)).map fun s =>
        (s.map (cardinality cardinalities)).prod).sum := by
    rw [Multiset.map_coe, Multiset.sum_coe, List.map_map]
    rfl
  rw [hsum, hsum, h]

-- the product is far above the largest word before the factor zero comes
example : ofClique [2 ^ 40, 2 ^ 40, 0] [0, 1, 2] = 0 := by decide

end TableSize

namespace Triangulation

variable {g : Graph} {cardinalities clique : List Nat}

theorem increasing_of_mem_cliques (h : clique ∈ (g.triangulate cardinalities).cliques) :
    Scope.Increasing clique := by
  obtain ⟨s, hs, -, rfl⟩ := mem_cliques.1 h
  exact Scope.increasing_insert ((Elimination.played_steps g).increasing_later s hs)

theorem arranged_cliques (hg : 0 < g.size) :
    (JunctionTree.arranged (g.triangulate cardinalities).cliques).toList =
      (g.triangulate cardinalities).cliques := by
  obtain ⟨clique, hclique, -⟩ := exists_mem_cliques (g := g) cardinalities (List.cons_ne_nil 0 [])
    (by simpa using hg) (by simp)
  rw [JunctionTree.arranged_of_ne_nil (List.ne_nil_of_mem hclique)]
  exact (List.map_congr_left fun c hc => (increasing_of_mem_cliques hc).ofList_eq).trans
    (List.map_id _)

end Triangulation

namespace Network

variable {α : Type} {n : Network α} {limit : Option Nat} {compiled : Compiled}

def cliqueEntries (n : Network α) : Nat :=
  TableSize.entries n.cardinalities (n.moralize.triangulate n.cardinalities).cliques

theorem compile_eq_ok (hn : 0 < n.size) (h : n.compile limit = .ok compiled) :
    limit.filter (· < (n.moralize.triangulate n.cardinalities).tableEntries) = none ∧
      compiled.tree.cliques.toList = (n.moralize.triangulate n.cardinalities).cliques := by
  rw [compile] at h
  split at h
  · cases h
  · next hlimit =>
    obtain ⟨t, ht, h⟩ := bind_eq_ok.1 h
    obtain ⟨t', ht', h⟩ := bind_eq_ok.1 h
    cases h
    obtain ⟨families, rfl, -⟩ := JunctionTree.settleFamilies_eq_ok ht'
    refine ⟨hlimit, ?_⟩
    have hcliques : t.cliques.toList = _ := congrArg Array.toList (JunctionTree.build_spec ht).2
    rw [hcliques, Triangulation.arranged_cliques (n.size_moralize.symm ▸ hn)]

theorem estimate_eq (n : Network α) : (n.moralize.triangulate n.cardinalities).tableEntries =
    min n.cliqueEntries TableSize.limit :=
  TableSize.total_eq _ _

theorem compile_eq_error {bound : Nat} (hbound : bound < TableSize.limit)
    (h : bound < n.cliqueEntries) :
    n.compile (some bound) = .error (.tooComplex (min n.cliqueEntries TableSize.limit) bound) := by
  have hlimit : (some bound).filter (· < min n.cliqueEntries TableSize.limit) = some bound := by
    simpa using ⟨h, hbound⟩
  rw [compile]
  simp only [estimate_eq, hlimit]

end Network

namespace Engine

variable {α : Type} {n : Network α} {config : Config} {bound : Nat}

theorem filter_limit_eq_none (hconfig : config.entryLimit = some bound)
    (hbound : bound < TableSize.limit) :
    config.entryLimit.filter (· < (n.moralize.triangulate n.cardinalities).tableEntries) = none ↔
      n.cliqueEntries ≤ bound := by
  rw [hconfig, Network.estimate_eq, Option.filter_eq_none_iff]
  simp [hbound.not_ge]

theorem tableEntries_le {e : Engine α} (hn : 0 < n.size) (hconfig : config.entryLimit = some bound)
    (hbound : bound < TableSize.limit) (h : ofNetwork n config = .ok e) :
    e.compiled.tree.tableEntries n.cardinalities = n.cliqueEntries ∧ n.cliqueEntries ≤ bound := by
  obtain ⟨compiled, hcompiled, h⟩ := bind_eq_ok.1 h
  cases h
  obtain ⟨hlimit, hcliques⟩ := Network.compile_eq_ok hn hcompiled
  have hle : n.cliqueEntries ≤ bound := (filter_limit_eq_none hconfig hbound).1 hlimit
  refine ⟨?_, hle⟩
  rw [JunctionTree.tableEntries, hcliques, TableSize.total_eq]
  exact Nat.min_eq_left (hle.trans hbound.le)

variable [Scalar α]

/-- The estimate is the true number of entries, cut off at the largest word, in whatever order factors
and cliques come. So below that word the limit refuses a network just when its tables have more
entries, and the tree of an engine that is made has as many as were counted. -/
theorem limit_exact :
    (∀ (g : Graph) (cardinalities : List Nat),
      (∀ clique, (g.triangulate cardinalities).tableSize clique =
        min (TableSize.entriesOf cardinalities clique) TableSize.limit) ∧
      (g.triangulate cardinalities).tableEntries =
        min (TableSize.entries cardinalities (g.triangulate cardinalities).cliques) TableSize.limit ∧
      ∀ cliques : List (List Nat), (cliques.map Multiset.ofList : Multiset (Multiset Nat)) =
        (g.triangulate cardinalities).cliques.map Multiset.ofList →
          TableSize.total cardinalities cliques = (g.triangulate cardinalities).tableEntries) ∧
    ∀ n : Network α, n.Reached → 0 < n.size → ∀ (config : Config) (bound : Nat),
      config.entryLimit = some bound → bound < TableSize.limit →
      ((∃ estimated limit, ofNetwork n config = .error (.tooComplex estimated limit)) ↔
        bound < n.cliqueEntries) ∧
      (bound < n.cliqueEntries →
        ofNetwork n config = .error (.tooComplex (min n.cliqueEntries TableSize.limit) bound)) ∧
      (n.cliqueEntries ≤ bound → ∃ e, ofNetwork n config = .ok e) ∧
      ∀ e, ofNetwork n config = .ok e →
        e.compiled.tree.tableEntries n.cardinalities = n.cliqueEntries ∧ n.cliqueEntries ≤ bound := by
  refine ⟨fun g cardinalities => ⟨TableSize.ofClique_eq cardinalities, TableSize.total_eq _ _,
    fun cliques hcliques => ?_⟩, fun n hn hsize config bound hconfig hbound => ?_⟩
  · rw [TableSize.total_eq, TableSize.entries_congr cardinalities hcliques, ← TableSize.total_eq]
    rfl
  · have hrefused (hlt : bound < n.cliqueEntries) : ofNetwork n config =
        .error (.tooComplex (min n.cliqueEntries TableSize.limit) bound) := by
      rw [ofNetwork, hconfig, Network.compile_eq_error hbound hlt]
      rfl
    have hmade (hle : n.cliqueEntries ≤ bound) : ∃ e, ofNetwork n config = .ok e := by
      obtain ⟨compiled, hcompiled⟩ := hn.coherent.closed.compile_isOk
        ((filter_limit_eq_none hconfig hbound).2 hle)
      exact ⟨_, ofNetwork_of_compile hcompiled⟩
    refine ⟨⟨?_, fun hlt => ⟨_, _, hrefused hlt⟩⟩, hrefused, hmade,
      fun e => tableEntries_le hsize hconfig hbound⟩
    rintro ⟨estimated, limit, herror⟩
    by_contra hle
    obtain ⟨e, he⟩ := hmade (not_lt.1 hle)
    rw [he] at herror
    cases herror

/-- Rain makes the grass wet, and a coin may stand on its edge: four entries and three. -/
def coinOnGrass : Network Float :=
  [.addVariable "rain" ["no", "yes"], .addVariable "grass" ["dry", "wet"], .addEdge 0 1,
    .addVariable "coin" ["heads", "tails", "edge"]].foldl
      (fun n u => (Network.editInPlace u).after n) .empty

theorem limit_exact_of_coinOnGrass : coinOnGrass.Reached ∧ 0 < coinOnGrass.size ∧
    6 < TableSize.limit ∧ 7 < TableSize.limit ∧
    ofNetwork coinOnGrass { entryLimit := some 6 } = .error (.tooComplex 7 6) ∧
    ∃ e, ofNetwork coinOnGrass { entryLimit := some 7 } = .ok e ∧
      e.compiled.tree.tableEntries coinOnGrass.cardinalities = 7 := by
  have hreached : coinOnGrass.Reached := Network.Reached.empty.calls _
  have hsize : 0 < coinOnGrass.size := Nat.succ_pos 2
  have hentries : coinOnGrass.cliqueEntries = 7 := by decide +kernel
  have hlimit : 7 < TableSize.limit := by decide
  obtain ⟨-, hall⟩ := limit_exact (α := Float)
  obtain ⟨-, hrefused, -, -⟩ := hall _ hreached hsize { entryLimit := some 6 } 6 rfl (by decide)
  obtain ⟨-, -, hmade, hkept⟩ := hall _ hreached hsize { entryLimit := some 7 } 7 rfl hlimit
  obtain ⟨e, he⟩ := hmade hentries.le
  refine ⟨hreached, hsize, by decide, hlimit, ?_, e, he, (hkept e he).1.trans hentries⟩
  rw [hentries] at hrefused
  exact hrefused (by decide)

end Engine
end Bayes
