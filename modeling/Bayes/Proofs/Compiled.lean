import Bayes.Snapshot
import Bayes.Proofs.JunctionTree.Below
import Bayes.Proofs.Network
import Bayes.Proofs.Triangulation
/-!
What a compiled network is known to be: a rooted tree of cliques of its variables, in which every
variable is assigned to one clique that contains it together with its parents.
-/
namespace Bayes

theorem mapM_eq_ok {ε β γ : Type} {f : β → Except ε γ} (l : List β) :
    ∀ ys, l.mapM f = .ok ys → List.Forall₂ (fun b y => f b = .ok y) l ys := by
  induction l with
  | nil =>
    intro ys h
    cases h
    exact .nil
  | cons b l ih =>
    intro ys h
    rw [List.mapM_cons] at h
    obtain ⟨y, hy, h⟩ := bind_eq_ok.1 h
    obtain ⟨ys', hys, h⟩ := bind_eq_ok.1 h
    cases h
    exact .cons hy (ih ys' hys)

theorem mapM_isOk {ε β γ : Type} {f : β → Except ε γ} (l : List β) (h : ∀ b ∈ l, ∃ y, f b = .ok y) :
    ∃ ys, l.mapM f = .ok ys := by
  induction l with
  | nil => exact ⟨[], rfl⟩
  | cons b l ih =>
    obtain ⟨⟨y, hy⟩, hl⟩ := List.forall_mem_cons.1 h
    obtain ⟨ys, hys⟩ := ih hl
    exact ⟨y :: ys, by simp [List.mapM_cons, hy, hys, bind, Except.bind, pure, Except.pure]⟩

namespace JunctionTree

variable {α : Type} {n : Network α} {t : JunctionTree} {c v : Nat}

theorem mem_containing : c ∈ t.containing v ↔ c < t.size ∧ v ∈ t.clique c := by
  simp [containing]

theorem mem_covering {family : List Nat} :
    c ∈ t.covering family v ↔ c < t.size ∧ v ∈ t.clique c ∧ ∀ w ∈ family, w ∈ t.clique c := by
  simp [covering, mem_containing, and_assoc]

theorem smallest?_mem {cs : List Nat} (h : t.smallest? cs = some c) : c ∈ cs := by
  refine List.foldlRecOn (motive := fun best => ∀ b, best = some b → b ∈ cs) cs _ ?_ ?_ c h
  · intro b hb
    cases hb
  · intro best hbest d hd b hb
    cases best with
    | none =>
      cases hb
      exact hd
    | some b' =>
      simp only at hb
      split at hb
      · cases hb
        exact hd
      · cases hb
        exact hbest _ rfl

theorem smallest?_isSome {cs : List Nat} (h : cs ≠ []) : ∃ c, t.smallest? cs = some c := by
  cases cs with
  | nil => exact absurd rfl h
  | cons d cs =>
    rw [smallest?, List.foldl_cons]
    refine List.foldlRecOn (motive := fun best => ∃ c, best = some c) cs _ ⟨d, rfl⟩ ?_
    rintro best ⟨b, rfl⟩ d' _
    simp only
    split
    · exact ⟨d', rfl⟩
    · exact ⟨b, rfl⟩

theorem home?_spec (hc : v ∈ t.clique c) : ∃ d < t.size, t.home? v = some d ∧ v ∈ t.clique d := by
  have hmem : c ∈ t.containing v := mem_containing.2 ⟨lt_of_mem_clique hc, hc⟩
  obtain ⟨d, hd⟩ := t.smallest?_isSome (List.ne_nil_of_mem hmem)
  obtain ⟨hlt, hv⟩ := mem_containing.1 (smallest?_mem hd)
  exact ⟨d, hlt, hd, hv⟩

/-- A tree of cliques for a network. -/
structure Compiles (n : Network α) (t : JunctionTree) : Prop where
  rooted : t.Rooted
  clique_lt : ∀ c, ∀ v ∈ t.clique c, v < n.size
  family : ∀ v < n.size, ∃ c < t.size, t.family? v = some c ∧ ∀ w ∈ n.family v, w ∈ t.clique c
  length_families : t.families.length = n.size

theorem mem_assigned : v ∈ t.assigned c ↔ v < t.families.length ∧ t.family? v = some c := by
  simp [assigned, family?]

theorem nodup_assigned (t : JunctionTree) (c : Nat) : (t.assigned c).Nodup :=
  List.nodup_range.filter _

theorem familyOf_eq_ok : t.familyOf n v = .ok c ↔ t.smallest? (t.covering (n.family v) v) = some c := by
  rw [familyOf]
  cases t.smallest? (t.covering (n.family v) v) <;> simp

theorem settleFamilies_eq_ok {t' : JunctionTree} (h : t.settleFamilies n = .ok t') :
    ∃ families, t' = { t with families } ∧ families.length = n.size ∧
      ∀ v < n.size, ∃ c, families[v]? = some c ∧ t.familyOf n v = .ok c := by
  obtain ⟨families, hfamilies, h⟩ := bind_eq_ok.1 h
  cases h
  have hall := mapM_eq_ok _ _ hfamilies
  have hlength := hall.length_eq
  simp only [Network.ids, List.length_range] at hlength
  refine ⟨families, rfl, hlength.symm, fun v hv => ?_⟩
  have hv' : v < families.length := hlength ▸ hv
  have hget := hall.get (by simpa [Network.ids] using hv) hv'
  simp only [Network.ids, List.get_eq_getElem, List.getElem_range] at hget
  exact ⟨families[v], List.getElem?_eq_getElem hv', hget⟩

theorem settleFamilies_spec {t' : JunctionTree} (h : t.settleFamilies n = .ok t') :
    ∃ families, t' = { t with families } ∧ families.length = n.size ∧
      ∀ v < n.size, ∃ c < t.size, families[v]? = some c ∧ ∀ w ∈ n.family v, w ∈ t.clique c := by
  obtain ⟨families, rfl, hlength, hall⟩ := settleFamilies_eq_ok h
  refine ⟨families, rfl, hlength, fun v hv => ?_⟩
  obtain ⟨c, hget, hc⟩ := hall v hv
  obtain ⟨hlt, -, hfamily⟩ := mem_covering.1 (smallest?_mem (familyOf_eq_ok.1 hc))
  exact ⟨c, hlt, hget, hfamily⟩

theorem mem_arranged {cliques : List (List Nat)} (hv : v ∈ (arranged cliques)[c]?.getD []) :
    ∃ s ∈ cliques, v ∈ s := by
  cases cliques with
  | nil =>
    cases c <;> simp [arranged] at hv
  | cons s cliques =>
    simp only [arranged, List.getElem?_toArray, List.getElem?_map] at hv
    cases hs : (s :: cliques)[c]? with
    | none => simp [hs] at hv
    | some u =>
      rw [hs] at hv
      exact ⟨u, List.mem_of_getElem? hs, Scope.mem_ofList.1 hv⟩

end JunctionTree

theorem Network.compile_spec {α : Type} {n : Network α} {limit : Option Nat} {compiled : Compiled}
    (h : n.compile limit = .ok compiled) :
    compiled.vars = n.vars ∧ compiled.tree.Compiles n := by
  rw [compile] at h
  split at h
  · cases h
  · obtain ⟨t, ht, h⟩ := bind_eq_ok.1 h
    obtain ⟨t', ht', h⟩ := bind_eq_ok.1 h
    cases h
    obtain ⟨hrooted, hcliques⟩ := JunctionTree.build_spec ht
    obtain ⟨families, rfl, hlength, hfamily⟩ := JunctionTree.settleFamilies_spec ht'
    refine ⟨rfl, hrooted.withFamilies families, fun c v hv => ?_, hfamily, hlength⟩
    have hv : v ∈ t.cliques[c]?.getD [] := hv
    rw [hcliques] at hv
    obtain ⟨s, hs, hvs⟩ := JunctionTree.mem_arranged hv
    have hlt := Triangulation.lt_of_mem_cliques hs v hvs
    rwa [n.size_moralize] at hlt

end Bayes
