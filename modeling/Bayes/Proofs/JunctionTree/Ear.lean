import Mathlib.Data.Fintype.Option
import Bayes.Proofs.JunctionTree.Overlap
/-!
Growing junction trees. A clique is an ear of others when one of them contains all that it shares with
any of them; it can be hung there. And a clique may take in a variable that no clique contains.
-/
namespace Bayes.JunctionTree
open Finset SimpleGraph Forest

variable {V W : Type} {C : V → Finset Nat} {T : SimpleGraph V} {p : V} {s : Finset Nat} {x : Nat}

def sprout (T : SimpleGraph V) (p : V) : SimpleGraph (Option V) where
  Adj
    | none, none => False
    | none, some b => b = p
    | some a, none => a = p
    | some a, some b => T.Adj a b
  symm := ⟨fun a b h => by
    cases a <;> cases b
    · exact h
    · exact h
    · exact h
    · exact T.symm.symm _ _ h⟩
  loopless := ⟨fun a h => by
    cases a
    · exact h
    · exact T.loopless.irrefl _ h⟩

def withEar (C : V → Finset Nat) (s : Finset Nat) (c : Option V) : Finset Nat := c.elim s C

theorem reachable_sprout {a b : V} (h : T.Reachable a b) :
    (sprout T p).Reachable (some a) (some b) := by
  let f : T →g sprout T p := ⟨some, fun hab => hab⟩
  exact h.map f

theorem connected_sprout (h : T.Preconnected) : (sprout T p).Connected := by
  have hnew : (sprout T p).Adj none (some p) := rfl
  have hall (a : Option V) : (sprout T p).Reachable a (some p) := by
    cases a with
    | none => exact hnew.reachable
    | some a => exact reachable_sprout (h a p)
  exact ⟨fun a b => (hall a).trans (hall b).symm⟩

theorem isTree_sprout [Fintype V] (hT : T.IsTree) (p : V) : (sprout T p).IsTree := by
  classical
  have hconnected : (sprout T p).Connected := connected_sprout hT.connected.preconnected
  have hsubset : edges (sprout T p) ⊆
      insert s(none, some p) ((edges T).image (Sym2.map some)) := by
    intro e he
    rw [mem_edges] at he
    rw [mem_insert, mem_image]
    induction e using Sym2.ind with
    | _ a b =>
      cases a with
      | none =>
        cases b with
        | none => exact he.elim
        | some b => exact Or.inl (congrArg (fun c => s(none, some c)) he)
      | some a =>
        cases b with
        | none =>
          obtain rfl : a = p := he
          exact Or.inl Sym2.eq_swap
        | some b => exact Or.inr ⟨s(a, b), mem_edges.2 he, rfl⟩
  have hedges : (edges (sprout T p)).card ≤ (edges T).card + 1 :=
    (card_le_card hsubset).trans ((card_insert_le _ _).trans (Nat.succ_le_succ card_image_le))
  -- a connected graph with no more edges than a tree has is a tree
  have hold := (isTree_iff_connected_and_card.1 hT).2
  have hle := hconnected.card_vert_le_card_edgeSet_add_one
  refine isTree_iff_connected_and_card.2 ⟨hconnected, ?_⟩
  rw [card_edges, card_edges] at hedges
  rw [Finite.card_option] at hle ⊢
  omega

theorem IsJunction.sprout [Fintype V] (h : IsJunction C T)
    (hear : ∀ v ∈ s, ∀ c, v ∈ C c → v ∈ C p) : IsJunction (withEar C s) (sprout T p) := by
  have : Nonempty V := ⟨p⟩
  have hT : T.IsTree := ⟨⟨h.connected⟩, h.acyclic⟩
  have htree := isTree_sprout hT p
  refine ⟨htree.isAcyclic, htree.connected.preconnected, fun v => ?_⟩
  let H := (JunctionTree.sprout T p).induce (holding (withEar C s) v)
  let f : T.induce (holding C v) →g H := ⟨fun c => ⟨some c.1, c.2⟩, fun hab => hab⟩
  have hold (a b : V) (ha : v ∈ C a) (hb : v ∈ C b) : H.Reachable ⟨some a, ha⟩ ⟨some b, hb⟩ :=
    (h.running v ⟨a, ha⟩ ⟨b, hb⟩).map f
  have hnew (b : V) (hs : v ∈ s) (hb : v ∈ C b) : H.Reachable ⟨none, hs⟩ ⟨some b, hb⟩ := by
    have hp := hear v hs b hb
    have hadj : H.Adj ⟨none, hs⟩ ⟨some p, hp⟩ := rfl
    exact hadj.reachable.trans (hold p b hp hb)
  rintro ⟨a, ha⟩ ⟨b, hb⟩
  cases a with
  | none =>
    cases b with
    | none => exact .rfl
    | some b => exact hnew b ha hb
  | some a =>
    cases b with
    | none => exact (hnew a hb ha).symm
    | some b => exact hold a b ha hb

open Classical in
theorem IsJunction.update (h : IsJunction C T) (hx : ∀ c, x ∉ C c) (i : V) :
    IsJunction (Function.update C i (insert x (C i))) T := by
  refine ⟨h.acyclic, h.connected, fun v => ?_⟩
  have hmem (c : V) : v ∈ Function.update C i (insert x (C i)) c ↔ c = i ∧ v = x ∨ v ∈ C c := by
    rw [Function.update_apply]
    split
    · next hc => simp [hc]
    · next hc => simp [hc]
  by_cases hv : v = x
  · rintro ⟨a, ha⟩ ⟨b, hb⟩
    obtain rfl : a = i := ((hmem a).1 ha).elim And.left fun h' => absurd (hv ▸ h') (hx a)
    obtain rfl : b = a := ((hmem b).1 hb).elim And.left fun h' => absurd (hv ▸ h') (hx b)
    exact .rfl
  · have hsame : holding (Function.update C i (insert x (C i))) v = holding C v := by
      ext c
      exact (hmem c).trans (by simp [hv, holding])
    rw [hsame]
    exact h.running v

theorem IsJunction.comap (h : IsJunction C T) (e : W ≃ V) : IsJunction (C ∘ e) (T.comap e) := by
  have hadj {a b : V} (hab : T.Adj a b) : (T.comap e).Adj (e.symm a) (e.symm b) := by
    simpa using hab
  refine ⟨h.acyclic.of_comap e.toEmbedding, ?_, fun v => ?_⟩
  · exact h.connected.map (H := T.comap e) ⟨e.symm, hadj⟩ e.symm.surjective
  · have hmem (a : holding C v) : e.symm a ∈ holding (C ∘ e) v := by
      simp [holding, show v ∈ C a from a.2]
    refine (h.running v).map (H := (T.comap e).induce (holding (C ∘ e) v))
      ⟨fun a : holding C v => ⟨e.symm a, hmem a⟩, fun hab => hadj hab⟩ fun b => ⟨⟨e b, b.2⟩, ?_⟩
    exact Subtype.ext (e.symm_apply_apply b)

/-- Cliques, counted with repetitions, that have a junction tree. -/
def HasJunction (cliques : Multiset (Finset Nat)) : Prop :=
  ∃ (V : Type) (_ : Fintype V) (C : V → Finset Nat) (T : SimpleGraph V),
    univ.val.map C = cliques ∧ IsJunction C T

namespace HasJunction

variable {cliques : Multiset (Finset Nat)} {c : Finset Nat}

theorem zero : HasJunction 0 :=
  ⟨Empty, inferInstance, Empty.elim, ⊥, rfl, .of_subsingleton, fun a => a.elim, fun _ a => a.1.elim⟩

theorem single (s : Finset Nat) : HasJunction {s} :=
  ⟨Unit, inferInstance, fun _ => s, ⊥, rfl, .of_subsingleton, fun _ _ => .rfl,
    fun _ ⟨_, _⟩ ⟨_, _⟩ => .rfl⟩

theorem ear (h : HasJunction cliques) (hc : c ∈ cliques)
    (hear : ∀ v ∈ s, ∀ d ∈ cliques, v ∈ d → v ∈ c) : HasJunction (s ::ₘ cliques) := by
  obtain ⟨V, _, C, T, rfl, hT⟩ := h
  obtain ⟨p, -, rfl⟩ := Multiset.mem_map.1 hc
  have huniv : (univ : Finset (Option V)).val = none ::ₘ univ.val.map some := rfl
  refine ⟨Option V, inferInstance, withEar C s, JunctionTree.sprout T p, ?_, hT.sprout ?_⟩
  · rw [huniv, Multiset.map_cons, Multiset.map_map]
    rfl
  · exact fun v hv d hd => hear v hv _ (Multiset.mem_map_of_mem C (mem_univ_val d)) hd

theorem enlarge (h : HasJunction (c ::ₘ cliques)) (hx : ∀ d ∈ c ::ₘ cliques, x ∉ d) :
    HasJunction (insert x c ::ₘ cliques) := by
  classical
  obtain ⟨V, _, C, T, hC, hT⟩ := h
  obtain ⟨i, -, rfl⟩ := Multiset.mem_map.1 (hC.symm ▸ Multiset.mem_cons_self c cliques)
  have hfresh (d : V) : x ∉ C d := hx _ (hC ▸ Multiset.mem_map_of_mem C (mem_univ_val d))
  refine ⟨V, inferInstance, _, T, ?_, hT.update hfresh i⟩
  have hsplit : (univ : Finset V).val = i ::ₘ (univ.erase i).val := by
    rw [← insert_val_of_notMem (notMem_erase i univ), insert_erase (mem_univ i)]
  have hother : ∀ d ∈ (univ.erase i).val, Function.update C i (insert x (C i)) d = C d :=
    fun d hd => Function.update_of_ne (ne_of_mem_erase hd) _ _
  rw [hsplit, Multiset.map_cons] at hC
  rw [hsplit, Multiset.map_cons, Function.update_self, Multiset.map_congr rfl hother,
    (Multiset.cons_inj_right _).1 hC]

theorem exists_isJunction [Fintype W] {D : W → Finset Nat} (h : HasJunction (univ.val.map D)) :
    ∃ T, IsJunction D T := by
  classical
  obtain ⟨V, _, C, T, hC, hT⟩ := h
  have hfiber (s : Finset Nat) : Nonempty ({a // D a = s} ≃ {a // C a = s}) := by
    refine ⟨Fintype.equivOfCardEq ?_⟩
    have hcount := congrArg (Multiset.count s) hC
    rw [Multiset.count_map, Multiset.count_map] at hcount
    rw [Fintype.card_subtype, Fintype.card_subtype, card_def, card_def, filter_val, filter_val]
    simpa only [eq_comm] using hcount.symm
  let e : W ≃ V := Equiv.ofFiberEquiv fun s => (hfiber s).some
  have he : C ∘ e = D := funext (Equiv.ofFiberEquiv_map _)
  exact ⟨_, he ▸ hT.comap e⟩

end HasJunction
end Bayes.JunctionTree
