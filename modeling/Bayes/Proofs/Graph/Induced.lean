import Mathlib.Combinatorics.SimpleGraph.Paths
import Mathlib.Combinatorics.SimpleGraph.Walk.Chord
/-!
Chordal graphs and induced paths. A path is induced when only its consecutive vertices are adjacent.
Closing an induced path of two or more edges over one more vertex gives a cycle, so in a chordal graph
that vertex sees the inside of the path.
-/
namespace Bayes
open SimpleGraph

variable {V : Type} {G : SimpleGraph V} {a b c x y : V}

/-- Every cycle of four or more edges has a chord, an edge between two of its vertices that is not one
of its own. -/
def Chordal (G : SimpleGraph V) : Prop :=
  ∀ ⦃v : V⦄ (p : G.Walk v v), p.IsCycle → 4 ≤ p.length → ∃ e, p.IsChord e

theorem isChord_of_adj {p : G.Walk a a} (hp : p.IsCycle) (hlength : 4 ≤ p.length)
    (hadj : G.Adj p.snd p.penultimate) : p.IsChord s(p.snd, p.penultimate) := by
  refine Walk.isChord_sym2Mk.2 ⟨hadj, fun hedge => ?_, p.getVert_mem_support _, p.getVert_mem_support _⟩
  rw [← p.cons_tail_eq hp.not_nil, Walk.edges_cons, List.mem_cons, p.cons_tail_eq hp.not_nil] at hedge
  obtain hfirst | hlater := hedge
  · have hlast : p.penultimate = a := by
      obtain ⟨hsnd, -⟩ | ⟨-, hlast⟩ := Sym2.eq_iff.1 hfirst
      · exact absurd hsnd (p.adj_snd hp.not_nil).ne'
      · exact hlast
    exact (p.adj_penultimate hp.not_nil).ne hlast
  · have hthird : p.getVert (p.length - 1) = p.getVert 2 := by
      rw [← p.getVert_tail]
      exact hp.isPath_tail.eq_snd_of_mem_edges hlater
    have hsame := hp.getVert_injOn' (by simp) (by simp; omega) hthird
    omega

/-- A path on which only consecutive vertices are adjacent. -/
structure Induced (p : G.Walk a b) : Prop where
  isPath : p.IsPath
  isChordless : p.IsChordless

namespace Induced

theorem nil : Induced (Walk.nil : G.Walk a a) := by
  refine ⟨Walk.IsPath.nil, Walk.isChordless_iff_forall_mem_edges.2 fun u v hu hv huv => ?_⟩
  rw [Walk.support_nil, List.mem_singleton] at hu hv
  exact absurd (hu.trans hv.symm) huv.ne

theorem reverse {p : G.Walk a b} (hp : Induced p) : Induced p.reverse := by
  refine ⟨hp.isPath.reverse, Walk.isChordless_iff_forall_mem_edges.2 fun u v hu hv huv => ?_⟩
  rw [Walk.support_reverse, List.mem_reverse] at hu hv
  rw [Walk.edges_reverse, List.mem_reverse]
  exact hp.isChordless.mem_edges hu hv huv

theorem of_cons {h : G.Adj a c} {p : G.Walk c b} (hp : Induced (Walk.cons h p)) : Induced p := by
  have hpath := (Walk.cons_isPath_iff h p).1 hp.isPath
  refine ⟨hpath.1, Walk.isChordless_iff_forall_mem_edges.2 fun u v hu hv huv => ?_⟩
  have hedge := hp.isChordless.mem_edges (List.mem_cons_of_mem _ hu) (List.mem_cons_of_mem _ hv) huv
  rw [Walk.edges_cons, List.mem_cons] at hedge
  obtain heq | hedge := hedge
  · obtain ⟨rfl, -⟩ | ⟨-, rfl⟩ := Sym2.eq_iff.1 heq
    · exact absurd hu hpath.2
    · exact absurd hv hpath.2
  · exact hedge

theorem cons {p : G.Walk a b} (hp : Induced p) (h : G.Adj x a) (hx : x ∉ p.support)
    (honly : ∀ d ∈ p.support, G.Adj x d → d = a) : Induced (Walk.cons h p) := by
  refine ⟨hp.isPath.cons hx, Walk.isChordless_iff_forall_mem_edges.2 fun u v hu hv huv => ?_⟩
  rw [Walk.support_cons, List.mem_cons] at hu hv
  rw [Walk.edges_cons, List.mem_cons]
  obtain rfl | hu := hu
  · obtain rfl | hv := hv
    · exact absurd rfl huv.ne
    · exact Or.inl (by rw [honly v hv huv])
  · obtain rfl | hv := hv
    · exact Or.inl (by rw [honly u hu huv.symm, Sym2.eq_swap])
    · exact Or.inr (hp.isChordless.mem_edges hu hv huv)

theorem exists_through (hay : G.Adj a y) (hyb : G.Adj y b) (hab : a ≠ b) (hnot : ¬ G.Adj a b) :
    ∃ p : G.Walk a b, Induced p ∧ ∀ d ∈ p.support, d = a ∨ d = y ∨ d = b := by
  have hend : Induced (Walk.cons hyb Walk.nil) := by
    refine nil.cons hyb (fun h => hyb.ne (List.mem_singleton.1 h)) fun d hd _ => ?_
    exact List.mem_singleton.1 hd
  have hsupport {d : V} (hd : d ∈ (Walk.cons hyb (Walk.nil : G.Walk b b)).support) : d = y ∨ d = b := by
    simpa using hd
  refine ⟨Walk.cons hay (Walk.cons hyb Walk.nil), hend.cons hay (fun h => ?_) fun d hd had => ?_, ?_⟩
  · exact (hsupport h).elim hay.ne hab
  · exact (hsupport hd).resolve_right fun hdb => hnot (hdb ▸ had)
  · intro d hd
    exact (List.mem_cons.1 hd).imp_right hsupport

/-- Seen from outside, an induced path has an end part on which the view is met at the start and perhaps
at the end, and nowhere else. -/
theorem exists_last {p : G.Walk a b} (hp : Induced p) (hy : y ∈ p.support) (hyb : y ≠ b)
    (hxy : G.Adj x y) : ∃ c, ∃ q : G.Walk c b, Induced q ∧ q.support ⊆ p.support ∧ c ≠ b ∧
      G.Adj x c ∧ ∀ d ∈ q.support, G.Adj x d → d = c ∨ d = b := by
  induction p generalizing y with
  | nil => exact absurd (List.mem_singleton.1 hy) hyb
  | @cons a a' b h p ih =>
    by_cases hlater : ∃ z ∈ p.support, z ≠ b ∧ G.Adj x z
    · obtain ⟨z, hz, hzb, hxz⟩ := hlater
      obtain ⟨c, q, hq, hsub, hrest⟩ := ih hp.of_cons hz hzb hxz
      exact ⟨c, q, hq, fun d hd => List.mem_cons_of_mem _ (hsub hd), hrest⟩
    · have hnone (d : V) (hd : d ∈ p.support) (hxd : G.Adj x d) : d = b :=
        not_not.1 fun hdb => hlater ⟨d, hd, hdb, hxd⟩
      obtain rfl | hy := List.mem_cons.1 hy
      · refine ⟨y, Walk.cons h p, hp, List.Subset.refl _, hyb, hxy, fun d hd hxd => ?_⟩
        obtain rfl | hd := List.mem_cons.1 hd
        · exact Or.inl rfl
        · exact Or.inr (hnone d hd hxd)
      · exact absurd (hnone y hy hxy) hyb

/-- In a chordal graph, a vertex that sees both ends of an induced path of two or more edges sees another
vertex of it. -/
theorem exists_inner {p : G.Walk a b} (hG : Chordal G) (hp : Induced p) (hlength : 2 ≤ p.length)
    (hx : x ∉ p.support) (hxa : G.Adj x a) (hxb : G.Adj x b) :
    ∃ d ∈ p.support, G.Adj x d ∧ d ≠ a ∧ d ≠ b := by
  by_contra hnone
  have hends (d : V) (hd : d ∈ p.support) (hxd : G.Adj x d) : d = a ∨ d = b := by
    by_contra hne
    exact hnone ⟨d, hd, hxd, fun hda => hne (Or.inl hda), fun hdb => hne (Or.inr hdb)⟩
  have hback : (p.concat hxb.symm).IsPath := hp.isPath.concat hx hxb.symm
  have hcycle : (Walk.cons hxa (p.concat hxb.symm)).IsCycle := by
    refine (Walk.cons_isCycle_iff _ hxa).2 ⟨hback, fun hedge => ?_⟩
    have hone := hback.length_eq_one_of_mem_edges (Sym2.eq_swap ▸ hedge)
    rw [Walk.length_concat] at hone
    omega
  set cycle := Walk.cons hxa (p.concat hxb.symm) with hclosed
  have hedges : cycle.edges = s(x, a) :: (p.edges ++ [s(b, x)]) := by
    rw [hclosed, Walk.edges_cons, Walk.edges_concat, List.concat_eq_append]
  have hsupport {d : V} (hd : d ∈ cycle.support) : d = x ∨ d ∈ p.support := by
    simpa [hclosed, Walk.support_concat, or_comm] using hd
  have hjoined {d : V} (hd : d ∈ p.support) (hxd : G.Adj x d) : s(x, d) ∈ cycle.edges := by
    rw [hedges]
    obtain rfl | rfl := hends d hd hxd
    · exact List.mem_cons_self
    · simp [Sym2.eq_swap]
  obtain ⟨e, he⟩ := hG cycle hcycle (by rw [hclosed, Walk.length_cons, Walk.length_concat]; omega)
  induction e using Sym2.ind with
  | _ u v =>
    obtain ⟨huv, hedge, hu, hv⟩ := Walk.isChord_sym2Mk.1 he
    obtain rfl | hu' := hsupport hu
    · obtain rfl | hv' := hsupport hv
      · exact huv.ne rfl
      · exact hedge (hjoined hv' huv)
    · obtain rfl | hv' := hsupport hv
      · exact hedge (Sym2.eq_swap ▸ hjoined hu' huv.symm)
      · have hold := hp.isChordless.mem_edges hu' hv' huv
        exact hedge (hedges ▸ List.mem_cons_of_mem _ (List.mem_append_left _ hold))

/-- A vertex beside an induced path of a chordal graph that sees its start, but none of the neighbours
of its end, does not see the end and is joined to it by an induced path inside. -/
theorem exists_detour {p : G.Walk a b} (hG : Chordal G) (hp : Induced p) (hab : a ≠ b)
    (hx : x ∉ p.support) (hxa : G.Adj x a) (hclear : ∀ d ∈ p.support, G.Adj d b → ¬ G.Adj x d) :
    ¬ G.Adj x b ∧ ∃ q : G.Walk x b, Induced q ∧ ∀ d ∈ q.support, d = x ∨ d ∈ p.support := by
  obtain ⟨c, q, hq, hsub, hcb, hxc, honly⟩ := hp.exists_last p.start_mem_support hab hxa
  have hxq : x ∉ q.support := fun h => hx (hsub h)
  have hxb : ¬ G.Adj x b := by
    intro hxb
    have hlength : 2 ≤ q.length := by
      by_contra hshort
      have hne : q.length ≠ 0 := fun h0 => hcb (Walk.eq_of_length_eq_zero h0)
      have hcadj : G.Adj c b := Walk.adj_of_length_eq_one (by omega : q.length = 1)
      exact hclear c (hsub q.start_mem_support) hcadj hxc
    obtain ⟨d, hd, hxd, hdc, hdb⟩ := exists_inner hG hq hlength hxq hxc hxb
    obtain hdc' | hdb' := honly d hd hxd
    · exact hdc hdc'
    · exact hdb hdb'
  refine ⟨hxb, Walk.cons hxc q, hq.cons hxc hxq fun d hd hxd => ?_, fun d hd => ?_⟩
  · refine (honly d hd hxd).resolve_right fun hdb => hxb (hdb ▸ hxd)
  · exact (List.mem_cons.1 hd).imp_right fun hd => hsub hd

end Induced
end Bayes
