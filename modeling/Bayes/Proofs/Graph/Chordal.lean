import Bayes.Graph.Chordal
import Bayes.Proofs.Elimination
import Bayes.Proofs.Graph.Induced
/-!
The recognition of chordal graphs is right. A graph whose vertices can be taken one after the other, each
with pairwise adjacent neighbours among those that are left, has no long cycle without a chord. In the
other direction the search keeps, for a chordal graph, that no induced path joins two numbered vertices
outside the numbered ones, except an edge; so the numbered neighbours of the next vertex are adjacent.
-/
namespace Bayes
namespace Graph
open SimpleGraph

variable {g : Graph} {numbered rest l : List Nat} {a b u v x : Nat}

def toSimple (g : Graph) : SimpleGraph Nat where
  Adj u v := g.hasEdge u v
  symm := ⟨fun u v h => g.hasEdge_comm u v ▸ h⟩
  loopless := ⟨fun v h => by simp [g.hasEdge_self v] at h⟩

/-- The neighbours of every vertex further on in the list are pairwise adjacent. -/
inductive Perfect (g : Graph) : List Nat → Prop
  | nil : Perfect g []
  | cons {v : Nat} {rest : List Nat} :
      (∀ a ∈ rest, ∀ b ∈ rest, g.hasEdge v a → g.hasEdge v b → a ≠ b → g.hasEdge a b) →
      Perfect g rest → Perfect g (v :: rest)

/-- Every vertex of the list was not numbered before, and no other such vertex had more neighbours
numbered. -/
inductive Greedy (g : Graph) : List Nat → Prop
  | nil : Greedy g []
  | cons {v : Nat} {rest : List Nat} : v < g.size → v ∉ rest →
      (∀ u < g.size, u ∉ rest → g.weight rest u ≤ g.weight rest v) →
      Greedy g rest → Greedy g (v :: rest)

theorem Greedy.nodup (h : Greedy g l) : l.Nodup := by
  induction h with
  | nil => exact List.nodup_nil
  | cons _ hv _ _ ih => exact List.nodup_cons.2 ⟨hv, ih⟩

theorem Greedy.lt_size (h : Greedy g l) : ∀ v ∈ l, v < g.size := by
  induction h with
  | nil => simp
  | cons hv _ _ _ ih => exact List.forall_mem_cons.2 ⟨hv, ih⟩

def Found (g : Graph) (numbered : List Nat) (n : Nat) : Option Nat → Prop
  | none => ∀ u < n, u ∈ numbered
  | some v => v < n ∧ v ∉ numbered ∧
      ∀ u < n, u ∉ numbered → g.weight numbered u ≤ g.weight numbered v

theorem found_heaviest? (g : Graph) (numbered : List Nat) :
    g.Found numbered g.size (g.heaviest? numbered) := by
  rw [heaviest?, vertices]
  generalize g.size = n
  induction n with
  | zero =>
    intro u hu
    exact absurd hu (Nat.not_lt_zero u)
  | succ n ih =>
    rw [List.range_succ, List.foldl_concat]
    generalize (List.range n).foldl _ none = best at ih ⊢
    split
    · next hn =>
      have hn : n ∈ numbered := List.contains_iff_mem.1 hn
      cases best with
      | none => exact Nat.forall_lt_succ_right.2 ⟨ih, hn⟩
      | some b =>
        obtain ⟨hb, hnew, hmost⟩ := ih
        exact ⟨Nat.lt_succ_of_lt hb, hnew, Nat.forall_lt_succ_right.2 ⟨hmost, fun h => absurd hn h⟩⟩
    · next hn =>
      have hn : n ∉ numbered := fun h => hn (List.contains_iff_mem.2 h)
      cases best with
      | none =>
        refine ⟨Nat.lt_succ_self n, hn, Nat.forall_lt_succ_right.2 ⟨fun u hu hnot => ?_, fun _ => le_rfl⟩⟩
        exact absurd (ih u hu) hnot
      | some b =>
        obtain ⟨hb, hnew, hmost⟩ := ih
        by_cases hlt : g.weight numbered b < g.weight numbered n
        · simp only [if_pos hlt]
          refine ⟨Nat.lt_succ_self n, hn, Nat.forall_lt_succ_right.2 ⟨fun u hu hnot => ?_, fun _ => le_rfl⟩⟩
          exact (hmost u hu hnot).trans hlt.le
        · simp only [if_neg hlt]
          have hle : g.weight numbered n ≤ g.weight numbered b := Nat.le_of_not_lt hlt
          exact ⟨Nat.lt_succ_of_lt hb, hnew, Nat.forall_lt_succ_right.2 ⟨hmost, fun _ => hle⟩⟩

theorem search_spec (g : Graph) : ∀ steps numbered, Greedy g numbered →
    Greedy g (g.search steps numbered) ∧ ((∀ u < g.size, u ∈ g.search steps numbered) ∨
      (g.search steps numbered).length = steps + numbered.length) := by
  intro steps
  induction steps with
  | zero =>
    intro numbered h
    exact ⟨h, Or.inr (Nat.zero_add _).symm⟩
  | succ steps ih =>
    intro numbered h
    have hfound := g.found_heaviest? numbered
    rw [search]
    split
    · next hnone =>
      rw [hnone] at hfound
      exact ⟨h, Or.inl hfound⟩
    · next v hsome =>
      rw [hsome] at hfound
      obtain ⟨hgreedy, hall⟩ := ih (v :: numbered) (.cons hfound.1 hfound.2.1 hfound.2.2 h)
      refine ⟨hgreedy, hall.imp_right fun hlength => ?_⟩
      rw [hlength, List.length_cons]
      omega

theorem greedy_cardinalitySearch (g : Graph) : Greedy g g.cardinalitySearch :=
  (g.search_spec g.size [] .nil).1

theorem mem_cardinalitySearch (hv : v < g.size) : v ∈ g.cardinalitySearch := by
  have hgreedy := g.greedy_cardinalitySearch
  obtain ⟨-, hall | hlength⟩ := g.search_spec g.size [] .nil
  · exact hall v hv
  · have hsub : g.cardinalitySearch.toFinset ⊆ Finset.range g.size := fun u hu =>
      Finset.mem_range.2 (hgreedy.lt_size u (List.mem_toFinset.1 hu))
    have hcard : (Finset.range g.size).card ≤ g.cardinalitySearch.toFinset.card := by
      rw [Finset.card_range, List.toFinset_card_of_nodup hgreedy.nodup]
      exact hlength.ge
    exact List.mem_toFinset.1 (Finset.eq_of_subset_of_card_le hsub hcard ▸ Finset.mem_range.2 hv)

theorem weight_eq (g : Graph) (l : List Nat) (v : Nat) :
    g.weight l v = ((g.neighbors v).toFinset.filter (· ∈ l)).card := by
  rw [weight, List.countP_eq_length_filter, ← List.toFinset_card_of_nodup ((g.nodup_neighbors v).filter _),
    List.toFinset_filter]
  simp only [List.contains_iff_mem]

/-- The next vertex has a numbered neighbour that a vertex left over does not have, unless it has all the
numbered neighbours of that vertex. -/
theorem exists_apart (hle : g.weight l u ≤ g.weight l v) (hb : b ∈ l) (hub : g.hasEdge u b)
    (hvb : ¬ g.hasEdge v b) : ∃ x ∈ l, g.hasEdge v x ∧ ¬ g.hasEdge u x := by
  by_contra hnone
  have hsub : (g.neighbors v).toFinset.filter (· ∈ l) ⊂ (g.neighbors u).toFinset.filter (· ∈ l) := by
    refine Finset.ssubset_iff_subset_ne.2 ⟨fun x hx => ?_, fun heq => ?_⟩
    · obtain ⟨hvx, hx⟩ := Finset.mem_filter.1 hx
      rw [List.mem_toFinset, ← hasEdge_iff] at hvx
      rw [Finset.mem_filter, List.mem_toFinset, ← hasEdge_iff]
      exact ⟨not_not.1 fun hux => hnone ⟨x, hx, hvx, hux⟩, hx⟩
    · have hmem : b ∈ (g.neighbors u).toFinset.filter (· ∈ l) := by
        rw [Finset.mem_filter, List.mem_toFinset, ← hasEdge_iff]
        exact ⟨hub, hb⟩
      rw [← heq, Finset.mem_filter, List.mem_toFinset, ← hasEdge_iff] at hmem
      exact hvb hmem.1
  have hlt := Finset.card_lt_card hsub
  rw [← weight_eq, ← weight_eq] at hlt
  omega

/-- In a chordal graph, an induced path between numbered vertices that has no other numbered vertex is an
edge or a point. -/
theorem Greedy.adj_of_induced (hG : Chordal g.toSimple) (h : Greedy g l) : ∀ {a b : Nat}
    (p : g.toSimple.Walk a b), Induced p → a ∈ l → b ∈ l →
    (∀ d ∈ p.support, d ∈ l → d = a ∨ d = b) → a ≠ b → g.hasEdge a b := by
  induction h with
  | nil =>
    intro a b p _ ha
    exact absurd ha List.not_mem_nil
  | @cons v rest hv hnew hmost _ ih =>
    -- from the vertex numbered last to another one
    have hfrom {b : Nat} (p : g.toSimple.Walk v b) (hp : Induced p) (hb : b ∈ rest)
        (hinner : ∀ d ∈ p.support, d ∈ v :: rest → d = v ∨ d = b) (hvb : v ≠ b) :
        g.hasEdge v b := by
      by_contra hnot
      have hnil : ¬ p.Nil := Walk.not_nil_of_ne hvb
      have hub : g.toSimple.Adj p.penultimate b := p.adj_penultimate hnil
      have hu : p.penultimate ∉ rest := by
        intro hu
        obtain huv | hub' := hinner _ (p.getVert_mem_support _) (List.mem_cons_of_mem _ hu)
        · exact hnot (huv ▸ hub)
        · exact hub.ne hub'
      -- the last inner vertex of the path was left over when the new one was numbered
      obtain ⟨x, hx, hvx, hux⟩ := exists_apart (hmost _ (lt_size_of_hasEdge hub) hu) hb hub hnot
      have hxp : x ∉ p.support := by
        intro hxp
        obtain rfl | rfl := hinner x hxp (List.mem_cons_of_mem _ hx)
        · exact hnew hx
        · exact hnot hvx
      have hclear (d : Nat) (hd : d ∈ p.support) (hdb : g.toSimple.Adj d b) :
          ¬ g.toSimple.Adj x d := by
        have hedge := hp.isChordless.mem_edges hd p.end_mem_support hdb
        have hdu : d = p.penultimate := hp.isPath.eq_penultimate_of_mem_edges (Sym2.eq_swap ▸ hedge)
        intro hxd
        exact hux (hdu ▸ hxd.symm)
      obtain ⟨hxb, q, hq, hsub⟩ := hp.exists_detour hG hvb hxp (g.toSimple.adj_symm hvx) hclear
      refine hxb (ih q hq hx hb (fun d hd hdrest => ?_) fun hxb' => hxp (hxb' ▸ p.end_mem_support))
      obtain hdx | hd := hsub d hd
      · exact Or.inl hdx
      · refine Or.inr ((hinner d hd (List.mem_cons_of_mem _ hdrest)).resolve_left fun hdv => ?_)
        exact hnew (hdv ▸ hdrest)
    intro a b p hp ha hb hinner hab
    obtain rfl | harest := List.mem_cons.1 ha
    · obtain rfl | hbrest := List.mem_cons.1 hb
      · exact absurd rfl hab
      · exact hfrom p hp hbrest hinner hab
    · obtain rfl | hbrest := List.mem_cons.1 hb
      · rw [g.hasEdge_comm]
        refine hfrom p.reverse hp.reverse harest (fun d hd hdl => ?_) hab.symm
        rw [Walk.support_reverse, List.mem_reverse] at hd
        exact (hinner d hd hdl).symm
      · exact ih p hp harest hbrest (fun d hd hdrest => hinner d hd (List.mem_cons_of_mem _ hdrest)) hab

theorem Greedy.perfect (hG : Chordal g.toSimple) (h : Greedy g l) : Perfect g l := by
  induction h with
  | nil => exact .nil
  | @cons v rest _ hnew _ hrest ih =>
    refine .cons (fun a ha b hb hva hvb hab => ?_) ih
    by_contra hnot
    obtain ⟨p, hp, hsupport⟩ := Induced.exists_through (G := g.toSimple)
      (g.toSimple.adj_symm hva) hvb hab hnot
    refine hnot (hrest.adj_of_induced hG p hp ha hb (fun d hd hdrest => ?_) hab)
    obtain hda | hdv | hdb := hsupport d hd
    · exact Or.inl hda
    · exact absurd (hdv ▸ hdrest) hnew
    · exact Or.inr hdb

theorem Perfect.exists_isChord (h : Perfect g l) : ∀ {c : Nat} (p : g.toSimple.Walk c c), p.IsCycle →
    4 ≤ p.length → (∀ v ∈ p.support, v ∈ l) → ∃ e, p.IsChord e := by
  induction h with
  | nil =>
    intro c p _ _ hsub
    exact absurd (hsub c p.start_mem_support) List.not_mem_nil
  | @cons v rest hadj _ ih =>
    intro c p hp hlength hsub
    by_cases hv : v ∈ p.support
    · -- the cycle, begun at the vertex
      let q := p.rotate v hv
      have hq : q.IsCycle := (Walk.isCycle_rotate hv).2 hp
      have hfirst : g.toSimple.Adj v q.snd := q.adj_snd hq.not_nil
      have hlast : g.toSimple.Adj v q.penultimate := (q.adj_penultimate hq.not_nil).symm
      have hmem (i : Nat) (hne : v ≠ q.getVert i) : q.getVert i ∈ rest := by
        have hi := hsub _ ((p.mem_support_rotate_iff v hv).1 (q.getVert_mem_support i))
        exact (List.mem_cons.1 hi).resolve_left hne.symm
      have hedge := hadj q.snd (hmem _ hfirst.ne) q.penultimate (hmem _ hlast.ne) hfirst hlast
        hq.snd_ne_penultimate
      obtain ⟨he, hnot, hends⟩ := isChord_of_adj hq (by rw [Walk.length_rotate]; exact hlength) hedge
      refine ⟨s(q.snd, q.penultimate), he, fun hin => hnot ?_, ?_⟩
      · exact (p.rotate_edges v hv).mem_iff.2 hin
      · exact hends.imp (p.mem_support_rotate_iff v hv).1 (p.mem_support_rotate_iff v hv).1
    · refine ih p hp hlength fun u hu => (List.mem_cons.1 (hsub u hu)).resolve_left fun huv => ?_
      exact hv (huv ▸ hu)

theorem Perfect.of_append : ∀ {l : List Nat}, Perfect g (l ++ rest) → Perfect g rest
  | [], h => h
  | _ :: _, .cons _ h => h.of_append

theorem eliminates_iff (hl : l.Nodup) : g.eliminates l ↔ Perfect g l := by
  induction l with
  | nil => exact ⟨fun _ => .nil, fun _ => rfl⟩
  | cons v rest ih =>
    obtain ⟨-, hrest⟩ := List.nodup_cons.1 hl
    rw [eliminates, Bool.and_eq_true, ih hrest]
    have hmem {a : Nat} : a ∈ rest.filter (g.hasEdge v) ↔ a ∈ rest ∧ g.hasEdge v a := List.mem_filter
    constructor
    · rintro ⟨hfirst, hperfect⟩
      refine .cons (fun a ha b hb hva hvb hab => ?_) hperfect
      have ha' := hmem.2 ⟨ha, hva⟩
      have hb' := hmem.2 ⟨hb, hvb⟩
      split at hfirst
      · next hnil => simp [hnil] at ha'
      · next u others hcons =>
        have hall := List.all_eq_true.1 hfirst
        rw [hcons] at ha' hb'
        obtain rfl | haothers := List.mem_cons.1 ha'
        · exact hall b ((List.mem_cons.1 hb').resolve_left hab.symm)
        · obtain rfl | hbothers := List.mem_cons.1 hb'
          · exact g.hasEdge_comm a b ▸ hall a haothers
          · obtain ⟨before, after, rfl, -, -, hafter⟩ := List.filter_eq_cons_iff.1 hcons
            cases hperfect.of_append with
            | cons hadj _ =>
              refine hadj a ?_ b ?_ (hall a haothers) (hall b hbothers) hab
              · exact (List.mem_filter.1 (hafter ▸ haothers)).1
              · exact (List.mem_filter.1 (hafter ▸ hbothers)).1
    · rintro (_ | ⟨hadj, hperfect⟩)
      refine ⟨?_, hperfect⟩
      split
      · rfl
      · next u others hcons =>
        have hnodup : (u :: others).Nodup := hcons ▸ hrest.filter _
        refine List.all_eq_true.2 fun b hb => ?_
        have hlisted (w : Nat) (hw : w ∈ u :: others) : w ∈ rest ∧ g.hasEdge v w :=
          hmem.1 (hcons ▸ hw)
        obtain ⟨hu, hvu⟩ := hlisted u List.mem_cons_self
        obtain ⟨hb', hvb⟩ := hlisted b (List.mem_cons_of_mem _ hb)
        exact hadj u hu b hb' hvu hvb fun hub => (List.nodup_cons.1 hnodup).1 (hub ▸ hb)

/-- The recognition accepts just the chordal graphs. -/
theorem isChordal_iff (g : Graph) : g.isChordal = true ↔ Chordal g.toSimple := by
  rw [isChordal, eliminates_iff g.greedy_cardinalitySearch.nodup]
  constructor
  · intro h v p hp hlength
    refine h.exists_isChord p hp hlength fun u hu => mem_cardinalitySearch ?_
    have hnext := (p.rotate u hu).adj_snd ((Walk.isCycle_rotate hu).2 hp).not_nil
    exact lt_size_of_hasEdge hnext
  · intro hG
    exact g.greedy_cardinalitySearch.perfect hG

example : ((edgeless 4).addEdges [(0, 1), (1, 2), (2, 3), (3, 0)]).isChordal = false ∧
    ((edgeless 4).addEdges [(0, 1), (1, 2), (2, 3), (3, 0), (0, 2)]).isChordal = true := by
  decide

end Graph
end Bayes
