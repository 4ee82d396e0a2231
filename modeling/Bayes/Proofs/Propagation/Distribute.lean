import Bayes.Proofs.Propagation.Collect
/-!
Distributing. When the visits arrive at a clique, what its parent sent is there, so the clique knows what
all cliques tell; for each child it leaves out what that child sent, without ever dividing.
-/
namespace Bayes

namespace JunctionTree.Rooted

variable {t : JunctionTree} {c d e : Nat}

/-- Outside a child is its parent, what is outside the parent, and what is below the other children. -/
theorem outside_child (h : t.Rooted) (he : t.parent? e = some c) :
    {c} ∪ t.outside c ∪ t.belowAny ((t.children c).erase e) = t.outside e := by
  obtain ⟨_, hc, _⟩ := h.parent?_some he
  have herase (e' : Nat) : e' ∈ (t.children c).erase e ↔ e' ≠ e ∧ t.parent? e' = some c := by
    rw [(nodup_children h.nodup c).mem_erase_iff, h.mem_children]
  ext d
  simp only [Finset.mem_union, Finset.mem_singleton, mem_outside, mem_belowAny]
  constructor
  · rintro ((rfl | ⟨hd, hdc⟩) | ⟨e', he', hd⟩)
    · exact ⟨hc, h.parent_not_mem_below he⟩
    · exact ⟨hd, fun hde => hdc (h.below_subset he hde)⟩
    · obtain ⟨hne, he'⟩ := (herase e').1 he'
      refine ⟨Finset.mem_range.1 (t.below_subset_range e' hd), fun hde => ?_⟩
      exact Finset.disjoint_left.1 (h.disjoint_below he' he hne) hd hde
  · rintro ⟨hd, hde⟩
    by_cases hdc : d ∈ t.below c
    · obtain rfl | ⟨e', he', hde'⟩ := (h.mem_below_iff hc).1 hdc
      · exact Or.inl (Or.inl rfl)
      · refine Or.inr ⟨e', (herase e').2 ⟨fun heq => hde (heq ▸ hde'), he'⟩, hde'⟩
    · exact Or.inl (Or.inr ⟨hd, hdc⟩)

theorem disjoint_around (h : t.Rooted) (c : Nat) :
    Disjoint ({c} ∪ t.outside c) (t.belowAny (t.children c)) := by
  refine Finset.disjoint_left.2 fun d hd hmem => ?_
  obtain ⟨e, he, hde⟩ := mem_belowAny.1 hmem
  have hout : d ∈ t.outside e := by
    rw [← h.outside_child (h.mem_children.1 he)]
    exact Finset.mem_union_left _ hd
  exact (mem_outside.1 hout).2 hde

theorem filter_separatorAbove (h : t.Rooted) (he : t.parent? e = some c) :
    (t.clique c).filter (t.separatorAbove e).contains = t.separatorAbove e := by
  rw [h.separator e c he, Scope.inter_comm (h.increasing e) (h.increasing c)]
  exact Scope.filter_inter

theorem outside_root (h : t.Rooted) : t.outside t.root = ∅ := by
  rw [outside, h.below_root, Finset.sdiff_self]

end JunctionTree.Rooted

theorem JunctionTree.below_union_outside (t : JunctionTree) (c : Nat) :
    t.below c ∪ t.outside c = Finset.range t.size :=
  Finset.union_sdiff_of_subset (t.below_subset_range c)

namespace Propagator

section Sending

variable {α : Type} [Scalar α]

/-- For every child what a clique keeps for it, given what it has got from above. -/
def rests (p : Propagator α) (collected : Collected α) (above : Option (Message α)) (c : Nat) :
    List (Message α) :=
  let upward := (p.tree.children c).map collected.upward.at?
  leaveOneOut ((p.own c).absorb above) upward (suffixes upward).tail

theorem length_rests (p : Propagator α) (collected : Collected α) (above : Option (Message α))
    (c : Nat) : (p.rests collected above c).length = (p.tree.children c).length := by
  rw [rests, length_leaveOneOut, List.length_map]

theorem map_fst_zip_rests (p : Propagator α) (collected : Collected α) (above : Option (Message α))
    (c : Nat) :
    ((p.tree.children c).zip (p.rests collected above c)).map (·.1) = p.tree.children c :=
  List.map_fst_zip (p.length_rests collected above c).ge

omit [Scalar α] in
theorem foldl_put {f : Nat × Message α → Message α} (l : List (Nat × Message α))
    (hnodup : (l.map (·.1)).Nodup) : ∀ mail : Mail α, (∀ e ∈ l, e.1 < mail.size) →
      (l.foldl (fun mail e => mail.put e.1 (f e)) mail).size = mail.size ∧
      (∀ d, d ∉ l.map (·.1) → (l.foldl (fun mail e => mail.put e.1 (f e)) mail).at? d = mail.at? d) ∧
      ∀ e ∈ l, (l.foldl (fun mail e => mail.put e.1 (f e)) mail).at? e.1 = some (f e) := by
  induction l with
  | nil =>
    intro mail _
    simp
  | cons a l ih =>
    intro mail hlt
    obtain ⟨ha, hl⟩ := List.forall_mem_cons.1 hlt
    obtain ⟨hnew, hnodup⟩ := List.nodup_cons.1 hnodup
    obtain ⟨hsize, hother, hput⟩ := ih hnodup (mail.put a.1 (f a)) fun e he => by
      rw [Mail.size_put]
      exact hl e he
    rw [List.foldl_cons]
    refine ⟨hsize.trans Mail.size_put, fun d hd => ?_, List.forall_mem_cons.2 ⟨?_, hput⟩⟩
    · rw [List.map_cons, List.mem_cons, not_or] at hd
      rw [hother d hd.2, Mail.at?_put_ne hd.1]
    · rw [hother a.1 hnew, Mail.at?_put_same ha]

theorem spread_sends {p : Propagator α} (ht : p.tree.Rooted) (collected : Collected α) {s : Spread α}
    (hsize : s.downward.size = p.tree.size) (c : Nat) :
    (p.spread collected s c).downward.size = p.tree.size ∧
      (∀ d, p.tree.parent? d ≠ some c →
        (p.spread collected s c).downward.at? d = s.downward.at? d) ∧
      ∀ (i e : Nat), (p.tree.children c)[i]? = some e →
        ∃ n : Message α, (p.rests collected (s.downward.at? c) c)[i]? = some n ∧
          (p.spread collected s c).downward.at? e =
            some (n.onto (p.tree.separatorAbove e) .sum) := by
  have hkeys := p.map_fst_zip_rests collected (s.downward.at? c) c
  have hnodup := hkeys ▸ JunctionTree.nodup_children ht.nodup c
  obtain ⟨hsame, hother, hput⟩ := foldl_put
    (f := fun e => e.2.onto (p.tree.separatorAbove e.1) .sum) _ hnodup s.downward fun e he => by
      rw [hsize]
      exact (ht.parent?_some (ht.mem_children.1 (List.of_mem_zip he).1)).1
  rw [hkeys] at hother
  refine ⟨hsame.trans hsize, fun d hd => hother d fun hmem => hd (ht.mem_children.1 hmem),
    fun i e he => ?_⟩
  obtain ⟨hi, -⟩ := List.getElem?_eq_some_iff.1 he
  rw [← p.length_rests collected (s.downward.at? c) c] at hi
  have hpair : (e, (p.rests collected (s.downward.at? c) c)[i]) ∈
      (p.tree.children c).zip (p.rests collected (s.downward.at? c) c) := by
    refine List.mem_of_getElem? (i := i) (List.getElem?_zip_eq_some.2 ⟨he, ?_⟩)
    exact List.getElem?_eq_getElem hi
  exact ⟨_, List.getElem?_eq_getElem hi, hput _ hpair⟩

end Sending

variable {card : Nat → Nat} {how : Reduction} {p : Propagator ℝ} {c e : Nat} {D : Finset Nat}
  {mail : Mail ℝ} {m : Message ℝ}

theorem carries_downward (h : p.Fits card) (he : p.tree.parent? e = some c)
    (hm : m.Carries card (p.tree.clique c) (p.tells how card c (p.tree.outside e))) :
    (m.onto (p.tree.separatorAbove e) how).Carries card (p.tree.separatorAbove e)
      (p.tells how card e (p.tree.outside e)) := by
  obtain ⟨helt, hc, _⟩ := h.rooted.parent?_some he
  have hkeep : ∀ v ∈ p.tree.vars (p.tree.outside e),
      v ∈ p.tree.clique e ↔ v ∈ p.tree.separatorAbove e := by
    intro v hv
    obtain ⟨f, hf, hvf⟩ := JunctionTree.mem_vars.1 hv
    constructor
    · intro hve
      exact h.rooted.crossing he (h.rooted.self_mem_below helt) hve (JunctionTree.mem_outside.1 hf).2
        hvf
    · exact fun hvs => ((h.rooted.mem_separator he).1 hvs).1
  have hmem : c ∈ p.tree.outside e :=
    JunctionTree.mem_outside.2 ⟨hc, h.rooted.parent_not_mem_below he⟩
  have honto := hm.onto (p.tree.separatorAbove e) how
  rw [h.rooted.filter_separatorAbove he] at honto
  refine honto.congr fun x _ => ?_
  exact h.tells_onto hmem (fun v hv => ((h.rooted.mem_separator he).1 hv).2) hkeep

/-- Distributing has been done right for some cliques. -/
structure Known (card : Nat → Nat) (p : Propagator ℝ) (done : List Nat) (s : Spread ℝ) : Prop where
  size_downward : s.downward.size = p.tree.size
  size_beliefs : s.beliefs.size = p.tree.size
  downward_root : s.downward.at? p.tree.root = none
  downward : ∀ c ∈ done, ∀ e, p.tree.parent? e = some c →
    s.downward.Holds card e (p.tree.separatorAbove e) (p.tells .sum card e (p.tree.outside e))
  beliefs : ∀ c ∈ done, s.beliefs.Holds card c (p.tree.clique c)
    (p.tells .sum card c (Finset.range p.tree.size))

theorem carries_above (h : p.Fits card) (hc : c < p.tree.size)
    (hroot : mail.at? p.tree.root = none)
    (hmail : ∀ q, p.tree.parent? c = some q → mail.Holds card c (p.tree.separatorAbove c)
      (p.tells .sum card c (p.tree.outside c)))
    (hD : D ⊆ p.tree.below c) (hm : m.Carries card (p.tree.clique c) (p.tells .sum card c D)) :
    (m.absorb (mail.at? c)).Carries card (p.tree.clique c)
      (p.tells .sum card c (D ∪ p.tree.outside c)) := by
  by_cases hcr : c = p.tree.root
  · rw [hcr, hroot, h.rooted.outside_root, Finset.union_empty, ← hcr]
    exact hm
  · obtain ⟨q, _, hq, _⟩ := h.rooted.parent c hc hcr
    obtain ⟨n, hn, hcarries⟩ := hmail q hq
    rw [hn]
    exact carries_multiply h (hD.trans (p.tree.below_subset_range c)) Finset.sdiff_subset
      (h.rooted.apart_outside hq hD) hm hcarries fun v hv => ((h.rooted.mem_separator hq).1 hv).1

/-- What is kept for a child is told by all cliques outside it. -/
theorem carries_rests (h : p.Fits card) {collected : Collected ℝ} {above : Option (Message ℝ)}
    (hc : c < p.tree.size)
    (hupward : ∀ e, p.tree.parent? e = some c → collected.upward.Holds card e
      (p.tree.separatorAbove e) (p.tells how card c (p.tree.below e)))
    (hbase : ((p.own c).absorb above).Carries card (p.tree.clique c)
      (p.tells how card c ({c} ∪ p.tree.outside c)))
    {i : Nat} (he : (p.tree.children c)[i]? = some e)
    (hi : (p.rests collected above c)[i]? = some m) :
    m.Carries card (p.tree.clique c) (p.tells how card c (p.tree.outside e)) := by
  have hes : ∀ d ∈ p.tree.children c, p.tree.parent? d = some c :=
    fun d hd => h.rooted.mem_children.1 hd
  have hholds := fun d hd => hupward d (hes d hd)
  have hnodup := JunctionTree.nodup_children h.rooted.nodup c
  obtain ⟨hlt, rfl⟩ := List.getElem?_eq_some_iff.1 he
  have hsub : (p.tree.children c).eraseIdx i ⊆ p.tree.children c :=
    (List.eraseIdx_sublist _ i).subset
  have hothers : ∀ d ∈ (p.tree.children c).eraseIdx i, p.tree.parent? d = some c :=
    fun d hd => hes d (hsub hd)
  have haround : {c} ∪ p.tree.outside c ⊆ Finset.range p.tree.size :=
    Finset.union_subset (by simpa using hc) Finset.sdiff_subset
  have hapart := h.rooted.apart_belowAny hothers
    ((h.rooted.disjoint_around c).mono_right (JunctionTree.belowAny_mono hsub))
  refine (carries_leaveOneOut (about_children h hes hholds) hbase hi).congr fun x hx => ?_
  rw [List.eraseIdx_map, prod_told h hothers (hnodup.sublist (List.eraseIdx_sublist _ i))
    (fun d hd => hholds d (hsub hd)) hx, ← h.rooted.outside_child (hes _ (List.getElem_mem hlt)),
    hnodup.erase_getElem i hlt, h.tells_union haround JunctionTree.belowAny_subset_range hapart]

theorem downward_spread (h : p.Fits card) {collected : Collected ℝ} {s : Spread ℝ}
    (hc : c < p.tree.size) (hsize : s.downward.size = p.tree.size)
    (hupward : ∀ e, p.tree.parent? e = some c → collected.upward.Holds card e
      (p.tree.separatorAbove e) (p.tells .sum card c (p.tree.below e)))
    (hbase : ((p.own c).absorb (s.downward.at? c)).Carries card (p.tree.clique c)
      (p.tells .sum card c ({c} ∪ p.tree.outside c))) :
    (p.spread collected s c).downward.size = p.tree.size ∧
      (∀ d, p.tree.parent? d ≠ some c →
        (p.spread collected s c).downward.at? d = s.downward.at? d) ∧
      ∀ e, p.tree.parent? e = some c → (p.spread collected s c).downward.Holds card e
        (p.tree.separatorAbove e) (p.tells .sum card e (p.tree.outside e)) := by
  obtain ⟨hsame, hother, hsent⟩ := spread_sends h.rooted collected hsize c
  refine ⟨hsame, hother, fun e he => ?_⟩
  obtain ⟨i, hi⟩ := List.mem_iff_getElem?.1 (h.rooted.mem_children.2 he)
  obtain ⟨n, hn, hat⟩ := hsent i e hi
  exact ⟨_, hat, carries_downward h he (carries_rests h hc hupward hbase hi hn)⟩

theorem known_spread (h : p.Fits card) {collected : Collected ℝ} {done : List Nat} {s : Spread ℝ}
    (hcollected : p.Sent card .sum p.tree.postorder collected) (hs : p.Known card done s)
    (hc : c < p.tree.size) (hnew : c ∉ done)
    (hparent : ∀ q, p.tree.parent? c = some q → q ∈ done) :
    p.Known card (done ++ [c]) (p.spread collected s c) := by
  have hself : {c} ⊆ p.tree.below c := by simpa using h.rooted.self_mem_below hc
  have habove (q : Nat) (hq : p.tree.parent? c = some q) := hs.downward q (hparent q hq) c hq
  have hbase := carries_above h hc hs.downward_root habove hself (h.carries_own hc)
  have hbelief := carries_above h hc hs.downward_root habove subset_rfl
    (hcollected.gathered c (mem_postorder h hc)).got
  rw [p.tree.below_union_outside] at hbelief
  obtain ⟨hsize, hother, hchildren⟩ := downward_spread h hc hs.size_downward (fun e he =>
    hcollected.upward e (mem_postorder h (h.rooted.parent?_some he).1) c he) hbase
  refine ⟨hsize, Mail.size_put.trans hs.size_beliefs, ?_, fun q hq e he => ?_, fun d hd => ?_⟩
  · refine (hother _ fun hroot => ?_).trans hs.downward_root
    rw [h.rooted.parent_root] at hroot
    simp at hroot
  · obtain hq | hq := List.mem_append.1 hq
    · have hkeep : p.tree.parent? e ≠ some c := by
        intro hec
        have hqc : q = c := Option.some.inj (he.symm.trans hec)
        exact hnew (hqc ▸ hq)
      obtain ⟨n, hn, hcarries⟩ := hs.downward q hq e he
      exact ⟨n, (hother e hkeep).trans hn, hcarries⟩
    · obtain rfl := List.mem_singleton.1 hq
      exact hchildren e he
  · obtain hd | hd := List.mem_append.1 hd
    · exact (hs.beliefs d hd).put_ne fun hdc => hnew (hdc ▸ hd)
    · obtain rfl := List.mem_singleton.1 hd
      exact Mail.Holds.put_same (hs.size_beliefs ▸ hc) hbelief

theorem known_distribute (h : p.Fits card) {collected : Collected ℝ}
    (hcollected : p.Sent card .sum p.tree.postorder collected) :
    p.Known card p.tree.preorder
      (p.tree.preorder.foldl (p.spread collected) ⟨p.noMail, p.noMail⟩) := by
  refine foldl_invariant (fun done s => p.Known card done s) ?_ fun done c rest s hl hs => ?_
  · have hnone : (p.noMail : Mail ℝ).at? p.tree.root = none := by
      simp [noMail, Mail.at?, h.rooted.root_lt]
    exact ⟨by simp [noMail], by simp [noMail], hnone, by simp, by simp⟩
  · obtain ⟨hc, hnew, hparent⟩ := h.rooted.preorder_visit hl
    exact known_spread h hcollected hs hc hnew hparent

end Propagator
end Bayes
