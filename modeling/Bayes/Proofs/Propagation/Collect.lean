import Bayes.Proofs.Propagation
import Bayes.Proofs.Propagation.LeaveOneOut
/-!
Collecting. When the visits arrive at a clique, what its children sent is there, and the clique knows
what all cliques below it tell.
-/
namespace Bayes

theorem foldl_invariant {β σ : Type} {l : List β} {step : σ → β → σ} (P : List β → σ → Prop) {init : σ}
    (h0 : P [] init)
    (hstep : ∀ done b rest s, l = done ++ b :: rest → P done s → P (done ++ [b]) (step s b)) :
    P l (l.foldl step init) := by
  suffices hrest : ∀ rest done s, l = done ++ rest → P done s → P l (rest.foldl step s) from
    hrest l [] init rfl h0
  intro rest
  induction rest with
  | nil =>
    intro done s hl hs
    rw [hl, List.append_nil]
    exact hs
  | cons b rest ih =>
    intro done s hl hs
    exact ih (done ++ [b]) (step s b) (by simp [hl]) (hstep done b rest s hl hs)

namespace Mail

variable {α : Type} {mail mail' : Mail α} {c d : Nat} {m : Message α}

theorem at?_put_same (hc : c < mail.size) : (mail.put c m).at? c = some m := by
  simp [put, at?, hc]

theorem at?_put_ne (h : d ≠ c) : (mail.put c m).at? d = mail.at? d := by
  simp [put, at?, Array.getD_eq_getD_getElem?, Array.getElem?_setIfInBounds_ne h.symm]

theorem size_put : (mail.put c m).size = mail.size := by simp [put]

theorem ext_at? (hsize : mail.size = mail'.size) (h : ∀ c, mail.at? c = mail'.at? c) :
    mail = mail' := by
  refine Array.ext hsize fun c hc hc' => ?_
  have hat := h c
  simpa [at?, hc, hc'] using hat

theorem got_eq [Scalar α] (h : mail.at? c = some m) : mail.got c = m := by rw [got, h, Option.getD_some]

end Mail

def Mail.Holds (card : Nat → Nat) (mail : Mail ℝ) (c : Nat) (s : List Nat) (f : (Nat → Nat) → ℝ) :
    Prop := ∃ m, mail.at? c = some m ∧ m.Carries card s f

namespace Mail.Holds

variable {card : Nat → Nat} {mail : Mail ℝ} {c d : Nat} {m : Message ℝ} {s t : List Nat}
  {f : (Nat → Nat) → ℝ}

theorem put_same (hc : c < mail.size) (hm : m.Carries card s f) : (mail.put c m).Holds card c s f :=
  ⟨m, Mail.at?_put_same hc, hm⟩

theorem put_ne (h : mail.Holds card d s f) (hd : d ≠ c) : (mail.put c m).Holds card d s f := by
  rw [Mail.Holds, Mail.at?_put_ne hd]
  exact h

theorem got (h : mail.Holds card c s f) : (mail.got c).Carries card s f := by
  obtain ⟨m, hm, hcarries⟩ := h
  rw [Mail.got_eq hm]
  exact hcarries

theorem about (h : mail.Holds card c s f) (hs : ∀ v ∈ s, v ∈ t) : Message.About card t (mail.at? c) := by
  obtain ⟨m, hm, hcarries⟩ := h
  rw [hm]
  exact hcarries.about hs

theorem told_eq {x : Nat → Nat} (h : mail.Holds card c s f) (hx : Within card s x) :
    Message.told (mail.at? c) x = f x := by
  obtain ⟨m, hm, hcarries⟩ := h
  rw [hm]
  exact hcarries.value_eq x hx

end Mail.Holds

namespace JunctionTree

noncomputable def belowAny (t : JunctionTree) (es : List Nat) : Finset Nat :=
  es.toFinset.biUnion t.below

variable {t : JunctionTree} {e : Nat} {es : List Nat}

theorem mem_belowAny {d : Nat} : d ∈ t.belowAny es ↔ ∃ e ∈ es, d ∈ t.below e := by
  simp [belowAny]

theorem belowAny_cons : t.belowAny (e :: es) = t.below e ∪ t.belowAny es := by
  rw [belowAny, List.toFinset_cons, Finset.biUnion_insert]
  rfl

theorem belowAny_nil : t.belowAny [] = ∅ := rfl

theorem belowAny_mono {es' : List Nat} (h : es ⊆ es') : t.belowAny es ⊆ t.belowAny es' := by
  intro d hd
  obtain ⟨e, he, hde⟩ := mem_belowAny.1 hd
  exact mem_belowAny.2 ⟨e, h he, hde⟩

theorem belowAny_subset_range : t.belowAny es ⊆ Finset.range t.size :=
  Finset.biUnion_subset.2 fun e _ => t.below_subset_range e

theorem Rooted.disjoint_belowAny (h : t.Rooted) {c : Nat} (hes : ∀ d ∈ e :: es, t.parent? d = some c)
    (hnodup : (e :: es).Nodup) : Disjoint (t.below e) (t.belowAny es) := by
  obtain ⟨he, hes⟩ := List.forall_mem_cons.1 hes
  refine (Finset.disjoint_biUnion_right _ _ _).2 fun d hd => ?_
  have hd := List.mem_toFinset.1 hd
  exact h.disjoint_below he (hes d hd) fun hed => (List.nodup_cons.1 hnodup).1 (hed ▸ hd)

theorem Rooted.apart_belowAny (h : t.Rooted) {c : Nat} {D : Finset Nat}
    (hes : ∀ e ∈ es, t.parent? e = some c) (hD : Disjoint D (t.belowAny es)) :
    t.Apart c D (t.belowAny es) := by
  refine ⟨hD, fun v hvD hv => ?_⟩
  obtain ⟨d, hd, hvd⟩ := mem_vars.1 hv
  obtain ⟨e, he, hde⟩ := mem_belowAny.1 hd
  have hsub : t.below e ⊆ t.belowAny es := fun d hd => mem_belowAny.2 ⟨e, he, hd⟩
  exact (h.apart_below (hes e he) (hD.mono_right hsub)).2 v hvD (mem_vars.2 ⟨d, hde, hvd⟩)

end JunctionTree

namespace Propagator

variable {card : Nat → Nat} {how : Reduction} {p : Propagator ℝ} {c e : Nat} {D E : Finset Nat}
  {s : Collected ℝ} {mail : Mail ℝ} {m n : Message ℝ} {t es : List Nat}

theorem carries_multiply (h : p.Fits card) (hD : D ⊆ Finset.range p.tree.size)
    (hE : E ⊆ Finset.range p.tree.size) (hapart : p.tree.Apart c D E)
    (hm : m.Carries card (p.tree.clique c) (p.tells how card c D))
    (hn : n.Carries card t (p.tells how card c E)) (ht : ∀ v ∈ t, v ∈ p.tree.clique c) :
    (m.multiply n).Carries card (p.tree.clique c) (p.tells how card c (D ∪ E)) :=
  (hm.absorb hn ht).congr fun _ _ => (h.tells_union hD hE hapart).symm

/-- Children tell together what all cliques below them tell. -/
theorem prod_told (h : p.Fits card) {x : Nat → Nat} (hes : ∀ e ∈ es, p.tree.parent? e = some c)
    (hnodup : es.Nodup) (hmail : ∀ e ∈ es, mail.Holds card e (p.tree.separatorAbove e)
      (p.tells how card c (p.tree.below e))) (hx : Within card (p.tree.clique c) x) :
    ((es.map mail.at?).map (Message.told · x)).prod =
      p.tells how card c (p.tree.belowAny es) x := by
  induction es with
  | nil => exact Fits.tells_empty.symm
  | cons e es ih =>
    obtain ⟨hhead, htail⟩ := List.forall_mem_cons.1 hes
    obtain ⟨hholds, hmail⟩ := List.forall_mem_cons.1 hmail
    have hdisjoint := h.rooted.disjoint_belowAny hes hnodup
    have hsep : Within card (p.tree.separatorAbove e) x :=
      hx.mono fun v hv => ((h.rooted.mem_separator hhead).1 hv).2
    rw [List.map_cons, List.map_cons, List.prod_cons, hholds.told_eq hsep,
      ih htail (List.nodup_cons.1 hnodup).2 hmail, JunctionTree.belowAny_cons,
      h.tells_union (p.tree.below_subset_range e) JunctionTree.belowAny_subset_range
        (h.rooted.apart_belowAny htail hdisjoint)]

theorem about_children (h : p.Fits card) (hes : ∀ e ∈ es, p.tree.parent? e = some c)
    (hmail : ∀ e ∈ es, mail.Holds card e (p.tree.separatorAbove e)
      (p.tells how card c (p.tree.below e))) :
    ∀ u ∈ es.map mail.at?, Message.About card (p.tree.clique c) u := by
  intro u hu
  obtain ⟨e, he, rfl⟩ := List.mem_map.1 hu
  exact (hmail e he).about fun v hv => ((h.rooted.mem_separator (hes e he)).1 hv).2

theorem Fits.carries_own (h : p.Fits card) (hc : c < p.tree.size) :
    (p.own c).Carries card (p.tree.clique c) (p.tells how card c {c}) :=
  (Message.carries_ofPotential (h.shaped c hc) (h.nonneg c hc)).congr fun _ _ => Fits.tells_self.symm

theorem below_eq (h : p.Fits card) (hc : c < p.tree.size) :
    {c} ∪ p.tree.belowAny (p.tree.children c) = p.tree.below c := by
  ext d
  rw [h.rooted.mem_below_iff hc, Finset.mem_union, Finset.mem_singleton, JunctionTree.mem_belowAny]
  simp only [h.rooted.mem_children]

theorem carries_product (h : p.Fits card) (hc : c < p.tree.size)
    (hmail : ∀ e, p.tree.parent? e = some c → s.upward.Holds card e (p.tree.separatorAbove e)
      (p.tells how card c (p.tree.below e))) :
    (p.product s c).Carries card (p.tree.clique c) (p.tells how card c (p.tree.below c)) := by
  have hself : Disjoint {c} (p.tree.belowAny (p.tree.children c)) := by
    refine Finset.disjoint_singleton_left.2 fun hmem => ?_
    obtain ⟨e, he, hce⟩ := JunctionTree.mem_belowAny.1 hmem
    exact h.rooted.parent_not_mem_below (h.rooted.mem_children.1 he) hce
  have hes : ∀ e ∈ p.tree.children c, p.tree.parent? e = some c :=
    fun e he => h.rooted.mem_children.1 he
  have hholds := fun e he => hmail e (hes e he)
  have hown : (p.own c).Carries card (p.tree.clique c) (p.tells how card c {c}) := h.carries_own hc
  refine (carries_product_told hown (about_children h hes hholds)).congr fun x hx => ?_
  rw [prod_told h hes (JunctionTree.nodup_children h.rooted.nodup c) hholds hx, ← below_eq h hc,
    h.tells_union (by simpa using hc) JunctionTree.belowAny_subset_range
      (h.rooted.apart_belowAny hes hself)]

/-- Keeping the variables shared with the parent gives what the cliques below tell the parent. -/
theorem tells_upward {q : Nat} {x : Nat → Nat} (h : p.Fits card) (hq : p.tree.parent? c = some q) :
    how.over card (p.tree.fresh c) (p.tells how card c (p.tree.below c)) x =
      p.tells how card q (p.tree.below c) x := by
  have hc := (h.rooted.parent?_some hq).1
  refine h.tells_onto (h.rooted.self_mem_below hc)
    (fun v hv => ((h.rooted.mem_separator hq).1 hv).1) fun v hv => ?_
  obtain ⟨d, hd, hvd⟩ := JunctionTree.mem_vars.1 hv
  constructor
  · exact h.rooted.crossing hq hd hvd (h.rooted.parent_not_mem_below hq)
  · exact fun hvs => ((h.rooted.mem_separator hq).1 hvs).2

theorem carries_upward {q : Nat} (h : p.Fits card) (hq : p.tree.parent? c = some q)
    (hm : m.Carries card (p.tree.clique c) (p.tells how card c (p.tree.below c))) :
    (m.onto (p.tree.separatorAbove c) how).Carries card (p.tree.separatorAbove c)
      (p.tells how card q (p.tree.below c)) := by
  have hscope : (p.tree.clique c).filter (p.tree.separatorAbove c).contains =
      p.tree.separatorAbove c := by
    rw [h.rooted.separator c q hq]
    exact Scope.filter_inter
  have honto := hm.onto (p.tree.separatorAbove c) how
  rw [hscope] at honto
  exact honto.congr fun x _ => tells_upward h hq

/-- Collecting has been done right for some cliques. -/
structure Sent (card : Nat → Nat) (p : Propagator ℝ) (how : Reduction) (done : List Nat)
    (s : Collected ℝ) : Prop where
  how_eq : s.how = how
  size_upward : s.upward.size = p.tree.size
  size_gathered : s.gathered.size = p.tree.size
  gathered : ∀ c ∈ done, s.gathered.Holds card c (p.tree.clique c)
    (p.tells how card c (p.tree.below c))
  upward : ∀ c ∈ done, ∀ q, p.tree.parent? c = some q →
    s.upward.Holds card c (p.tree.separatorAbove c) (p.tells how card q (p.tree.below c))

theorem sent_gather (h : p.Fits card) {done : List Nat} (hs : p.Sent card how done s)
    (hc : c < p.tree.size) (hnew : c ∉ done)
    (hchildren : ∀ e, p.tree.parent? e = some c → e ∈ done) :
    p.Sent card how (done ++ [c]) (p.gather s c) := by
  have hproduct : (p.product s c).Carries card (p.tree.clique c)
      (p.tells how card c (p.tree.below c)) :=
    carries_product h hc fun e he => hs.upward e (hchildren e he) c he
  refine ⟨hs.how_eq, ?_, by rw [gather, Mail.size_put, hs.size_gathered], fun d hd => ?_,
    fun d hd q hq => ?_⟩
  · rw [gather]
    cases p.tree.parent? c with
    | none => exact hs.size_upward
    | some _ => rw [Mail.size_put, hs.size_upward]
  · obtain hd | hd := List.mem_append.1 hd
    · exact (hs.gathered d hd).put_ne fun hdc => hnew (hdc ▸ hd)
    · obtain rfl := List.mem_singleton.1 hd
      exact Mail.Holds.put_same (hs.size_gathered ▸ hc) hproduct
  · obtain hd | hd := List.mem_append.1 hd
    · have hdc : d ≠ c := fun hdc => hnew (hdc ▸ hd)
      rw [gather]
      cases p.tree.parent? c with
      | none => exact hs.upward d hd q hq
      | some _ => exact (hs.upward d hd q hq).put_ne hdc
    · obtain rfl := List.mem_singleton.1 hd
      rw [gather]
      simp only [hq, hs.how_eq]
      exact Mail.Holds.put_same (hs.size_upward ▸ hc) (carries_upward h hq hproduct)

theorem sent_collectAll (h : p.Fits card) (how : Reduction) :
    p.Sent card how p.tree.postorder (p.collectAll how) := by
  refine foldl_invariant (fun done s => p.Sent card how done s) ?_ fun done c rest s hl hs => ?_
  · exact ⟨rfl, by simp [noMail], by simp [noMail], by simp, by simp⟩
  · obtain ⟨hc, hnew, hchildren⟩ := h.rooted.postorder_visit hl
    exact sent_gather h hs hc hnew hchildren

theorem mem_postorder (h : p.Fits card) (hc : c < p.tree.size) : c ∈ p.tree.postorder :=
  List.mem_reverse.2 ((h.rooted.mem_preorder c).2 hc)

end Propagator
end Bayes
