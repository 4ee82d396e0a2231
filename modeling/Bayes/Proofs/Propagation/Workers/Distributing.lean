import Bayes.Propagation.Workers
import Bayes.Proofs.Propagation.Order
/-!
Distributing by several workers. A clique becomes ready with the turn of its parent, so whatever cliques
the workers take, every clique has one turn, after its parent.
-/
namespace Bayes.Propagator

variable {α : Type} [Scalar α] {p : Propagator α} {collected : Collected α} {turns order : List Nat}
  {c : Nat} {w w' : Distributing α}

structure Spreading (p : Propagator α) (collected : Collected α) (turns : List Nat)
    (w : Distributing α) : Prop where
  scheduled : Scheduled p.tree.AwaitsParent p.tree.size turns
  nodup_ready : w.ready.Nodup
  mem_ready : ∀ c, c ∈ w.ready ↔
    c < p.tree.size ∧ c ∉ turns ∧ ∀ q, p.tree.parent? c = some q → q ∈ turns
  spread : w.spread = turns.foldl (p.spread collected) ⟨p.noMail, p.noMail⟩

theorem spreading_start (ht : p.tree.Rooted) (collected : Collected α) :
    p.Spreading collected [] p.startDistributing := by
  refine ⟨.nil, List.nodup_singleton _, fun c => ?_, rfl⟩
  have hroot : c ∈ (p.startDistributing : Distributing α).ready ↔ c = p.tree.root := by
    simp [startDistributing]
  rw [hroot]
  constructor
  · rintro rfl
    simp [ht.root_lt, ht.parent_root]
  · rintro ⟨hc, -, hparent⟩
    by_contra hcr
    obtain ⟨q, -, hq, -⟩ := ht.parent c hc hcr
    simpa using hparent q hq

theorem spreading_turn (ht : p.tree.Rooted) (hs : p.Spreading collected turns w) (hc : c ∈ w.ready) :
    p.Spreading collected (turns ++ [c])
      ⟨p.tree.children c ++ w.ready.erase c, p.spread collected w.spread c⟩ := by
  obtain ⟨hlt, hnew, hparent⟩ := (hs.mem_ready c).1 hc
  have hchild {d : Nat} (hd : p.tree.parent? d = some c) : d ∉ w.ready ∧ d ∉ turns ∧ d ≠ c := by
    refine ⟨fun hmem => hnew (((hs.mem_ready d).1 hmem).2.2 c hd),
      fun hmem => hnew (hs.scheduled.inOrder.mem hmem hd), ?_⟩
    rintro rfl
    exact hnew (hparent d hd)
  refine ⟨hs.scheduled.concat hlt hnew hparent, ?_, fun d => ?_, ?_⟩
  · refine List.nodup_append.2 ⟨JunctionTree.nodup_children ht.nodup c, hs.nodup_ready.erase c,
      fun d hd e he hde => ?_⟩
    exact (hchild (ht.mem_children.1 hd)).1 (hde ▸ List.mem_of_mem_erase he)
  · rw [List.mem_append, ht.mem_children, hs.nodup_ready.mem_erase_iff, hs.mem_ready, List.mem_append,
      List.mem_singleton, not_or]
    constructor
    · rintro (hd | ⟨hdc, hdlt, hdnew, hdparent⟩)
      · refine ⟨(ht.parent?_some hd).1, (hchild hd).2, fun q hq => ?_⟩
        obtain rfl : c = q := Option.some.inj (hd.symm.trans hq)
        exact List.mem_append_right _ List.mem_cons_self
      · exact ⟨hdlt, ⟨hdnew, hdc⟩, fun q hq => List.mem_append_left _ (hdparent q hq)⟩
    · rintro ⟨hdlt, ⟨hdnew, hdc⟩, hdparent⟩
      by_cases hd : p.tree.parent? d = some c
      · exact Or.inl hd
      · refine Or.inr ⟨hdc, hdlt, hdnew, fun q hq => ?_⟩
        obtain hmem | hmem := List.mem_append.1 (hdparent q hq)
        · exact hmem
        · exact absurd (List.mem_singleton.1 hmem ▸ hq) hd
  · rw [List.foldl_append, ← hs.spread]
    rfl

theorem distributeTurn?_eq_some : p.distributeTurn? collected w c = some w' ↔ c ∈ w.ready ∧
    ⟨p.tree.children c ++ w.ready.erase c, p.spread collected w.spread c⟩ = w' := by
  rw [distributeTurn?, Option.ite_none_right_eq_some, Option.some_inj, List.contains_iff_mem]

theorem spreading_foldlM (ht : p.tree.Rooted) {more : List Nat} (hs : p.Spreading collected turns w)
    (h : more.foldlM (p.distributeTurn? collected) w = some w') :
    p.Spreading collected (turns ++ more) w' := by
  induction more generalizing turns w with
  | nil =>
    cases h
    simpa using hs
  | cons c more ih =>
    rw [List.foldlM_cons] at h
    obtain ⟨next, hnext, h⟩ := Option.bind_eq_some_iff.1 h
    obtain ⟨hc, rfl⟩ := distributeTurn?_eq_some.1 hnext
    have hrest := ih (spreading_turn ht hs hc) h
    rwa [List.append_assoc] at hrest

theorem Spreading.perm (ht : p.tree.Rooted) (hs : p.Spreading collected turns w)
    (hdone : w.ready = []) : turns.Perm (List.range p.tree.size) := by
  refine hs.scheduled.perm ht.inOrder_preorder ht.perm_preorder fun c hc hnew hwaits => ?_
  have hready : c ∈ w.ready := (hs.mem_ready c).2 ⟨hc, hnew, hwaits⟩
  simp [hdone] at hready

theorem Spreading.completes (ht : p.tree.Rooted) (k : Nat) : ∀ {turns : List Nat} {w : Distributing α},
    p.Spreading collected turns w → p.tree.size - turns.length = k →
      ∃ (rest : List Nat) (w' : Distributing α),
        rest.foldlM (p.distributeTurn? collected) w = some w' ∧ w'.ready = [] := by
  induction k using Nat.strong_induction_on with
  | _ k ih =>
    intro turns w hs hk
    cases hready : w.ready with
    | nil => exact ⟨[], w, rfl, hready⟩
    | cons c ready =>
      have hc : c ∈ w.ready := by simp [hready]
      have hturn := spreading_turn ht hs hc
      have hlength := hturn.scheduled.length_le
      rw [List.length_append, List.length_singleton] at hlength
      obtain ⟨rest, w', hrest, hdone⟩ := ih _ (by
        rw [List.length_append, List.length_singleton]
        omega) hturn rfl
      refine ⟨c :: rest, w', ?_, hdone⟩
      rw [List.foldlM_cons, distributeTurn?_eq_some.2 ⟨hc, rfl⟩]
      exact hrest

theorem distribute_of_order (ht : p.tree.Rooted) (hrun : p.cancelled = false)
    (collected : Collected α) (hperm : order.Perm (List.range p.tree.size))
    (horder : InOrder p.tree.AwaitsParent order) :
    p.distribute collected =
      let s := order.foldl (p.spread collected) ⟨p.noMail, p.noMail⟩
      .ok ⟨collected.upward, s.downward, s.beliefs, collected.logTotal p.tree.root⟩ := by
  rw [foldl_spread_eq ht collected hperm horder, distribute, hrun]
  rfl

/-- What is true of a shared distributing pass after some turns: no clique had its turn twice or before
its parent, and the pass can be brought to an end; and when it has come to its end, every clique has had
its turn, and the pass leaves behind what visiting them in preorder does. -/
structure DistributesRight (p : Propagator α) (collected : Collected α) (turns : List Nat)
    (w : Distributing α) : Prop where
  scheduled : Scheduled p.tree.AwaitsParent p.tree.size turns
  completes : ∃ rest w', p.distributeTurns? collected (turns ++ rest) = some w' ∧ w'.ready = []
  all : w.ready = [] → turns.Perm (List.range p.tree.size)
  result : w.ready = [] → p.distribute collected =
    .ok ⟨collected.upward, w.spread.downward, w.spread.beliefs, collected.logTotal p.tree.root⟩

theorem distributesRight (ht : p.tree.Rooted) (hrun : p.cancelled = false)
    (h : p.distributeTurns? collected turns = some w) : p.DistributesRight collected turns w := by
  rw [distributeTurns?] at h
  have hs := spreading_foldlM ht (spreading_start ht collected) h
  rw [List.nil_append] at hs
  refine ⟨hs.scheduled, ?_, hs.perm ht, fun hdone => ?_⟩
  · obtain ⟨rest, w', hrest, hdone⟩ := hs.completes ht _ rfl
    refine ⟨rest, w', ?_, hdone⟩
    rw [distributeTurns?, List.foldlM_append, h]
    exact hrest
  · rw [hs.spread]
    exact distribute_of_order ht hrun collected (hs.perm ht hdone) hs.scheduled.inOrder

end Bayes.Propagator
