import Bayes.Propagation.Workers
import Bayes.Proofs.Propagation.Order
/-!
Collecting by several workers. Whatever cliques they take, and whenever they tell the parents, every
clique is visited once and after all its children. The counter of a clique is at any time the number of
children that have not told it, so it comes to zero once, and then the clique becomes ready.
-/
namespace Bayes

theorem countP_succ {l : List Nat} (hnodup : l.Nodup) {e : Nat} (he : e ∈ l) {P Q : Nat → Bool}
    (hP : P e = true) (hQ : Q e = false) (h : ∀ d, d ≠ e → P d = Q d) :
    l.countP P = l.countP Q + 1 := by
  have hperm := List.perm_cons_erase he
  have hrest : (l.erase e).countP P = (l.erase e).countP Q :=
    List.countP_congr fun d hd => by rw [h d (hnodup.mem_erase_iff.1 hd).1]
  rw [hperm.countP_eq, hperm.countP_eq, List.countP_cons, List.countP_cons, hP, hQ, hrest]
  rfl

namespace Collecting

def Step.visited? : Step → Option Nat
  | .visit c => some c
  | .notify _ => none

def visits (steps : List Step) : List Nat := steps.filterMap Step.visited?

theorem visits_cons (step : Step) (steps : List Step) :
    visits (step :: steps) = step.visited?.toList ++ visits steps := by
  cases step <;> rfl

/-- A clique was visited and is not silent, so it has told its parent. -/
def Told (visits silent : List Nat) (c : Nat) : Prop := c ∈ visits ∧ c ∉ silent

instance (visits silent : List Nat) (c : Nat) : Decidable (Told visits silent c) :=
  inferInstanceAs (Decidable (_ ∧ _))

end Collecting

def Overlapping.Done {α : Type} (w : Overlapping α) : Prop := w.ready = [] ∧ w.silent = []

namespace Propagator
open Collecting (Told)

variable {α : Type} [Scalar α] {p : Propagator α} {how : Reduction} {visits : List Nat} {c d : Nat}
  {w w' : Overlapping α} {steps : List Collecting.Step}

structure Standing (p : Propagator α) (how : Reduction) (visits : List Nat) (w : Overlapping α) :
    Prop where
  scheduled : Scheduled p.tree.AwaitsChild p.tree.size visits
  told : ∀ c ∈ visits, ∀ d, p.tree.parent? d = some c → Told visits w.silent d
  nodup_silent : w.silent.Nodup
  visited : ∀ c ∈ w.silent, c ∈ visits
  nodup_ready : w.ready.Nodup
  mem_ready : ∀ c, c ∈ w.ready ↔
    c < p.tree.size ∧ c ∉ visits ∧ ∀ d, p.tree.parent? d = some c → Told visits w.silent d
  pending : ∀ c < p.tree.size,
    w.pending[c]? = some ((p.tree.children c).countP fun d => ¬ Told visits w.silent d)
  collected : w.collected = visits.foldl p.gather ⟨how, p.noMail, p.noMail⟩

theorem standing_start (ht : p.tree.Rooted) (how : Reduction) :
    p.Standing how [] ⟨p.startCollecting how, []⟩ := by
  have htold (d : Nat) : ¬ Told [] [] d := fun h => by simpa using h.1
  refine ⟨.nil, by simp, List.nodup_nil, by simp, List.nodup_range.filter _, fun c => ?_,
    fun c hc => ?_, rfl⟩
  · have hnone : p.tree.children c = [] ↔ ∀ d, p.tree.parent? d ≠ some c := by
      simp [List.eq_nil_iff_forall_not_mem, ht.mem_children]
    simp [startCollecting, JunctionTree.leaves, hnone, htold]
  · simp [startCollecting, htold, hc]

/-! One step -/

theorem standing_visit (hs : p.Standing how visits w) (hc : c ∈ w.ready) :
    p.Standing how (visits ++ [c]) { w with
      ready := w.ready.erase c
      collected := p.gather w.collected c
      silent := c :: w.silent } := by
  obtain ⟨hlt, hnew, hchildren⟩ := (hs.mem_ready c).1 hc
  have hsilent : c ∉ w.silent := fun hmem => hnew (hs.visited c hmem)
  -- a clique that was just visited has told nobody
  have htold (d : Nat) : Told (visits ++ [c]) (c :: w.silent) d ↔ Told visits w.silent d := by
    simp only [Told, List.mem_append, List.mem_cons, List.not_mem_nil, or_false, not_or]
    constructor
    · rintro ⟨hd | rfl, hne, hd'⟩
      · exact ⟨hd, hd'⟩
      · exact absurd rfl hne
    · rintro ⟨hd, hd'⟩
      exact ⟨Or.inl hd, fun hdc => hnew (hdc ▸ hd), hd'⟩
  refine ⟨hs.scheduled.concat hlt hnew fun d hd => (hchildren d hd).1, fun e he d hd => ?_,
    List.nodup_cons.2 ⟨hsilent, hs.nodup_silent⟩, fun d hd => ?_, hs.nodup_ready.erase c,
    fun e => ?_, fun e he => ?_, ?_⟩
  · rw [htold]
    obtain he | he := List.mem_append.1 he
    · exact hs.told e he d hd
    · exact hchildren d (List.mem_singleton.1 he ▸ hd)
  · obtain rfl | hd := List.mem_cons.1 hd
    · simp
    · exact List.mem_append_left _ (hs.visited d hd)
  · simp only [htold]
    rw [hs.nodup_ready.mem_erase_iff, hs.mem_ready, List.mem_append, List.mem_singleton, not_or]
    tauto
  · simp only [htold]
    exact hs.pending e he
  · rw [List.foldl_append, ← hs.collected]
    rfl

section Notify

variable (w : Collecting α)

omit [Scalar α] in
theorem pending_notify (c e : Nat) : (p.notify w c).pending[e]? =
    if p.tree.parent? c = some e then (w.pending[e]?).map (· - 1) else w.pending[e]? := by
  rw [notify]
  cases p.tree.parent? c with
  | none => rfl
  | some q => simp [Array.getElem?_modify]

omit [Scalar α] in
theorem ready_notify (c : Nat) : (p.notify w c).ready =
    match p.tree.parent? c with
    | some q => if w.pending[q]? = some 1 then q :: w.ready else w.ready
    | none => w.ready := by
  rw [notify]
  cases p.tree.parent? c <;> rfl

omit [Scalar α] in
theorem collected_notify (c : Nat) : (p.notify w c).collected = w.collected := by
  rw [notify]
  cases p.tree.parent? c <;> rfl

end Notify

namespace Standing

variable {q : Nat}

theorem told_erase (hs : p.Standing how visits w) (hc : c ∈ w.silent) (d : Nat) :
    Told visits (w.silent.erase c) d ↔ d = c ∨ Told visits w.silent d := by
  simp only [Told, hs.nodup_silent.mem_erase_iff, not_and]
  constructor
  · rintro ⟨hd, hnot⟩
    tauto
  · rintro (rfl | ⟨hd, hnot⟩)
    · exact ⟨hs.visited _ hc, by simp⟩
    · exact ⟨hd, fun _ => hnot⟩

/-- The parent of a silent clique was not visited, and is not ready. -/
theorem parent_waits (hs : p.Standing how visits w) (hc : c ∈ w.silent)
    (hq : p.tree.parent? c = some q) : q ∉ visits ∧ q ∉ w.ready :=
  have hsilent : ¬ Told visits w.silent c := fun h => h.2 hc
  ⟨fun hqv => hsilent (hs.told q hqv c hq), fun hqr => hsilent (((hs.mem_ready q).1 hqr).2.2 c hq)⟩

theorem countP_erase (ht : p.tree.Rooted) (hs : p.Standing how visits w) (hc : c ∈ w.silent)
    (hq : p.tree.parent? c = some q) :
    (p.tree.children q).countP (fun d => ¬ Told visits w.silent d) =
      (p.tree.children q).countP (fun d => ¬ Told visits (w.silent.erase c) d) + 1 :=
  have hsilent : ¬ Told visits w.silent c := fun h => h.2 hc
  countP_succ (JunctionTree.nodup_children ht.nodup q) (ht.mem_children.2 hq) (by simp [hsilent])
    (by simp [hs.told_erase hc]) fun d hd => by simp [hs.told_erase hc, hd]

/-- The counter of the parent is at one just when this is its last child. -/
theorem pending_eq_one (ht : p.tree.Rooted) (hs : p.Standing how visits w) (hc : c ∈ w.silent)
    (hq : p.tree.parent? c = some q) : w.pending[q]? = some 1 ↔
      ∀ d, p.tree.parent? d = some q → Told visits (w.silent.erase c) d := by
  rw [hs.pending q (ht.parent?_some hq).2.1, hs.countP_erase ht hc hq]
  simp [List.countP_eq_zero, ht.mem_children]

omit [Scalar α] in
theorem ne_of_child (hc : p.tree.parent? c ≠ some q) (hd : p.tree.parent? d = some q) : d ≠ c :=
  fun hdc => hc (hdc ▸ hd)

theorem nodup_ready_notify (hs : p.Standing how visits w) (hc : c ∈ w.silent) :
    (p.notify w.toCollecting c).ready.Nodup := by
  rw [ready_notify]
  cases hq : p.tree.parent? c with
  | none => exact hs.nodup_ready
  | some q =>
    simp only
    split
    · exact List.nodup_cons.2 ⟨(hs.parent_waits hc hq).2, hs.nodup_ready⟩
    · exact hs.nodup_ready

theorem mem_ready_notify (ht : p.tree.Rooted) (hs : p.Standing how visits w) (hc : c ∈ w.silent)
    (e : Nat) : e ∈ (p.notify w.toCollecting c).ready ↔ e < p.tree.size ∧ e ∉ visits ∧
      ∀ d, p.tree.parent? d = some e → Told visits (w.silent.erase c) d := by
  have hother (he : p.tree.parent? c ≠ some e) : e ∈ w.ready ↔ e < p.tree.size ∧ e ∉ visits ∧
      ∀ d, p.tree.parent? d = some e → Told visits (w.silent.erase c) d := by
    rw [hs.mem_ready]
    refine and_congr_right fun _ => and_congr_right fun _ => forall₂_congr fun d hd => ?_
    rw [hs.told_erase hc, or_iff_right (ne_of_child he hd)]
  rw [ready_notify]
  cases hq : p.tree.parent? c with
  | none => exact hother (by simp [hq])
  | some q =>
    simp only
    by_cases heq : e = q
    · subst heq
      obtain ⟨hnew, hidle⟩ := hs.parent_waits hc hq
      rw [← hs.pending_eq_one ht hc hq]
      split
      · next hone => simp [(ht.parent?_some hq).2.1, hnew, hone]
      · next hmore => simp [hidle, hmore]
    · have hne : p.tree.parent? c ≠ some e := fun he => heq (Option.some.inj (he.symm.trans hq))
      rw [← hother hne]
      split
      · simp [heq]
      · rfl

end Standing

theorem standing_notify (ht : p.tree.Rooted) (hs : p.Standing how visits w) (hc : c ∈ w.silent) :
    p.Standing how visits ⟨p.notify w.toCollecting c, w.silent.erase c⟩ := by
  refine ⟨hs.scheduled, fun e he d hd => (hs.told_erase hc d).2 (Or.inr (hs.told e he d hd)),
    hs.nodup_silent.erase c, fun d hd => hs.visited d (List.mem_of_mem_erase hd),
    hs.nodup_ready_notify hc, hs.mem_ready_notify ht hc, fun e he => ?_,
    (collected_notify w.toCollecting c).trans hs.collected⟩
  rw [pending_notify, hs.pending e he]
  split
  · next hq =>
    rw [hs.countP_erase ht hc hq]
    rfl
  · next hq =>
    refine congrArg some (List.countP_congr fun d hd => ?_)
    simp [hs.told_erase hc, Standing.ne_of_child hq (ht.mem_children.1 hd)]

theorem collectStep?_visit : p.collectStep? w (.visit c) = some w' ↔ c ∈ w.ready ∧
    { w with
      ready := w.ready.erase c
      collected := p.gather w.collected c
      silent := c :: w.silent } = w' := by
  rw [collectStep?, Option.ite_none_right_eq_some, Option.some_inj, List.contains_iff_mem]

theorem collectStep?_notify : p.collectStep? w (.notify c) = some w' ↔
    c ∈ w.silent ∧ ⟨p.notify w.toCollecting c, w.silent.erase c⟩ = w' := by
  rw [collectStep?, Option.ite_none_right_eq_some, Option.some_inj, List.contains_iff_mem]

theorem standing_step (ht : p.tree.Rooted) {step : Collecting.Step} (hs : p.Standing how visits w)
    (h : p.collectStep? w step = some w') :
    p.Standing how (visits ++ step.visited?.toList) w' := by
  cases step with
  | visit c =>
    obtain ⟨hc, rfl⟩ := collectStep?_visit.1 h
    exact standing_visit hs hc
  | notify c =>
    obtain ⟨hc, rfl⟩ := collectStep?_notify.1 h
    simpa [Collecting.Step.visited?] using standing_notify ht hs hc

/-! All steps -/

theorem standing_foldlM (ht : p.tree.Rooted) (hs : p.Standing how visits w)
    (h : steps.foldlM p.collectStep? w = some w') :
    p.Standing how (visits ++ Collecting.visits steps) w' := by
  induction steps generalizing visits w with
  | nil =>
    cases h
    simpa [Collecting.visits] using hs
  | cons step steps ih =>
    rw [List.foldlM_cons] at h
    obtain ⟨next, hnext, h⟩ := Option.bind_eq_some_iff.1 h
    rw [Collecting.visits_cons, ← List.append_assoc]
    exact ih (standing_step ht hs hnext) h

theorem length_foldlM (h : steps.foldlM p.collectStep? w = some w') :
    steps.length + w'.silent.length = 2 * (Collecting.visits steps).length + w.silent.length := by
  induction steps generalizing w with
  | nil =>
    cases h
    simp [Collecting.visits]
  | cons step steps ih =>
    rw [List.foldlM_cons] at h
    obtain ⟨next, hnext, h⟩ := Option.bind_eq_some_iff.1 h
    have hrest := ih h
    rw [Collecting.visits_cons, List.length_append, List.length_cons]
    cases step with
    | visit c =>
      obtain ⟨-, rfl⟩ := collectStep?_visit.1 hnext
      rw [List.length_cons] at hrest
      simp only [Collecting.Step.visited?, Option.toList_some, List.length_singleton]
      omega
    | notify c =>
      obtain ⟨hc, rfl⟩ := collectStep?_notify.1 hnext
      have hlength := List.length_erase_of_mem hc
      have hpos := List.length_pos_of_mem hc
      simp only [hlength] at hrest
      simp only [Collecting.Step.visited?, Option.toList_none, List.length_nil]
      omega

theorem Standing.perm (ht : p.tree.Rooted) (hs : p.Standing how visits w) (hdone : w.Done) :
    visits.Perm (List.range p.tree.size) := by
  refine hs.scheduled.perm ht.inOrder_postorder ht.perm_postorder fun c hc hnew hwaits => ?_
  have hready : c ∈ w.ready :=
    (hs.mem_ready c).2 ⟨hc, hnew, fun d hd => ⟨hwaits d hd, by simp [hdone.2]⟩⟩
  simp [hdone.1] at hready

/-- As long as something is left to do, a worker can do it; and there is less and less of it. -/
theorem Standing.completes (ht : p.tree.Rooted) (k : Nat) : ∀ {visits : List Nat} {w : Overlapping α},
    p.Standing how visits w → 2 * (p.tree.size - visits.length) + w.silent.length = k →
      ∃ (rest : List Collecting.Step) (w' : Overlapping α),
        rest.foldlM p.collectStep? w = some w' ∧ w'.Done := by
  induction k using Nat.strong_induction_on with
  | _ k ih =>
    intro visits w hs hk
    cases hsilent : w.silent with
    | cons c silent =>
      have hc : c ∈ w.silent := by simp [hsilent]
      have hlength := List.length_erase_of_mem hc
      have hpos := List.length_pos_of_mem hc
      obtain ⟨rest, w', hrest, hdone⟩ := ih _ (by simp only [hlength]; omega)
        (standing_notify ht hs hc) rfl
      refine ⟨.notify c :: rest, w', ?_, hdone⟩
      rw [List.foldlM_cons, collectStep?_notify.2 ⟨hc, rfl⟩]
      exact hrest
    | nil =>
      cases hready : w.ready with
      | nil => exact ⟨[], w, rfl, hready, hsilent⟩
      | cons c ready =>
        have hc : c ∈ w.ready := by simp [hready]
        have hvisited := standing_visit hs hc
        have hlength := hvisited.scheduled.length_le
        rw [List.length_append, List.length_singleton] at hlength
        obtain ⟨rest, w', hrest, hdone⟩ := ih _ (by
          simp only [List.length_append, List.length_cons, List.length_nil]
          omega) hvisited rfl
        refine ⟨.visit c :: rest, w', ?_, hdone⟩
        rw [List.foldlM_cons, collectStep?_visit.2 ⟨hc, rfl⟩]
        exact hrest

/-- What is true of a shared collecting pass after some steps: no clique was visited twice or before one
of its children, there are no more than two steps for each clique, and the pass can be brought to an end;
and when it has come to its end, all cliques have been visited, and it leaves behind what visiting them
in postorder does. -/
structure CollectsRight (p : Propagator α) (how : Reduction) (steps : List Collecting.Step)
    (w : Overlapping α) : Prop where
  scheduled : Scheduled p.tree.AwaitsChild p.tree.size (Collecting.visits steps)
  length_le : steps.length ≤ 2 * p.tree.size
  completes : ∃ rest w', p.collectSteps? how (steps ++ rest) = some w' ∧ w'.Done
  all : w.Done → (Collecting.visits steps).Perm (List.range p.tree.size)
  result : w.Done → p.collect how = .ok w.collected

theorem collectsRight (ht : p.tree.Rooted) (hrun : p.cancelled = false)
    (h : p.collectSteps? how steps = some w) : p.CollectsRight how steps w := by
  rw [collectSteps?] at h
  have hs := standing_foldlM ht (standing_start ht how) h
  rw [List.nil_append] at hs
  refine ⟨hs.scheduled, ?_, ?_, hs.perm ht, fun hdone => ?_⟩
  · have hlength := length_foldlM h
    have hvisits := hs.scheduled.length_le
    rw [List.length_nil] at hlength
    omega
  · obtain ⟨rest, w', hrest, hdone⟩ := hs.completes ht _ rfl
    refine ⟨rest, w', ?_, hdone⟩
    rw [collectSteps?, List.foldlM_append, h]
    exact hrest
  · rw [collect, hrun, hs.collected,
      foldl_gather_eq ht how (hs.perm ht hdone) hs.scheduled.inOrder]
    rfl

end Propagator
end Bayes
