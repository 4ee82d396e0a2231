import Bayes.Proofs.Network.Insertion
import Bayes.Proofs.Network.Order
import Bayes.Proofs.Scope
/-!
A topological order by counting. Every variable has a counter of the parents that it still waits for, and
the variables that wait for none are kept in increasing order; the lowest of them is taken, and the
counters of its children go down by one. What is counted are the parents that are not placed yet, so no
counter goes below zero, and the order is the one that looks through all variables each time.
-/
namespace Bayes.Network

variable {α : Type} {n : Network α} {placed : List Nat} {v w c : Nat}

/-! Counters -/

structure Countdown where
  waits : List Nat
  ready : List Nat

namespace Countdown

/-- There is one parent less to wait for. A counter that is not there, or is zero, can not go down. -/
def release (s : Countdown) (c : Nat) : Option Countdown :=
  match s.waits[c]? with
  | none | some 0 => none
  | some (k + 1) => some ⟨s.waits.set c k, if k = 0 then Scope.insert c s.ready else s.ready⟩

def weight (s : Countdown) : Nat := s.waits.sum + s.ready.length

theorem release_eq {s : Countdown} {k : Nat} (h : s.waits[c]? = some (k + 1)) :
    s.release c = some ⟨s.waits.set c k, if k = 0 then Scope.insert c s.ready else s.ready⟩ := by
  rw [release, h]

theorem release_eq_some {s t : Countdown} (h : s.release c = some t) : ∃ k,
    s.waits[c]? = some (k + 1) ∧
      t = ⟨s.waits.set c k, if k = 0 then Scope.insert c s.ready else s.ready⟩ := by
  rw [release] at h
  split at h
  · cases h
  · cases h
  · next k hk => exact ⟨k, hk, (Option.some.inj h).symm⟩

theorem sum_set_add {l : List Nat} {k : Nat} (h : l[c]? = some k) (x : Nat) :
    (l.set c x).sum + k = l.sum + x := by
  induction l generalizing c with
  | nil => cases h
  | cons y l ih =>
    cases c with
    | zero =>
      obtain rfl := Option.some.inj h
      simp only [List.set_cons_zero, List.sum_cons]
      omega
    | succ c =>
      have := ih (c := c) h
      simp only [List.set_cons_succ, List.sum_cons]
      omega

theorem length_insert_le (c : Nat) (s : List Nat) : (Scope.insert c s).length ≤ s.length + 1 := by
  fun_induction Scope.insert c s <;> simp_all

theorem weight_release_le {s t : Countdown} (h : s.release c = some t) : t.weight ≤ s.weight := by
  obtain ⟨k, hk, rfl⟩ := release_eq_some h
  have hsum := sum_set_add hk k
  have hlength := length_insert_le c s.ready
  simp only [weight]
  split <;> omega

theorem weight_releaseAll_le (l : List Nat) : ∀ s t : Countdown, l.foldlM release s = some t →
    t.weight ≤ s.weight := by
  induction l with
  | nil =>
    intro s t h
    obtain rfl := Option.some.inj h
    exact Nat.le_refl _
  | cons c l ih =>
    intro s t h
    rw [List.foldlM_cons] at h
    obtain ⟨u, hu, h⟩ := Option.bind_eq_some_iff.1 h
    exact (ih u t h).trans (weight_release_le hu)

end Countdown

def countdown (n : Network α) : Countdown → Option (List Nat)
  | ⟨_, []⟩ => some []
  | ⟨waits, v :: ready⟩ =>
    match _h : (n.children v).foldlM Countdown.release ⟨waits, ready⟩ with
    | none => none
    | some s => (n.countdown s).map (v :: ·)
termination_by s => s.weight
decreasing_by
  have hle := Countdown.weight_releaseAll_le _ _ _ _h
  simp only [Countdown.weight, List.length_cons] at hle ⊢
  omega

def countedOrder (n : Network α) : Option (List Nat) :=
  n.countdown ⟨n.ids.map fun v => (n.parents v).length, n.ids.filter fun v => (n.parents v).isEmpty⟩

theorem countdown_cons {waits ready : List Nat} {s : Countdown}
    (h : (n.children v).foldlM Countdown.release ⟨waits, ready⟩ = some s) :
    n.countdown ⟨waits, v :: ready⟩ = (n.countdown s).map (v :: ·) := by
  rw [countdown]
  split
  · next hnone =>
    rw [h] at hnone
    cases hnone
  · next t ht =>
    rw [h] at ht
    rw [Option.some.inj ht]

/-! What is counted -/

/-- The counters are those of some lists of variables to wait for. -/
structure Counts (n : Network α) (left : Nat → List Nat) (placed : List Nat) (s : Countdown) : Prop where
  waits : ∀ v < n.size, s.waits[v]? = some (left v).length
  increasing : Scope.Increasing s.ready
  mem_ready : ∀ v, v ∈ s.ready ↔ v < n.size ∧ v ∉ placed ∧ left v = []

theorem Counts.release {left : Nat → List Nat} {s : Countdown} (h : n.Counts left placed s)
    (hc : c < n.size) (hnew : c ∉ placed) (hv : v ∈ left c) : ∃ t, s.release c = some t ∧
      n.Counts (Function.update left c ((left c).erase v)) placed t := by
  have hwaits : s.waits[c]? = some (((left c).erase v).length + 1) := by
    rw [h.waits c hc, List.length_erase_add_one hv]
  obtain ⟨hbound, -⟩ := List.getElem?_eq_some_iff.1 hwaits
  have hother {w : Nat} (hw : w ≠ c) : Function.update left c ((left c).erase v) w = left w :=
    Function.update_of_ne hw _ _
  refine ⟨_, Countdown.release_eq hwaits, fun w hw => ?_, ?_, fun w => ?_⟩
  · rw [List.getElem?_set]
    by_cases hwc : c = w
    · subst hwc
      rw [if_pos rfl, if_pos hbound, Function.update_self]
    · rw [if_neg hwc, hother (Ne.symm hwc), h.waits w hw]
  · dsimp only
    split
    · exact Scope.increasing_insert h.increasing
    · exact h.increasing
  · by_cases hw : w = c
    · subst hw
      rw [Function.update_self, ← List.length_eq_zero_iff]
      split
      · next hzero => simp [Scope.mem_insert, hzero, hc, hnew]
      · next hzero => simp [h.mem_ready, hzero, List.ne_nil_of_mem hv]
    · rw [hother hw, ← h.mem_ready]
      split
      · simp [Scope.mem_insert, hw]
      · rfl

theorem Counts.releaseAll (l : List Nat) : ∀ {left : Nat → List Nat} {s : Countdown},
    n.Counts left placed s → l.Nodup → (∀ c ∈ l, c < n.size ∧ c ∉ placed ∧ v ∈ left c) →
    ∃ t, l.foldlM Countdown.release s = some t ∧
      n.Counts (fun c => if c ∈ l then (left c).erase v else left c) placed t := by
  induction l with
  | nil =>
    intro left s h _ _
    exact ⟨s, rfl, by simpa using h⟩
  | cons c l ih =>
    intro left s h hl hall
    obtain ⟨hc, hl⟩ := List.nodup_cons.1 hl
    obtain ⟨⟨hlt, hnew, hv⟩, hall⟩ := List.forall_mem_cons.1 hall
    obtain ⟨t, ht, hcounts⟩ := h.release hlt hnew hv
    obtain ⟨u, hu, hcounts⟩ := ih hcounts hl fun d hd => by
      have hdc : d ≠ c := fun hdc => hc (hdc ▸ hd)
      rw [Function.update_of_ne hdc]
      exact hall d hd
    refine ⟨u, ?_, ?_⟩
    · rw [List.foldlM_cons, ht]
      exact hu
    · convert hcounts using 1
      funext d
      by_cases hd : d = c
      · subst hd
        simp [hc]
      · simp [hd]

def ahead (n : Network α) (placed : List Nat) (c : Nat) : List Nat :=
  (n.parents c).filter fun p => !placed.contains p

theorem mem_ahead {p : Nat} : p ∈ n.ahead placed c ↔ p ∈ n.parents c ∧ p ∉ placed := by
  simp [ahead]

theorem ahead_eq_nil : n.ahead placed c = [] ↔ ∀ p ∈ n.parents c, p ∈ placed := by
  simp [ahead]

theorem ahead_cons (hnodup : (n.parents c).Nodup) (hlinked : n.Linked) : n.ahead (v :: placed) c =
    if c ∈ n.children v then (n.ahead placed c).erase v else n.ahead placed c := by
  have hfilter : n.ahead (v :: placed) c = (n.ahead placed c).filter (· != v) := by
    rw [ahead, ahead, List.filter_filter]
    refine List.filter_congr fun p _ => ?_
    rw [Bool.eq_iff_iff]
    simp
  rw [hfilter]
  split
  · exact ((hnodup.filter _).erase_eq_filter v).symm
  · next hchild =>
    refine List.filter_eq_self.2 fun p hp => ?_
    rw [hlinked] at hchild
    have hne : p ≠ v := fun hpv => hchild (hpv ▸ (mem_ahead.1 hp).1)
    simpa using hne

/-! The order -/

theorem Counts.mem_ready_iff {s : Countdown} (h : n.Counts (n.ahead placed) placed s) :
    v ∈ s.ready ↔ n.Free placed v := by
  rw [h.mem_ready, ahead_eq_nil]
  exact ⟨fun h => ⟨h.1, h.2.1, h.2.2⟩, fun h => ⟨h.lt, h.new, h.parents⟩⟩

/-- The lowest variable that waits for nothing is taken, and its children wait for it no more. -/
theorem Counts.take {waits ready : List Nat} [Scalar α] (hn : n.Coherent)
    (hclosed : ∀ c ∈ placed, ∀ p ∈ n.parents c, p ∈ placed)
    (h : n.Counts (n.ahead placed) placed ⟨waits, v :: ready⟩) :
    ∃ s, (n.children v).foldlM Countdown.release ⟨waits, ready⟩ = some s ∧
      n.Counts (n.ahead (v :: placed)) (v :: placed) s := by
  have hv : n.Free placed v := h.mem_ready_iff.1 List.mem_cons_self
  obtain ⟨hlt, hready⟩ := List.pairwise_cons.1 h.increasing
  have htaken : n.Counts (n.ahead placed) (v :: placed) ⟨waits, ready⟩ := by
    refine ⟨h.waits, hready, fun w => ?_⟩
    have hw := h.mem_ready w
    have hnot : v ∉ ready := fun hmem => (hlt v hmem).false
    grind
  have hchildren (c : Nat) (hc : c ∈ n.children v) :
      c < n.size ∧ c ∉ v :: placed ∧ v ∈ n.ahead placed c := by
    have hparent : v ∈ n.parents c := (hn.linked v c).1 hc
    refine ⟨(hn.linked.known hparent).2, fun hmem => ?_, mem_ahead.2 ⟨hparent, hv.new⟩⟩
    obtain rfl | hmem := List.mem_cons.1 hmem
    · exact hv.new (hv.parents c hparent)
    · exact hv.new (hclosed c hmem v hparent)
  obtain ⟨s, hs, hcounts⟩ := htaken.releaseAll _ (hn.nodup_children v) hchildren
  refine ⟨s, hs, ?_⟩
  have hahead : n.ahead (v :: placed) = fun c =>
      if c ∈ n.children v then (n.ahead placed c).erase v else n.ahead placed c :=
    funext fun c => ahead_cons (hn.nodup_parents c) hn.linked
  rwa [hahead]

theorem Counts.countdown_eq [Scalar α] (hn : n.Coherent) (steps : Nat) :
    ∀ (placed : List Nat) (s : Countdown), n.Counts (n.ahead placed) placed s → placed.Nodup →
      (∀ v ∈ placed, v < n.size) → (∀ c ∈ placed, ∀ p ∈ n.parents c, p ∈ placed) →
      n.size ≤ steps + placed.length → n.countdown s = some (n.place steps placed) := by
  induction steps with
  | zero =>
    intro placed s h hnodup hlt _ hlength
    obtain ⟨waits, ready⟩ := s
    rw [Nat.zero_add] at hlength
    cases ready with
    | nil => rw [countdown]; rfl
    | cons v ready =>
      have hv : n.Free placed v := h.mem_ready_iff.1 List.mem_cons_self
      exact absurd (mem_of_length hnodup hlt hlength hv.lt) hv.new
  | succ steps ih =>
    intro placed s h hnodup hlt hclosed hlength
    obtain ⟨waits, ready⟩ := s
    cases ready with
    | nil =>
      have hnone : n.nextPlaced? placed = none := by
        refine Option.eq_none_iff_forall_ne_some.2 fun v hv => ?_
        exact List.not_mem_nil (h.mem_ready_iff.2 (nextPlaced?_eq_some.1 hv).1)
      rw [countdown, place, hnone]
    | cons v ready =>
      have hv : n.Free placed v := h.mem_ready_iff.1 List.mem_cons_self
      have hnext : n.nextPlaced? placed = some v := by
        refine nextPlaced?_eq_some.2 ⟨hv, fun w hw hfree => ?_⟩
        obtain rfl | hmem := List.mem_cons.1 (h.mem_ready_iff.2 hfree)
        · exact hw.false
        · exact hw.asymm ((List.pairwise_cons.1 h.increasing).1 w hmem)
      obtain ⟨t, ht, hcounts⟩ := h.take hn hclosed
      have hplaced : ∀ c ∈ v :: placed, ∀ p ∈ n.parents c, p ∈ v :: placed := by
        refine List.forall_mem_cons.2 ⟨fun p hp => ?_, fun c hc p hp => ?_⟩
        · exact List.mem_cons_of_mem v (hv.parents p hp)
        · exact List.mem_cons_of_mem v (hclosed c hc p hp)
      rw [countdown_cons ht, place, hnext, ih (v :: placed) t hcounts
        (List.nodup_cons.2 ⟨hv.new, hnodup⟩) (List.forall_mem_cons.2 ⟨hv.lt, hlt⟩) hplaced
        (by rw [List.length_cons]; omega)]
      rfl

theorem Coherent.countedOrder_eq [Scalar α] (h : n.Coherent) :
    n.countedOrder = some n.topologicalOrder := by
  have hahead : n.ahead [] = n.parents := funext fun c => by simp [ahead]
  refine Counts.countdown_eq h n.size [] _ ⟨fun v hv => ?_, ?_, fun v => ?_⟩ List.nodup_nil (by simp)
    (by simp) (Nat.le_add_right _ _)
  · rw [hahead]
    simp [ids, hv]
  · exact (Scope.increasing_range n.size).filter _
  · rw [hahead]
    simp [ids]

/-- Counting gives an order in which every variable comes once, after its parents, and no other such order
is lexicographically smaller. The order does not depend on the order in which edges were added. -/
theorem Reached.topologicalOrder_least [Scalar α] (h : n.Reached) :
    n.countedOrder = some n.topologicalOrder ∧
    n.Arranges n.topologicalOrder ∧
    (∀ order, n.Arranges order →
      n.topologicalOrder = order ∨ List.Lex (· < ·) n.topologicalOrder order) ∧
    (∀ m : Network α, m.size = n.size → (∀ p c, p ∈ m.parents c ↔ p ∈ n.parents c) →
      m.topologicalOrder = n.topologicalOrder) ∧
    ∀ es order : List (Nat × Nat), (∀ e, e ∈ order ↔ e ∈ es) → ∀ m m' : Network α,
      addEdgesInPlace es n = .ok () m → addEdgesInPlace order n = .ok () m' →
      m'.topologicalOrder = m.topologicalOrder := by
  have hn := h.coherent
  refine ⟨hn.countedOrder_eq, hn.arranges_topologicalOrder, fun _ => Arranges.topologicalOrder_le,
    fun m => topologicalOrder_congr, fun es order horder m m' hm hm' => ?_⟩
  obtain ⟨hsize, hparents⟩ := hn.addEdgesInPlace_congr horder hm hm'
  exact topologicalOrder_congr hsize hparents

noncomputable def flu : Network ℝ :=
  [.addVariable "cough" ["no", "yes"], .addVariable "fever" ["no", "yes"],
    .addVariable "flu" ["no", "yes"], .addEdge 2 0].foldl (fun n u => (editInPlace u).after n) .empty

/-- The fever needs to wait for nothing and comes first; it could also come last. -/
theorem topologicalOrder_least_of_flu : flu.Reached ∧ flu.countedOrder = some [1, 2, 0] ∧
    flu.Arranges [2, 0, 1] ∧ List.Lex (· < ·) [1, 2, 0] [2, 0, 1] ∧
    ∃ m m', addEdgesInPlace [(2, 1), (1, 0)] flu = .ok () m ∧
      addEdgesInPlace [(1, 0), (2, 1)] flu = .ok () m' ∧ m'.topologicalOrder = m.topologicalOrder := by
  have hreached : flu.Reached := Reached.empty.calls _
  obtain ⟨hcounted, -, hleast, -, hedges⟩ := hreached.topologicalOrder_least
  have horder : flu.topologicalOrder = [1, 2, 0] := rfl
  have hparents (c : Nat) : flu.parents c = if c = 0 then [2] else [] := by
    match c with
    | 0 | 1 | 2 => rfl
    | c + 3 => exact parents_of_le (Nat.le_add_left 3 c)
  have harranges : flu.Arranges [2, 0, 1] := by
    refine ⟨?_, fun c p hp => ?_⟩
    · change [2, 0, 1].Perm [0, 1, 2]
      decide
    · rw [hparents] at hp
      split at hp
      · next hc => rw [hc, List.mem_singleton.1 hp]; decide
      · cases hp
  rw [horder] at hcounted hleast
  exact ⟨hreached, hcounted, harranges, (hleast _ harranges).resolve_left (by decide), _, _, rfl, rfl,
    hedges [(2, 1), (1, 0)] [(1, 0), (2, 1)] (by simp [or_comm]) _ _ rfl rfl⟩

end Bayes.Network
