import Bayes.Network.Order
import Bayes.Proofs.Network.Consistent
/-!
Orders in which every variable comes after its parents. Whatever has been placed, as long as something is
left some variable has all its parents placed, because there is no cycle; so taking the lowest one each
time places all of them, and no other such order has a lower variable where the two first differ.
-/
namespace Bayes.Network

variable {α : Type} {n m : Network α} {placed order : List Nat} {v w : Nat}

/-- Every variable once, and after its parents. -/
structure Arranges (n : Network α) (order : List Nat) : Prop where
  perm : order.Perm n.ids
  parents_first : ∀ c, ∀ p ∈ n.parents c, order.idxOf p < order.idxOf c

/-- A variable that may be placed next. -/
structure Free (n : Network α) (placed : List Nat) (v : Nat) : Prop where
  lt : v < n.size
  new : v ∉ placed
  parents : ∀ p ∈ n.parents v, p ∈ placed

/-- Each variable may be placed next when its turn comes. -/
def Continues (n : Network α) : List Nat → List Nat → Prop
  | _, [] => True
  | placed, v :: order => n.Free placed v ∧ n.Continues (v :: placed) order

/-! One more variable -/

theorem nextPlaced?_eq_some :
    n.nextPlaced? placed = some v ↔ n.Free placed v ∧ ∀ w < v, ¬ n.Free placed w := by
  have hfree {w : Nat} (hw : w < n.size) :
      (!placed.contains w && (n.parents w).all placed.contains) = true ↔ n.Free placed w := by
    simp only [Bool.and_eq_true, Bool.not_eq_true', List.all_eq_true, List.contains_iff_mem,
      ← Bool.not_eq_true]
    exact ⟨fun h => ⟨hw, h.1, h.2⟩, fun h => ⟨h.new, h.parents⟩⟩
  rw [nextPlaced?, ids, List.find?_range_eq_some, List.mem_range]
  constructor
  · rintro ⟨hv, hlt, hbelow⟩
    refine ⟨(hfree hlt).1 hv, fun w hw hwfree => ?_⟩
    have hnot := hbelow w hw
    rw [(hfree hwfree.lt).2 hwfree] at hnot
    cases hnot
  · rintro ⟨hv, hbelow⟩
    refine ⟨(hfree hv.lt).2 hv, hv.lt, fun w hw => ?_⟩
    rw [Bool.not_eq_true', ← Bool.not_eq_true, hfree (hw.trans hv.lt)]
    exact hbelow w hw

theorem exists_nextPlaced? (h : n.Free placed v) : ∃ w, n.nextPlaced? placed = some w := by
  classical
  have hex : ∃ w, n.Free placed w := ⟨v, h⟩
  exact ⟨Nat.find hex, nextPlaced?_eq_some.2 ⟨Nat.find_spec hex, fun _ => Nat.find_min hex⟩⟩

theorem exists_free (hlinked : n.Linked) (hranked : n.Ranked) (hv : v < n.size) (hnew : v ∉ placed) :
    ∃ w, n.Free placed w := by
  obtain ⟨rank, hrank⟩ := hranked
  induction hk : rank v using Nat.strong_induction_on generalizing v with
  | _ k ih =>
    by_cases hparents : ∀ p ∈ n.parents v, p ∈ placed
    · exact ⟨v, hv, hnew, hparents⟩
    · simp only [not_forall] at hparents
      obtain ⟨p, hp, hpnew⟩ := hparents
      exact ih (rank p) (hk ▸ hrank v p hp) (hlinked.known hp).1 hpnew rfl

/-! One after the other -/

theorem mem_of_length {l : List Nat} (hnodup : l.Nodup) (hlt : ∀ v ∈ l, v < n.size)
    (hlength : n.size ≤ l.length) (hv : v < n.size) : v ∈ l := by
  have hsub : l.Subperm n.ids := hnodup.subperm fun w hw => mem_ids.2 (hlt w hw)
  have hperm := hsub.perm_of_length_le (by simpa [ids] using hlength)
  exact hperm.mem_iff.2 (mem_ids.2 hv)

theorem continues_place (hlinked : n.Linked) (hranked : n.Ranked) (steps : Nat) :
    ∀ placed : List Nat, placed.Nodup → (∀ v ∈ placed, v < n.size) → n.size ≤ steps + placed.length →
      n.Continues placed (n.place steps placed) ∧
      ∀ v < n.size, v ∈ placed ∨ v ∈ n.place steps placed := by
  induction steps with
  | zero =>
    intro placed hnodup hlt hlength
    refine ⟨trivial, fun v hv => Or.inl (mem_of_length hnodup hlt ?_ hv)⟩
    rwa [Nat.zero_add] at hlength
  | succ steps ih =>
    intro placed hnodup hlt hlength
    rw [place]
    cases hnext : n.nextPlaced? placed with
    | none =>
      refine ⟨trivial, fun v hv => Or.inl ?_⟩
      by_contra hnew
      obtain ⟨w, hw⟩ := exists_free hlinked hranked hv hnew
      obtain ⟨u, hu⟩ := exists_nextPlaced? hw
      rw [hnext] at hu
      cases hu
    | some v =>
      have hv := (nextPlaced?_eq_some.1 hnext).1
      obtain ⟨hcontinues, hall⟩ := ih (v :: placed) (List.nodup_cons.2 ⟨hv.new, hnodup⟩)
        (List.forall_mem_cons.2 ⟨hv.lt, hlt⟩) (by rw [List.length_cons]; omega)
      refine ⟨⟨hv, hcontinues⟩, fun w hw => ?_⟩
      obtain hw | hw := hall w hw
      · obtain rfl | hw := List.mem_cons.1 hw
        · exact Or.inr List.mem_cons_self
        · exact Or.inl hw
      · exact Or.inr (List.mem_cons_of_mem v hw)

theorem Continues.spec (h : n.Continues placed order) :
    order.Nodup ∧ ∀ v ∈ order, v < n.size ∧ v ∉ placed := by
  induction order generalizing placed with
  | nil => exact ⟨List.nodup_nil, by simp⟩
  | cons v order ih =>
    obtain ⟨hv, hrest⟩ := h
    obtain ⟨hnodup, hall⟩ := ih hrest
    refine ⟨List.nodup_cons.2 ⟨fun hmem => (hall v hmem).2 List.mem_cons_self, hnodup⟩, ?_⟩
    refine List.forall_mem_cons.2 ⟨⟨hv.lt, hv.new⟩, fun w hw => ⟨(hall w hw).1, fun hold => ?_⟩⟩
    exact (hall w hw).2 (List.mem_cons_of_mem v hold)

theorem Continues.parents_first (h : n.Continues placed order) {c p : Nat} (hc : c ∈ order)
    (hp : p ∈ n.parents c) : p ∈ placed ∨ order.idxOf p < order.idxOf c := by
  induction order generalizing placed with
  | nil => cases hc
  | cons v order ih =>
    obtain ⟨hv, hrest⟩ := h
    by_cases hcv : c = v
    · exact Or.inl (hv.parents p (hcv ▸ hp))
    · have hc : c ∈ order := (List.mem_cons.1 hc).resolve_left hcv
      rw [List.idxOf_cons_ne _ (Ne.symm hcv)]
      by_cases hpv : p = v
      · exact Or.inr (by rw [hpv, List.idxOf_cons_self]; exact Nat.succ_pos _)
      · rw [List.idxOf_cons_ne _ (Ne.symm hpv)]
        obtain hmem | hlt := ih hrest hc
        · exact Or.inl ((List.mem_cons.1 hmem).resolve_left hpv)
        · exact Or.inr (Nat.succ_lt_succ hlt)

theorem Continues.arranges (hlinked : n.Linked) (h : n.Continues [] order)
    (hall : ∀ v < n.size, v ∈ order) : n.Arranges order := by
  obtain ⟨hnodup, hlt⟩ := h.spec
  refine ⟨(List.perm_ext_iff_of_nodup hnodup List.nodup_range).2 fun v => ?_, fun c p hp => ?_⟩
  · rw [List.mem_range]
    exact ⟨fun hv => (hlt v hv).1, hall v⟩
  · exact (h.parents_first (hall c (hlinked.known hp).2) hp).resolve_left List.not_mem_nil

theorem Arranges.continues_append (h : n.Arranges order) {done rest : List Nat}
    (horder : order = done ++ rest) (hplaced : ∀ u, u ∈ placed ↔ u ∈ done) :
    n.Continues placed rest := by
  induction rest generalizing done placed with
  | nil => trivial
  | cons v rest ih =>
    have hnodup : (done ++ v :: rest).Nodup := horder ▸ h.perm.nodup_iff.2 List.nodup_range
    have hv : v ∉ done := fun hmem => (List.nodup_append.1 hnodup).2.2 v hmem v List.mem_cons_self rfl
    have hmem : v ∈ order := horder ▸ List.mem_append_right done List.mem_cons_self
    have hrest : order = (done ++ [v]) ++ rest := by simp [horder]
    refine ⟨⟨mem_ids.1 (h.perm.mem_iff.1 hmem), mt (hplaced v).1 hv, fun p hp => ?_⟩,
      ih hrest fun u => by simp [hplaced, or_comm]⟩
    have hbefore := h.parents_first v p hp
    rw [horder, List.idxOf_append_of_notMem hv, List.idxOf_cons_self, Nat.add_zero] at hbefore
    rw [hplaced]
    by_contra hp
    rw [List.idxOf_append_of_notMem hp] at hbefore
    omega

theorem Arranges.continues (h : n.Arranges order) : n.Continues [] order :=
  h.continues_append (List.nil_append order).symm fun _ => Iff.rfl

/-! The least order -/

/-- The lowest variable that is free comes no later than the one that another order takes. -/
theorem place_le (steps : Nat) : ∀ placed order : List Nat, n.Continues placed order →
    (∀ v < n.size, v ∈ placed ∨ v ∈ order) →
    n.place steps placed = order ∨ List.Lex (· < ·) (n.place steps placed) order := by
  induction steps with
  | zero =>
    intro placed order _ _
    cases order with
    | nil => exact Or.inl rfl
    | cons v order => exact Or.inr .nil
  | succ steps ih =>
    intro placed order horder hall
    rw [place]
    cases hnext : n.nextPlaced? placed with
    | none =>
      cases order with
      | nil => exact Or.inl rfl
      | cons v order => exact Or.inr .nil
    | some v =>
      obtain ⟨hv, hbelow⟩ := nextPlaced?_eq_some.1 hnext
      cases order with
      | nil => exact absurd ((hall v hv.lt).resolve_right List.not_mem_nil) hv.new
      | cons w order =>
        obtain ⟨hw, horder⟩ := horder
        obtain hlt | rfl | hgt := Nat.lt_trichotomy v w
        · exact Or.inr (.rel hlt)
        · have hall' (u : Nat) (hu : u < n.size) : u ∈ v :: placed ∨ u ∈ order := by
            have := hall u hu
            grind
          obtain heq | hlex := ih (v :: placed) order horder hall'
          · exact Or.inl (congrArg _ heq)
          · exact Or.inr (.cons hlex)
        · exact absurd hw (hbelow w hgt)

theorem Coherent.arranges_topologicalOrder [Scalar α] (h : n.Coherent) :
    n.Arranges n.topologicalOrder := by
  obtain ⟨hcontinues, hall⟩ := continues_place h.linked h.ranked n.size [] List.nodup_nil (by simp)
    (Nat.le_add_right _ _)
  exact hcontinues.arranges h.linked fun v hv => (hall v hv).resolve_left List.not_mem_nil

theorem Arranges.topologicalOrder_le (h : n.Arranges order) :
    n.topologicalOrder = order ∨ List.Lex (· < ·) n.topologicalOrder order :=
  place_le n.size [] order h.continues fun _ hv => Or.inr (h.perm.mem_iff.2 (mem_ids.2 hv))

theorem topologicalOrder_congr (hsize : m.size = n.size)
    (hparents : ∀ p c, p ∈ m.parents c ↔ p ∈ n.parents c) :
    m.topologicalOrder = n.topologicalOrder := by
  have hnext (placed : List Nat) : m.nextPlaced? placed = n.nextPlaced? placed := by
    refine Option.ext fun v => ?_
    have hfree (w : Nat) : m.Free placed w ↔ n.Free placed w :=
      ⟨fun h => ⟨hsize ▸ h.lt, h.new, fun p hp => h.parents p ((hparents p w).2 hp)⟩,
        fun h => ⟨hsize ▸ h.lt, h.new, fun p hp => h.parents p ((hparents p w).1 hp)⟩⟩
    simp only [nextPlaced?_eq_some, hfree]
  have hplace (steps : Nat) : ∀ placed, m.place steps placed = n.place steps placed := by
    induction steps with
    | zero => exact fun placed => rfl
    | succ steps ih =>
      intro placed
      simp only [place, hnext, ih]
  rw [topologicalOrder, topologicalOrder, hsize, hplace]

/-! Numbers in order -/

/-- Where parents have lower numbers, the lowest variable that is not placed is free. -/
theorem place_of_parents_lt (h : ∀ c, ∀ p ∈ n.parents c, p < c) (steps : Nat) :
    ∀ k placed, k + steps = n.size → (∀ v, v ∈ placed ↔ v < k) →
      n.place steps placed = List.range' k steps := by
  induction steps with
  | zero => exact fun k placed _ _ => rfl
  | succ steps ih =>
    intro k placed hsize hplaced
    have hnext : n.nextPlaced? placed = some k := by
      refine nextPlaced?_eq_some.2 ⟨⟨by omega, by simp [hplaced], fun p hp => ?_⟩, fun w hw hfree => ?_⟩
      · exact (hplaced p).2 (h k p hp)
      · exact hfree.new ((hplaced w).2 hw)
    have hplaced' (v : Nat) : v ∈ k :: placed ↔ v < k + 1 := by
      rw [List.mem_cons, hplaced]
      omega
    simp only [place, hnext, List.range'_succ, ih (k + 1) (k :: placed) (by omega) hplaced']

theorem topologicalOrder_eq_ids (h : ∀ c, ∀ p ∈ n.parents c, p < c) : n.topologicalOrder = n.ids := by
  rw [topologicalOrder, ids, List.range_eq_range']
  exact place_of_parents_lt h n.size 0 [] (Nat.zero_add _) (by simp)

end Bayes.Network
