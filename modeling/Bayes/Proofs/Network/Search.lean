import Bayes.Proofs.Network.Path
/-!
The search along the edges, without a bound for its steps. The variables to look at are on a stack, from
which the one that was pushed last is taken first, and every variable has a mark that tells whether it was
looked at. A variable that gets its mark puts its children on the stack, and that happens only once; so a
variable may be pushed several times, but there are no more pushes than edges.
-/
namespace Bayes.Network

variable {α : Type} {n : Network α} {goal start v : Nat} {stack : List Nat} {marks : Array Bool}

def edgesUnmarked (n : Network α) (marks : Array Bool) : Nat :=
  ∑ v ∈ Finset.range n.size with marks[v]? = some false, (n.children v).length

theorem getElem?_mark (hnew : marks[v]? = some false) (w : Nat) :
    (marks.setIfInBounds v true)[w]? = if w = v then some true else marks[w]? := by
  obtain ⟨hlt, -⟩ := Array.getElem?_eq_some_iff.1 hnew
  by_cases hw : w = v
  · rw [hw, if_pos rfl, Array.getElem?_setIfInBounds_self_of_lt hlt]
  · rw [if_neg hw, Array.getElem?_setIfInBounds_ne (Ne.symm hw)]

theorem getElem?_marked (hv : v < marks.size) (hold : marks[v]? ≠ some false) :
    marks[v]? = some true := by
  rw [Array.getElem?_eq_getElem hv] at hold ⊢
  simpa using hold

theorem edgesUnmarked_mark (n : Network α) (hnew : marks[v]? = some false) :
    (n.children v).length + n.edgesUnmarked (marks.setIfInBounds v true) = n.edgesUnmarked marks :=
  n.add_sum_children hnew fun w => by
    rw [getElem?_mark hnew]
    by_cases hw : w = v <;> simp [hw]

/-- The top of the stack comes first in the list. -/
def search (n : Network α) (goal : Nat) : List Nat → Array Bool → Bool
  | [], _ => false
  | v :: stack, marks =>
    if v = goal then true
    else if _hnew : marks[v]? = some false then
      n.search goal ((n.children v).reverse ++ stack) (marks.setIfInBounds v true)
    else n.search goal stack marks
termination_by stack marks => stack.length + n.edgesUnmarked marks
decreasing_by
  · have hpaid := n.edgesUnmarked_mark _hnew
    simp only [List.length_append, List.length_reverse, List.length_cons]
    omega
  · simp

theorem leads_of_search (h : n.Linked) (hfound : n.search goal stack marks = true) :
    ∃ v ∈ stack, n.Leads v goal := by
  fun_induction search n goal stack marks with
  | case1 marks => cases hfound
  | case2 stack marks => exact ⟨goal, List.mem_cons_self, Relation.ReflTransGen.refl⟩
  | case3 v stack marks hgoal hnew ih =>
    obtain ⟨w, hw, hleads⟩ := ih hfound
    obtain hw | hw := List.mem_append.1 hw
    · have hchild : w ∈ n.children v := List.mem_reverse.1 hw
      exact ⟨v, List.mem_cons_self, Relation.ReflTransGen.head ((h v w).1 hchild) hleads⟩
    · exact ⟨w, List.mem_cons_of_mem v hw, hleads⟩
  | case4 v stack marks hgoal hold ih =>
    obtain ⟨w, hw, hleads⟩ := ih hfound
    exact ⟨w, List.mem_cons_of_mem v hw, hleads⟩

theorem closed_of_search (hfails : n.search goal stack marks = false)
    (hchildren : ∀ v, ∀ c ∈ n.children v, c < marks.size) (hstack : ∀ v ∈ stack, v < marks.size)
    (hmarks : ∀ v, marks[v]? = some true →
      v ≠ goal ∧ ∀ c ∈ n.children v, marks[c]? = some true ∨ c ∈ stack) :
    ∃ seen : Set Nat, (∀ v, marks[v]? = some true ∨ v ∈ stack → v ∈ seen) ∧
      ∀ v ∈ seen, v ≠ goal ∧ ∀ c ∈ n.children v, c ∈ seen := by
  fun_induction search n goal stack marks with
  | case1 marks => exact ⟨{v | marks[v]? = some true}, by simp, by simpa using hmarks⟩
  | case2 stack marks => cases hfails
  | case3 v stack marks hgoal hnew ih =>
    have hpushed : ∀ w, marks[w]? = some true ∨ w ∈ v :: stack →
        (marks.setIfInBounds v true)[w]? = some true ∨ w ∈ (n.children v).reverse ++ stack := by
      intro w hw
      rw [getElem?_mark hnew]
      grind
    have hmarks' : ∀ w, (marks.setIfInBounds v true)[w]? = some true → w ≠ goal ∧
        ∀ c ∈ n.children w, (marks.setIfInBounds v true)[c]? = some true ∨
          c ∈ (n.children v).reverse ++ stack := by
      intro w hw
      by_cases hwv : w = v
      · subst hwv
        exact ⟨hgoal, fun c hc => Or.inr (by simp [hc])⟩
      · rw [getElem?_mark hnew, if_neg hwv] at hw
        exact ⟨(hmarks w hw).1, fun c hc => hpushed c ((hmarks w hw).2 c hc)⟩
    obtain ⟨seen, hsub, hclosed⟩ := ih hfails (by simpa using hchildren) (by grind) hmarks'
    exact ⟨seen, fun w hw => hsub w (hpushed w hw), hclosed⟩
  | case4 v stack marks hgoal hold ih =>
    have hmarked : marks[v]? = some true := getElem?_marked (hstack v List.mem_cons_self) hold
    have hpopped : ∀ w, marks[w]? = some true ∨ w ∈ v :: stack →
        marks[w]? = some true ∨ w ∈ stack := by
      rintro w (hw | hw)
      · exact Or.inl hw
      · obtain rfl | hw := List.mem_cons.1 hw
        · exact Or.inl hmarked
        · exact Or.inr hw
    obtain ⟨seen, hsub, hclosed⟩ := ih hfails hchildren
      (fun w hw => hstack w (List.mem_cons_of_mem v hw))
      fun w hw => ⟨(hmarks w hw).1, fun c hc => hpopped c ((hmarks w hw).2 c hc)⟩
    exact ⟨seen, fun w hw => hsub w (hpopped w hw), hclosed⟩

theorem search_iff (h : n.Linked) (hstart : start < n.size) :
    n.search goal [start] (Array.replicate n.size false) = true ↔ n.Leads start goal := by
  constructor
  · intro hfound
    obtain ⟨v, hv, hleads⟩ := leads_of_search h hfound
    rwa [List.mem_singleton.1 hv] at hleads
  · intro hleads
    by_contra hfails
    rw [Bool.not_eq_true] at hfails
    have hchildren : ∀ v, ∀ c ∈ n.children v, c < (Array.replicate n.size false).size := by
      intro v c hc
      rw [Array.size_replicate]
      exact (h.known ((h v c).1 hc)).2
    obtain ⟨seen, hsub, hclosed⟩ := closed_of_search hfails hchildren (by simpa using hstart)
      (by simp [Array.getElem?_replicate])
    exact not_leads_of_closed h hclosed (hsub start (by simp)) hleads

theorem search_eq_reaches (h : n.Linked) (hstart : start < n.size) :
    n.search goal [start] (Array.replicate n.size false) = n.reaches start goal :=
  Bool.eq_iff_iff.2 ((search_iff h hstart).trans (reaches_iff h).symm)

end Bayes.Network
