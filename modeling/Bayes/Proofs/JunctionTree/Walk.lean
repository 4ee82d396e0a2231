import Bayes.Proofs.JunctionTree.Spanning
/-!
The walk from the root. The visits, done or waiting, grow one by one from the visit of the root, each
new one at a clique not seen before and linked to a clique seen before. When nothing waits, no link
leads out of the cliques seen, which are therefore all.
-/
namespace Bayes.JunctionTree

variable {cliques : Array (List Nat)} {separators : List Separator} {c : Nat}

/-! The links of a clique -/

theorem mem_links {l : Nat × List Nat} :
    l ∈ links separators c ↔ ∃ s ∈ separators, s.shared = l.2 ∧
      (s.lower = c ∧ s.upper = l.1 ∨ s.lower ≠ c ∧ s.upper = c ∧ s.lower = l.1) := by
  obtain ⟨d, shared⟩ := l
  rw [links, (List.mergeSort_perm _ _).mem_iff, List.mem_filterMap]
  refine exists_congr fun s => and_congr_right fun _ => ?_
  by_cases hl : s.lower = c
  · simp [hl, and_comm]
  · by_cases hu : s.upper = c
    · simp [hl, hu, and_comm]
    · simp [hl, hu]

def edge (a b : Nat) : Nat × Nat := if a < b then (a, b) else (b, a)

theorem edge_comm (a b : Nat) : edge a b = edge b a := by
  simp only [edge]
  by_cases h : a < b
  · have h' : ¬ b < a := by omega
    rw [if_pos h, if_neg h']
  · by_cases h' : b < a
    · rw [if_neg h, if_pos h']
    · have heq : a = b := by omega
      rw [heq]

theorem Spanning.link_spec (h : Spanning cliques separators) {l : Nat × List Nat}
    (hl : l ∈ links separators c) :
    l.1 < cliques.size ∧ edge c l.1 ∈ separators.map ends ∧
      ∀ v, v ∈ l.2 ↔ v ∈ cliques[l.1]?.getD [] ∧ v ∈ cliques[c]?.getD [] := by
  obtain ⟨s, hs, hshared, ⟨hlow, hup⟩ | ⟨-, hup, hlow⟩⟩ := mem_links.1 hl
  · obtain ⟨hlt, hsize⟩ := h.ends_lt s hs
    rw [← hshared, ← hlow, ← hup, edge, if_pos hlt, h.shared_eq s hs]
    exact ⟨hsize, List.mem_map_of_mem hs, fun v => Scope.mem_inter.trans and_comm⟩
  · obtain ⟨hlt, hsize⟩ := h.ends_lt s hs
    rw [← hshared, ← hlow, ← hup, edge_comm, edge, if_pos hlt, h.shared_eq s hs]
    exact ⟨hlt.trans hsize, List.mem_map_of_mem hs, fun v => Scope.mem_inter⟩

theorem Spanning.nodup_links (h : Spanning cliques separators) :
    ((links separators c).map (·.1)).Nodup := by
  have hperm := (List.mergeSort_perm (separators.filterMap fun s =>
    if s.lower = c then some (s.upper, s.shared)
    else if s.upper = c then some (s.lower, s.shared) else none) fun a b => a.1 ≤ b.1).map (·.1)
  refine hperm.nodup_iff.2 (List.pairwise_map.2 (List.pairwise_filterMap.2 ?_))
  refine (List.pairwise_map.1 h.nodup).imp_of_mem fun {s t} hs ht hne l hl k hk hlk => hne ?_
  have hslt := (h.ends_lt s hs).1
  have htlt := (h.ends_lt t ht).1
  simp only [ends, Prod.mk.injEq]
  split at hl <;> split at hk
  · cases hl; cases hk
    simp_all
  · split at hk
    · cases hl; cases hk
      simp_all
      omega
    · cases hk
  · split at hl
    · cases hl; cases hk
      simp_all
      omega
    · cases hl
  · split at hl <;> split at hk
    · cases hl; cases hk
      simp_all
    all_goals simp_all

/-! Growing -/

def visitOf (u : Visit) (l : Nat × List Nat) : Visit := ⟨l.1, some u.clique, l.2, u.depth + 1⟩

/-- The lists of visits that a walk can have discovered. -/
inductive Grown (separators : List Separator) : List Visit → Prop
  | root : Grown separators [⟨0, none, [], 0⟩]
  | grow {visits : List Visit} {u : Visit} {l : Nat × List Nat} (h : Grown separators visits)
      (hu : u ∈ visits) (hl : l ∈ links separators u.clique)
      (hnew : l.1 ∉ visits.map (·.clique)) : Grown separators (visits ++ [visitOf u l])

variable {visits : List Visit}

theorem Grown.extend {u : Visit} {next : List (Nat × List Nat)} (h : Grown separators visits)
    (hu : u ∈ visits) (hnext : ∀ l ∈ next, l ∈ links separators u.clique)
    (hnew : ∀ l ∈ next, l.1 ∉ visits.map (·.clique)) (hnodup : (next.map (·.1)).Nodup) :
    Grown separators (visits ++ next.map (visitOf u)) := by
  induction next generalizing visits with
  | nil => simpa using h
  | cons l next ih =>
    obtain ⟨hl, hrest⟩ := List.forall_mem_cons.1 hnext
    obtain ⟨hlnew, hrestnew⟩ := List.forall_mem_cons.1 hnew
    obtain ⟨hlnext, hnodup⟩ := List.nodup_cons.1 hnodup
    have h' := ih (h.grow hu hl hlnew) (List.mem_append_left _ hu) hrest (fun k hk hmem => ?_) hnodup
    · simpa using h'
    · rw [List.map_append, List.mem_append] at hmem
      obtain hmem | hmem := hmem
      · exact hrestnew k hk hmem
      · have heq : k.1 = l.1 := by simpa [visitOf] using hmem
        exact hlnext (List.mem_map.2 ⟨k, hk, heq⟩)

theorem Grown.nodup (h : Grown separators visits) : (visits.map (·.clique)).Nodup := by
  induction h with
  | root => simp
  | grow _ _ _ hnew ih =>
    rw [List.map_append, List.map_cons, List.map_nil]
    exact List.nodup_append.2 ⟨ih, by simp, by grind [visitOf]⟩

theorem Grown.clique_lt (h : Grown separators visits) (hs : Spanning cliques separators) :
    ∀ v ∈ visits, v.clique < cliques.size := by
  induction h with
  | root => simpa using hs.length_lt.trans_le' (Nat.zero_le _)
  | grow _ hu hl _ ih =>
    refine List.forall_mem_append.2 ⟨ih, fun v hv => ?_⟩
    obtain rfl := List.mem_singleton.1 hv
    exact (hs.link_spec hl).1

theorem Grown.length_le (h : Grown separators visits) (hs : Spanning cliques separators) :
    visits.length ≤ cliques.size := by
  have hsub : visits.map (·.clique) ⊆ List.range cliques.size := by
    intro c hc
    obtain ⟨v, hv, rfl⟩ := List.mem_map.1 hc
    exact List.mem_range.2 (h.clique_lt hs v hv)
  simpa using (List.subperm_of_subset h.nodup hsub).length_le

theorem Grown.root_or_child (h : Grown separators visits) :
    ∀ v ∈ visits, v = ⟨0, none, [], 0⟩ ∨
      ∃ u ∈ visits, ∃ l ∈ links separators u.clique, v = visitOf u l := by
  induction h with
  | root => simp
  | grow h hu hl _ ih =>
    refine List.forall_mem_append.2 ⟨fun v hv => ?_, fun v hv => ?_⟩
    · obtain hroot | ⟨u, hu, l, hl, hv⟩ := ih v hv
      · exact Or.inl hroot
      · exact Or.inr ⟨u, List.mem_append_left _ hu, l, hl, hv⟩
    · obtain rfl := List.mem_singleton.1 hv
      exact Or.inr ⟨_, List.mem_append_left _ hu, _, hl, rfl⟩

theorem Grown.ordered (h : Grown separators visits) :
    visits.Pairwise fun u v => u.parent ≠ some v.clique := by
  induction h with
  | root => simp
  | grow h _ _ hnew ih =>
    refine List.pairwise_append.2 ⟨ih, List.pairwise_singleton _ _, fun u hu v hv => ?_⟩
    obtain rfl := List.mem_singleton.1 hv
    obtain rfl | ⟨w, hw, l, _, rfl⟩ := h.root_or_child u hu
    · simp
    · intro e
      exact hnew (List.mem_map.2 ⟨w, hw, Option.some.inj e⟩)

theorem Grown.head? (h : Grown separators visits) : visits.head? = some ⟨0, none, [], 0⟩ := by
  induction h with
  | root => rfl
  | grow _ _ _ _ ih =>
    rw [List.head?_append, ih]
    rfl

/-! The walk -/

def Closed (separators : List Separator) (seen : List Nat) (visits : List Visit) : Prop :=
  ∀ u ∈ visits, ∀ l ∈ links separators u.clique, l.1 ∈ seen

theorem walk_spec (hs : Spanning cliques separators) (steps : Nat) :
    ∀ waiting done : List Visit, Grown separators (done.reverse ++ waiting) →
      Closed separators ((done.reverse ++ waiting).map (·.clique)) done →
      steps + done.length = cliques.size →
      Grown separators (walk separators steps waiting done) ∧
      Closed separators ((walk separators steps waiting done).map (·.clique))
        (walk separators steps waiting done) := by
  have hstop (done : List Visit) (h : Grown separators (done.reverse ++ []))
      (hclosed : Closed separators ((done.reverse ++ []).map Visit.clique) done) :
      Grown separators done.reverse ∧
        Closed separators (done.reverse.map Visit.clique) done.reverse := by
    rw [List.append_nil] at h hclosed
    exact ⟨h, fun u hu => hclosed u (List.mem_reverse.1 hu)⟩
  induction steps with
  | zero =>
    intro waiting done h hclosed hsteps
    have hlength := h.length_le hs
    rw [List.length_append, List.length_reverse] at hlength
    obtain rfl : waiting = [] := List.eq_nil_of_length_eq_zero (by omega)
    exact hstop done h hclosed
  | succ steps ih =>
    intro waiting done h hclosed hsteps
    cases waiting with
    | nil => exact hstop done h hclosed
    | cons u waiting =>
      let seen := (done ++ u :: waiting).map (·.clique)
      let next := (links separators u.clique).filter fun l => !seen.contains l.1
      have hseen (c : Nat) : c ∈ seen ↔ c ∈ (done.reverse ++ u :: waiting).map (·.clique) := by
        simp [seen]
      have hgrown : Grown separators ((u :: done).reverse ++ (waiting ++ next.map (visitOf u))) := by
        have hext : Grown separators (done.reverse ++ u :: waiting ++ next.map (visitOf u)) :=
          h.extend (by simp)
            (fun l hl => (List.mem_filter.1 hl).1)
            (fun l hl hmem => by simpa [(hseen l.1).2 hmem] using (List.mem_filter.1 hl).2)
            (hs.nodup_links.sublist (List.filter_sublist.map _))
        simpa using hext
      refine ih _ (u :: done) hgrown (fun v hv l hl => ?_) (by simp; omega)
      have hin : l.1 ∈ seen ∨ l.1 ∈ next.map (·.1) := by
        obtain rfl | hv := List.mem_cons.1 hv
        · by_cases hmem : l.1 ∈ seen
          · exact Or.inl hmem
          · exact Or.inr (List.mem_map_of_mem (List.mem_filter.2 ⟨hl, by simp [hmem]⟩))
        · exact Or.inl ((hseen l.1).2 (hclosed v hv l hl))
      obtain hmem | hmem := hin
      · simp only [seen, List.mem_map, List.mem_append, List.mem_cons] at hmem ⊢
        obtain ⟨w, hw, hwl⟩ := hmem
        exact ⟨w, by simp; tauto, hwl⟩
      · obtain ⟨k, hk, hkl⟩ := List.mem_map.1 hmem
        refine List.mem_map.2 ⟨visitOf u k, ?_, hkl⟩
        simp only [List.mem_append]
        exact Or.inr (Or.inr (List.mem_map_of_mem hk))

theorem Spanning.all_seen (hs : Spanning cliques separators) (h : Grown separators visits)
    (hclosed : Closed separators (visits.map (·.clique)) visits) :
    ∀ c < cliques.size, c ∈ visits.map (·.clique) := by
  refine hs.connected (· ∈ visits.map (·.clique)) ?_ fun s hmem => ?_
  · obtain ⟨rest, hrest⟩ := List.head?_eq_some_iff.1 h.head?
    simp [hrest]
  · have hlt := (hs.ends_lt s hmem).1
    constructor
    · intro hlow
      obtain ⟨u, hu, hul⟩ := List.mem_map.1 hlow
      exact hclosed u hu (s.upper, s.shared) (mem_links.2 ⟨s, hmem, rfl, Or.inl ⟨hul.symm, rfl⟩⟩)
    · intro hup
      obtain ⟨u, hu, huu⟩ := List.mem_map.1 hup
      refine hclosed u hu (s.lower, s.shared) (mem_links.2 ⟨s, hmem, rfl, Or.inr ⟨?_, ?_, rfl⟩⟩)
      · omega
      · exact huu.symm

end Bayes.JunctionTree
