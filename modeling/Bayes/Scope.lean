/-!
Finite sets of numbers as strictly increasing lists: the scope of a table, a clique, a
neighbourhood. Two such lists with the same members are equal, so nothing depends on the order in
which members came.
-/
namespace Bayes.Scope

def Increasing (s : List Nat) : Prop := s.Pairwise (· < ·)

def insert (v : Nat) : List Nat → List Nat
  | [] => [v]
  | w :: s => if v < w then v :: w :: s else if v = w then w :: s else w :: insert v s

def ofList (vs : List Nat) : List Nat := vs.foldr insert []

def union (s t : List Nat) : List Nat := ofList (s ++ t)

def inter (s t : List Nat) : List Nat := s.filter t.contains

def pairs : List Nat → List (Nat × Nat)
  | [] => []
  | v :: s => s.map (fun w => (v, w)) ++ pairs s

theorem increasing_nil : Increasing [] := List.Pairwise.nil

theorem Increasing.filter {s : List Nat} (h : Increasing s) (p : Nat → Bool) :
    Increasing (s.filter p) :=
  List.Pairwise.filter p h

theorem Increasing.nodup {s : List Nat} (h : Increasing s) : s.Nodup :=
  h.imp Nat.ne_of_lt

theorem mem_insert {v w : Nat} {s : List Nat} : w ∈ insert v s ↔ w = v ∨ w ∈ s := by
  fun_induction insert v s <;> grind

theorem increasing_insert {v : Nat} {s : List Nat} (h : Increasing s) : Increasing (insert v s) := by
  induction s with
  | nil => simp [insert, Increasing]
  | cons w s ih =>
    obtain ⟨hw, hs⟩ := List.pairwise_cons.1 h
    simp only [insert]
    split
    · exact List.pairwise_cons.2 ⟨by grind, h⟩
    · split
      · exact h
      · refine List.pairwise_cons.2 ⟨fun u hu => ?_, ih hs⟩
        rcases mem_insert.1 hu with rfl | hu
        · omega
        · exact hw u hu

theorem mem_ofList {w : Nat} {vs : List Nat} : w ∈ ofList vs ↔ w ∈ vs := by
  induction vs with
  | nil => simp [ofList]
  | cons v vs ih => simpa [ofList, mem_insert] using or_congr_right ih

theorem increasing_ofList (vs : List Nat) : Increasing (ofList vs) := by
  induction vs with
  | nil => exact List.Pairwise.nil
  | cons v vs ih => exact increasing_insert ih

theorem mem_union {w : Nat} {s t : List Nat} : w ∈ union s t ↔ w ∈ s ∨ w ∈ t := by
  simp [union, mem_ofList]

theorem increasing_union (s t : List Nat) : Increasing (union s t) := increasing_ofList _

theorem mem_inter {w : Nat} {s t : List Nat} : w ∈ inter s t ↔ w ∈ s ∧ w ∈ t := by
  simp [inter]

theorem increasing_inter {s : List Nat} (h : Increasing s) (t : List Nat) :
    Increasing (inter s t) :=
  h.filter _

theorem Increasing.ext {s t : List Nat} (hs : Increasing s) (ht : Increasing t)
    (h : ∀ v, v ∈ s ↔ v ∈ t) : s = t := by
  induction s generalizing t with
  | nil => cases t with
    | nil => rfl
    | cons w t => simpa using h w
  | cons v s ih =>
    obtain ⟨hv, hs'⟩ := List.pairwise_cons.1 hs
    cases t with
    | nil => simpa using h v
    | cons w t =>
      obtain ⟨hw, ht'⟩ := List.pairwise_cons.1 ht
      have hvw : v = w := by
        rcases List.mem_cons.1 ((h v).1 (by simp)) with e | m
        · exact e
        · rcases List.mem_cons.1 ((h w).2 (by simp)) with e | m'
          · exact e.symm
          · have := hw v m; have := hv w m'; omega
      subst hvw
      refine congrArg _ (ih hs' ht' fun u => ⟨fun hu => ?_, fun hu => ?_⟩)
      · rcases List.mem_cons.1 ((h u).1 (by simp [hu])) with e | m
        · have := hv u hu; omega
        · exact m
      · rcases List.mem_cons.1 ((h u).2 (by simp [hu])) with e | m
        · have := hw u hu; omega
        · exact m

end Bayes.Scope
