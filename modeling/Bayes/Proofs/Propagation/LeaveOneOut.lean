import Bayes.Propagation
import Bayes.Proofs.Message
/-!
Products of messages with one left out. A clique multiplies the messages of later children once, from the
last one on, and those of earlier children as it goes along; what it keeps for a child is one of the
first times one of the second. Nothing is ever divided, so messages without mass are nothing special.
-/
namespace Bayes

namespace Message

noncomputable def told (u : Option (Message ℝ)) (x : Nat → Nat) : ℝ := u.elim 1 (·.value x)

/-- A message over some of the variables only, unless it is missing. -/
def About (card : Nat → Nat) (s : List Nat) (u : Option (Message ℝ)) : Prop :=
  ∀ n ∈ u, ∃ t, (∀ v ∈ t, v ∈ s) ∧ n.Carries card t n.value

variable {card : Nat → Nat} {s t : List Nat} {m n : Message ℝ} {f : (Nat → Nat) → ℝ}
  {u : Option (Message ℝ)} {us : List (Option (Message ℝ))}

theorem about_none : About card s none := fun _ hn => by simp at hn

theorem Carries.about (h : n.Carries card t f) (ht : ∀ v ∈ t, v ∈ s) : About card s (some n) := by
  intro n' hn
  obtain rfl : n = n' := Option.some.inj hn
  exact ⟨t, ht, h.congr fun x hx => (h.value_eq x hx).symm⟩

theorem Carries.absorb_told (hm : m.Carries card s f) (hu : About card s u) :
    (m.absorb u).Carries card s fun x => f x * told u x := by
  cases u with
  | none => exact hm.congr fun x _ => (mul_one (f x)).symm
  | some n =>
    obtain ⟨t, ht, hn⟩ := hu n rfl
    exact hm.absorb hn ht

theorem Carries.foldl_absorb (hus : ∀ u ∈ us, About card s u) (hm : m.Carries card s f) :
    (us.foldl Message.absorb m).Carries card s fun x => f x * (us.map (told · x)).prod := by
  induction us generalizing m f with
  | nil => exact hm.congr fun x _ => (mul_one (f x)).symm
  | cons u us ih =>
    obtain ⟨hu, hus⟩ := List.forall_mem_cons.1 hus
    refine (ih hus (hm.absorb_told hu)).congr fun x _ => ?_
    rw [List.map_cons, List.prod_cons, mul_assoc]

end Message

namespace Propagator

open Message

section Lists

variable {α : Type} [Scalar α]

theorem suffixes_ne_nil (us : List (Option (Message α))) : suffixes us ≠ [] := by
  induction us with
  | nil => simp [suffixes]
  | cons u us ih =>
    cases hs : suffixes us with
    | nil => exact absurd hs ih
    | cons s later => simp [suffixes, hs]

theorem suffixes_cons (u : Option (Message α)) (us : List (Option (Message α))) :
    (suffixes (u :: us)).tail = suffixes us := by
  cases hs : suffixes us with
  | nil => exact absurd hs (suffixes_ne_nil us)
  | cons s later => simp [suffixes, hs]

theorem length_leaveOneOut (before : Message α) (us : List (Option (Message α))) :
    (leaveOneOut before us (suffixes us).tail).length = us.length := by
  induction us generalizing before with
  | nil => rfl
  | cons u us ih =>
    rw [suffixes_cons]
    cases hs : suffixes us with
    | nil => exact absurd hs (suffixes_ne_nil us)
    | cons s later =>
      have htail := ih (before.absorb u)
      rw [hs, List.tail_cons] at htail
      rw [leaveOneOut, List.length_cons, htail, List.length_cons]

end Lists

variable {card : Nat → Nat} {s : List Nat} {m : Message ℝ} {f : (Nat → Nat) → ℝ}
  {us : List (Option (Message ℝ))}

theorem carries_product_told {p : Propagator ℝ} {c : Nat} {collected : Collected ℝ}
    (hown : (p.own c).Carries card s f)
    (hus : ∀ u ∈ (p.tree.children c).map collected.upward.at?, About card s u) :
    (p.product collected c).Carries card s fun x =>
      f x * (((p.tree.children c).map collected.upward.at?).map (told · x)).prod := by
  have hfold := hown.foldl_absorb hus
  rwa [List.foldl_map] at hfold

theorem carries_suffixes (hus : ∀ u ∈ us, About card s u) :
    ∃ n later t, suffixes us = n :: later ∧ (∀ v ∈ t, v ∈ s) ∧
      n.Carries card t fun x => (us.map (told · x)).prod := by
  induction us with
  | nil => exact ⟨.unit, [], [], rfl, by simp, carries_unit⟩
  | cons u us ih =>
    obtain ⟨hu, hus⟩ := List.forall_mem_cons.1 hus
    obtain ⟨n, later, t, hs, ht, hn⟩ := ih hus
    cases u with
    | none =>
      refine ⟨n, n :: later, t, by simp [suffixes, hs], ht, hn.congr fun x _ => ?_⟩
      exact (one_mul _).symm
    | some k =>
      obtain ⟨r, hr, hk⟩ := hu k rfl
      refine ⟨k.multiply n, n :: later, Scope.union r t, by simp [suffixes, hs], fun v hv => ?_,
        hk.multiply hn⟩
      cases Scope.mem_union.1 hv with
      | inl hv => exact hr v hv
      | inr hv => exact ht v hv

/-- At every place there is what comes from elsewhere, times the messages of all other places. -/
theorem carries_leaveOneOut (hus : ∀ u ∈ us, About card s u) {before : Message ℝ}
    (hbefore : before.Carries card s f) {i : Nat}
    (hi : (leaveOneOut before us (suffixes us).tail)[i]? = some m) :
    m.Carries card s fun x => f x * ((us.eraseIdx i).map (told · x)).prod := by
  induction us generalizing before f i with
  | nil => simp [leaveOneOut] at hi
  | cons u us ih =>
    obtain ⟨hu, hus⟩ := List.forall_mem_cons.1 hus
    obtain ⟨n, later, t, hs, ht, hn⟩ := carries_suffixes hus
    rw [suffixes_cons, hs, leaveOneOut] at hi
    cases i with
    | zero =>
      obtain rfl : before.multiply n = m := by simpa using hi
      exact hbefore.absorb hn ht
    | succ i =>
      have hrest : (leaveOneOut (before.absorb u) us (suffixes us).tail)[i]? = some m := by
        simpa [hs] using hi
      refine (ih hus (hbefore.absorb_told hu) hrest).congr fun x _ => ?_
      rw [List.eraseIdx_cons_succ, List.map_cons, List.prod_cons, mul_assoc]

end Propagator
end Bayes
