import Mathlib.Data.List.Induction
import Mathlib.Data.List.Nodup
import Mathlib.Data.List.Perm.Subperm
/-!
Lists without their repetitions. Of an element that occurs again, the first occurrence stays.
-/
namespace Bayes

variable {β γ : Type} [BEq β] [LawfulBEq β] [BEq γ] [LawfulBEq γ]

theorem eraseDups_concat (l : List β) (b : β) [Decidable (b ∈ l)] :
    (l ++ [b]).eraseDups = if b ∈ l then l.eraseDups else l.eraseDups ++ [b] := by
  rw [List.eraseDups_append, List.cons_removeAll]
  by_cases hb : b ∈ l <;> simp [hb, List.eraseDups_cons]

theorem eraseDups_append_cons (l : List β) (b : β) (rest : List β) [Decidable (b ∈ l)] :
    (l ++ b :: rest).eraseDups = ((if b ∈ l then l else l ++ [b]) ++ rest).eraseDups := by
  split
  · next hb => rw [List.eraseDups_append, List.eraseDups_append, List.cons_removeAll]; simp [hb]
  · rw [List.append_assoc, List.singleton_append]

theorem nodup_eraseDups (l : List β) : l.eraseDups.Nodup := by
  classical
  induction l using List.reverseRecOn with
  | nil => simp
  | append_singleton l b ih =>
    rw [eraseDups_concat]
    split
    · exact ih
    · next hb =>
      exact List.nodup_append.2 ⟨ih, List.nodup_singleton b, fun x hx y hy => by
        rintro rfl
        exact hb (List.mem_singleton.1 hy ▸ List.mem_eraseDups.1 hx)⟩

theorem eraseDups_eq_self {l : List β} (h : l.Nodup) : l.eraseDups = l := by
  classical
  induction l using List.reverseRecOn with
  | nil => rfl
  | append_singleton l b ih =>
    obtain ⟨hl, -, hb⟩ := List.nodup_append.1 h
    rw [eraseDups_concat, if_neg fun hmem => hb b hmem b (List.mem_singleton_self b) rfl, ih hl]

theorem length_eraseDups_eq_iff {l : List β} : l.eraseDups.length = l.length ↔ l.Nodup := by
  refine ⟨fun h => ?_, fun h => by rw [eraseDups_eq_self h]⟩
  have hsub : l.eraseDups.Subperm l :=
    List.subperm_of_subset (nodup_eraseDups l) fun _ hb => List.mem_eraseDups.1 hb
  exact (hsub.perm_of_length_le (Nat.le_of_eq h.symm)).nodup_iff.1 (nodup_eraseDups l)

theorem eraseDups_map (f : β → γ) (l : List β) (hf : ∀ a ∈ l, ∀ b ∈ l, f a = f b → a = b) :
    (l.map f).eraseDups = l.eraseDups.map f := by
  classical
  induction l using List.reverseRecOn with
  | nil => rfl
  | append_singleton l b ih =>
    have hmem : f b ∈ l.map f ↔ b ∈ l := by
      refine ⟨fun h => ?_, List.mem_map_of_mem⟩
      obtain ⟨a, ha, hab⟩ := List.mem_map.1 h
      exact hf a (by simp [ha]) b (by simp) hab ▸ ha
    have ih := ih fun a ha c hc => hf a (by simp [ha]) c (by simp [hc])
    rw [List.map_append, List.map_singleton, eraseDups_concat, eraseDups_concat, ih]
    by_cases hb : b ∈ l
    · rw [if_pos (hmem.2 hb), if_pos hb]
    · rw [if_neg fun h => hb (hmem.1 h), if_neg hb, List.map_append, List.map_singleton]

theorem nodup_map_idxOf {l : List β} (h : l.Nodup) : (l.map l.idxOf).Nodup :=
  h.map_on fun _ hb _ _ heq => (List.idxOf_inj hb).1 heq

end Bayes
