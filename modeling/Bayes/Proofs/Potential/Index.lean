import Bayes.Proofs.Assignment
import Bayes.Proofs.Table
import Bayes.Proofs.VarMap
/-!
Indices of a table and assignments of its variables. The states of the variables of a scope, one for
every axis, are an index; an index gives every variable of the scope a state.
-/
namespace Bayes

theorem lookup_map_pair {β : Type} (s : List Nat) (f : Nat → β) (v : Nat) :
    (s.map fun w => (w, f w)).lookup v = if v ∈ s then some (f v) else none := by
  induction s with
  | nil => rfl
  | cons w s ih =>
    by_cases h : v = w
    · simp [h]
    · simp [List.lookup_cons, h, ih, beq_eq_false_iff_ne.2 h]

theorem zip_map_self {β : Type} (s : List Nat) (f : Nat → β) :
    s.zip (s.map f) = s.map fun v => (v, f v) := by
  induction s with
  | nil => rfl
  | cons v s ih => simp [ih]

theorem assign_map (s : List Nat) (x : Nat → Nat) (v : Nat) :
    assign s (s.map x) v = if v ∈ s then x v else 0 := by
  rw [assign, zip_map_self, lookup_map_pair]
  split <;> rfl

theorem fits_map {card : Nat → Nat} {s : List Nat} {x : Nat → Nat} :
    Table.fits (s.map card) (s.map x) = true ↔ Within card s x := by
  induction s with
  | nil => simp [Table.fits, Within]
  | cons v s ih => simp [Table.fits, ih, Within]

theorem Within.fits {α : Type} {table : Table α} {card : Nat → Nat} {s : List Nat} {x : Nat → Nat}
    (hx : Within card s x) (ht : table.shape = s.map card) : Table.fits table.shape (s.map x) = true := by
  rw [ht]
  exact fits_map.2 hx

theorem lt_of_fits_map {card : Nat → Nat} {s index : List Nat}
    (h : Table.fits (s.map card) index = true) : ∀ e ∈ s.zip index, e.2 < card e.1 := by
  induction s generalizing index with
  | nil => simp
  | cons v s ih =>
    cases index with
    | nil => simp
    | cons i index =>
      simp only [List.map_cons, Table.fits, Bool.and_eq_true, decide_eq_true_eq] at h
      rw [List.zip_cons_cons]
      exact List.forall_mem_cons.2 ⟨h.1, ih h.2⟩

theorem lookup_zip_of_not_mem {scope index : List Nat} {v : Nat} (h : v ∉ scope) :
    (scope.zip index).lookup v = none := by
  refine List.lookup_eq_none_iff.2 fun e he => ?_
  simpa using fun heq : v = e.1 => h (heq ▸ (List.of_mem_zip he).1)

theorem assign_of_not_mem {scope index : List Nat} {v : Nat} (h : v ∉ scope) :
    assign scope index v = 0 := by
  rw [assign, lookup_zip_of_not_mem h, Option.getD_none]

theorem lookup_zip {scope index : List Nat} (hlength : index.length = scope.length) {v : Nat}
    (hv : v ∈ scope) : (scope.zip index).lookup v = some (assign scope index v) := by
  have hkeys : (scope.zip index).map (·.1) = scope := List.map_fst_zip (by omega)
  cases hlookup : (scope.zip index).lookup v with
  | none =>
    obtain ⟨e, he, heq⟩ := List.mem_map.1 (hkeys.symm ▸ hv)
    simpa [heq] using List.lookup_eq_none_iff.1 hlookup e he
  | some i => rw [assign, hlookup, Option.getD_some]

theorem map_assign {scope index : List Nat} (hnodup : scope.Nodup)
    (hlength : index.length = scope.length) : scope.map (assign scope index) = index := by
  induction scope generalizing index with
  | nil => exact (List.eq_nil_of_length_eq_zero hlength).symm
  | cons v scope ih =>
    cases index with
    | nil => simp at hlength
    | cons i index =>
      obtain ⟨hv, hnodup⟩ := List.nodup_cons.1 hnodup
      have htail : scope.map (assign (v :: scope) (i :: index)) = scope.map (assign scope index) := by
        refine List.map_congr_left fun w hw => ?_
        have hwv : w ≠ v := fun heq => hv (heq ▸ hw)
        simp [assign, VarMap.lookup_cons_eq, hwv]
      rw [List.map_cons, htail, ih hnodup (by simpa using hlength)]
      simp [assign]

/-- An index that fits is that of an assignment whose states exist. -/
theorem within_assign {card : Nat → Nat} {scope index : List Nat} (hnodup : scope.Nodup)
    (h : Table.fits (scope.map card) index = true) :
    Within card scope (assign scope index) ∧ scope.map (assign scope index) = index := by
  have hindex : scope.map (assign scope index) = index :=
    map_assign hnodup (by simpa using (Table.length_of_fits h).symm)
  exact ⟨fits_map.1 (hindex.symm ▸ h), hindex⟩

theorem assign_concat {scope index : List Nat} {v : Nat} (hlength : index.length = scope.length)
    (hv : v ∉ scope) (i w : Nat) : assign (scope ++ [v]) (index ++ [i]) w =
      if w = v then i else assign scope index w := by
  rw [assign, List.zip_append hlength.symm, List.lookup_append]
  by_cases hw : w = v
  · rw [hw, lookup_zip_of_not_mem hv]
    simp
  · have hbeq : (w == v) = false := by simpa using hw
    simp [hbeq, hw, assign]

theorem mapM_eq_some {β γ : Type} {f : β → Option γ} {g : β → γ} (l : List β)
    (h : ∀ b ∈ l, f b = some (g b)) : l.mapM f = some (l.map g) := by
  induction l with
  | nil => rfl
  | cons b l ih =>
    obtain ⟨hb, hl⟩ := List.forall_mem_cons.1 h
    rw [List.mapM_cons, hb, ih hl]
    rfl

theorem mapM_eq_none {β γ : Type} {f : β → Option γ} {l : List β} (h : ∃ b ∈ l, f b = none) :
    l.mapM f = none := by
  induction l with
  | nil => simp at h
  | cons b l ih =>
    rw [List.mapM_cons]
    cases hb : f b with
    | none => rfl
    | some c =>
      have htail : l.mapM f = none := ih (by simpa [hb] using h)
      rw [htail]
      rfl

end Bayes
