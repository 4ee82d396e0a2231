import Bayes.Proofs.Table
import Bayes.Potential
/-!
Tables that are changed entry by entry, with numbers of another kind as a result or of the same. What the
operations read of a table besides its entries stays as it is, so a function that goes well with products
or with reductions of numbers goes well with those of tables.
-/
namespace Bayes

variable {α β : Type}

namespace Table

theorem toList_map (f : α → β) (t : Table α) : (t.map f).toList = t.toList.map f := by
  simp [map, toList]

theorem map_map {γ : Type} (f : α → β) (g : β → γ) (t : Table α) :
    (t.map f).map g = t.map fun a => g (f a) := by
  simp [map, Function.comp_def]

theorem map_congr {f g : α → β} {t : Table α} (h : ∀ a ∈ t.toList, f a = g a) : t.map f = t.map g := by
  refine eq_of_toList rfl ?_
  rw [toList_map, toList_map]
  exact List.map_congr_left h

theorem get?_map (f : α → β) (t : Table α) (index : List Nat) :
    (t.map f).get? index = (t.get? index).map f := by
  simp only [get?, map, Array.getElem?_map]
  split <;> rfl

theorem entry_map [Zero α] [Zero β] {f : α → β} (h0 : f 0 = 0) (t : Table α) (index : List Nat) :
    (t.map f).entry index = f (t.entry index) := by
  simp only [entry, map, Array.getElem?_map]
  cases t.entries[offset t.shape index]? with
  | none => exact h0.symm
  | some a => rfl

theorem ofFn_map (shape : List Nat) (f : List Nat → α) (g : α → β) :
    (ofFn shape f).map g = ofFn shape fun index => g (f index) := by
  simp [ofFn, map, Function.comp_def]

end Table

namespace Potential

def map (f : α → β) (p : Potential α) : Potential β := ⟨p.scope, p.table.map f⟩

theorem ofFn_map (axes : List (Nat × Nat)) (g : (Nat → Nat) → α) (f : α → β) :
    (ofFn axes g).map f = ofFn axes fun x => f (g x) :=
  congrArg (Potential.mk _) (Table.ofFn_map _ _ f)

variable [Scalar α] [Scalar β] {p q : Potential α} {f : α → β} {how : Reduction}

theorem value_map (h0 : f 0 = 0) (p : Potential α) (x : Nat → Nat) :
    (p.map f).value x = f (p.value x) :=
  Table.entry_map h0 p.table _

theorem multiply_map {g h : α → β} (hf : f 0 = 0) (hg : g 0 = 0)
    (hmul : ∀ a b, f a * g b = h (a * b)) (p q : Potential α) :
    (p.map f).multiply (q.map g) = (p.multiply q).map h := by
  rw [multiply, multiply, ofFn_map]
  refine congrArg (ofFn _) (funext fun x => ?_)
  rw [value_map hf, value_map hg, hmul]

/-- As many entries are put together as the axis of the variable is long. -/
theorem eliminate_map (h0 : f 0 = 0) (v : Nat) (hf : ∀ xs : List α, xs.length ∈ p.table.shape →
      how.apply (xs.map f) = f (how.apply xs)) :
    (p.map f).eliminate v how = (p.eliminate v how).map f := by
  have haxes : (p.map f).cardinality? v = p.cardinality? v := rfl
  rw [eliminate, eliminate, haxes]
  cases hk : p.cardinality? v with
  | none => rfl
  | some k =>
    have hlength : k ∈ p.table.shape := by
      obtain ⟨l₁, l₂, hsplit, -⟩ := List.lookup_eq_some_iff.1 hk
      exact (List.of_mem_zip (hsplit ▸ List.mem_append_right l₁ List.mem_cons_self)).2
    dsimp only
    rw [ofFn_map]
    refine congrArg (ofFn _) (funext fun x => ?_)
    rw [← hf _ (by simpa using hlength), List.map_map]
    simp only [value_map h0, Function.comp_def]

theorem shape_eliminate_subset (p : Potential α) (v : Nat) (how : Reduction) :
    (p.eliminate v how).table.shape ⊆ p.table.shape := by
  rw [eliminate]
  split
  · exact List.Subset.refl _
  · intro k hk
    obtain ⟨a, ha, rfl⟩ := List.mem_map.1 hk
    exact (List.of_mem_zip (List.mem_filter.1 ha).1).2

theorem onto_map (h0 : f 0 = 0) (keep : List Nat) (hf : ∀ xs : List α, xs.length ∈ p.table.shape →
      how.apply (xs.map f) = f (how.apply xs)) :
    (p.map f).onto keep how = (p.onto keep how).map f := by
  change p.scope.reverse.foldl _ (p.map f) = (p.scope.reverse.foldl _ p).map f
  -- the tables on the way have no axes of other lengths
  generalize p.scope.reverse = vs
  induction vs generalizing p with
  | nil => rfl
  | cons v vs ih =>
    rw [List.foldl_cons, List.foldl_cons]
    split
    · exact ih hf
    · rw [eliminate_map h0 v hf]
      exact ih fun xs hxs => hf xs (shape_eliminate_subset p v how hxs)

end Potential
end Bayes
