import Bayes.Scalar
/-!
Tables with any number of axes. An index names a place on every axis; entries are kept in the order
in which the last axis moves fastest.
-/
namespace Bayes

namespace Table

def size (shape : List Nat) : Nat := shape.foldr (· * ·) 1

/-- All indices of a shape, in the order of the entries. Nothing is walked when an axis has no
places, however many the other axes have. -/
def indices : List Nat → List (List Nat)
  | [] => [[]]
  | k :: shape =>
    if k * size shape = 0 then []
    else
      let rest := indices shape
      (List.range k).flatMap fun i => rest.map (i :: ·)

theorem length_indices (shape : List Nat) : (indices shape).length = size shape := by
  induction shape with
  | nil => rfl
  | cons k shape ih =>
    have : size (k :: shape) = k * size shape := rfl
    simp only [indices]
    split <;> simp_all [List.length_flatMap, List.map_const']

theorem indices_cons (k : Nat) (shape : List Nat) :
    indices (k :: shape) = (List.range k).flatMap fun i => (indices shape).map (i :: ·) := by
  simp only [indices]
  split
  · next h =>
    rcases Nat.mul_eq_zero.1 h with h | h
    · simp [h]
    · simp [List.eq_nil_of_length_eq_zero ((length_indices shape).trans h)]
  · rfl

def offset : List Nat → List Nat → Nat
  | _ :: shape, i :: index => i * size shape + offset shape index
  | _, _ => 0

def fits : List Nat → List Nat → Bool
  | [], [] => true
  | k :: shape, i :: index => i < k && fits shape index
  | _, _ => false

end Table

structure Table (α : Type) where
  shape : List Nat
  entries : Array α
  size_entries : entries.size = Table.size shape

namespace Table

variable {α : Type}

def ofFn (shape : List Nat) (f : List Nat → α) : Table α where
  shape
  entries := ((indices shape).map f).toArray
  size_entries := by simp [length_indices]

def ofList? (shape : List Nat) (entries : List α) : Option (Table α) :=
  if h : entries.length = size shape then
    some ⟨shape, entries.toArray, by simpa using h⟩
  else none

def map {β : Type} (f : α → β) (t : Table α) : Table β where
  shape := t.shape
  entries := t.entries.map f
  size_entries := by simpa using t.size_entries

def get? (t : Table α) (index : List Nat) : Option α :=
  if fits t.shape index then t.entries[offset t.shape index]? else none

def entry [Zero α] (t : Table α) (index : List Nat) : α :=
  t.entries[offset t.shape index]?.getD 0

def toList (t : Table α) : List α := t.entries.toList

def rows [Zero α] (t : Table α) : List (List α) :=
  (indices t.shape.dropLast).map fun index =>
    (List.range (t.shape.getLast?.getD 1)).map fun i => t.entry (index ++ [i])

end Table
end Bayes
