import Mathlib.Data.List.Nodup
import Bayes.Proofs.Table
/-!
Tables changed axis by axis: a new axis of length one, a table spread over longer axes, axes in
another order, one axis reduced, and places of an axis filled with a number. Each operation is told by
the place of the axis, as the entries of the new table are looked up in the old one; the lemmas say the
same of an index cut at that place.
-/
namespace Bayes.Table

variable {α : Type}

theorem ofFn_congr {shape : List Nat} {f g : List Nat → α}
    (h : ∀ index, fits shape index = true → f index = g index) : ofFn shape f = ofFn shape g := by
  refine eq_of_toList rfl ?_
  simp only [ofFn, toList]
  exact List.map_congr_left fun index hindex => h index (mem_indices.1 hindex)

theorem eraseIdx_middle {β : Type} (front back : List β) (b : β) {axis : Nat}
    (haxis : axis = front.length) : (front ++ b :: back).eraseIdx axis = front ++ back := by
  subst haxis
  rw [List.eraseIdx_append_of_length_le (Nat.le_refl _), Nat.sub_self, List.eraseIdx_zero, List.tail_cons]

theorem insertIdx_middle {β : Type} (front back : List β) (b : β) {axis : Nat}
    (haxis : axis = front.length) : (front ++ back).insertIdx axis b = front ++ b :: back := by
  subst haxis
  induction front with
  | nil => rfl
  | cons c front ih => rw [List.cons_append, List.length_cons, List.insertIdx_succ_cons, ih,
      List.cons_append]

variable [Zero α]

def insertAxis (axis : Nat) (t : Table α) : Table α :=
  ofFn (t.shape.insertIdx axis 1) fun index => t.entry (index.eraseIdx axis)

/-- The table spread over a shape that may have more axes in front. An axis is as long as the one
asked for, or has a single place that stands for all. -/
def broadcast? (shape : List Nat) (t : Table α) : Option (Table α) :=
  let front := shape.length - t.shape.length
  if t.shape.length ≤ shape.length &&
      (t.shape.zip (shape.drop front)).all fun e => e.1 = e.2 || e.1 = 1 then
    some (ofFn shape fun index =>
      t.entry ((t.shape.zip (index.drop front)).map fun e => if e.1 = 1 then 0 else e.2))
  else none

/-- Every new axis is the old axis that the list names at its place. -/
def permuteAxes (axes : List Nat) (t : Table α) : Table α :=
  ofFn (axes.map fun axis => t.shape.getD axis 0) fun index =>
    t.entry ((List.range t.shape.length).map fun axis => index.getD (axes.idxOf axis) 0)

def reduceAxis (apply : List α → α) (axis : Nat) (t : Table α) : Table α :=
  ofFn (t.shape.eraseIdx axis) fun index =>
    apply ((List.range (t.shape.getD axis 0)).map fun i => t.entry (index.insertIdx axis i))

def fillAt (axis place : Nat) (value : α) (t : Table α) : Table α :=
  ofFn t.shape fun index => if index.getD axis 0 = place then value else t.entry index

def zipWith (f : α → α → α) (t u : Table α) : Table α :=
  ofFn t.shape fun index => f (t.entry index) (u.entry index)

variable {t : Table α} {front back index rest : List Nat} {axis : Nat}

theorem shape_insertAxis (h : t.shape = front ++ back) (haxis : axis = front.length) :
    (t.insertAxis axis).shape = front ++ 1 :: back := by
  rw [insertAxis, ofFn, h, insertIdx_middle front back 1 haxis]

theorem entry_insertAxis {i : Nat} (h : t.shape = front ++ back) (haxis : axis = front.length)
    (hfits : fits (front ++ 1 :: back) (index ++ i :: rest) = true)
    (hlength : index.length = front.length) :
    (t.insertAxis axis).entry (index ++ i :: rest) = t.entry (index ++ rest) := by
  have hshape : t.shape.insertIdx axis 1 = front ++ 1 :: back := by
    rw [h, insertIdx_middle front back 1 haxis]
  rw [insertAxis, hshape, entry_ofFn _ hfits, eraseIdx_middle index rest i (haxis.trans hlength.symm)]

theorem shape_reduceAxis {apply : List α → α} {k : Nat} (h : t.shape = front ++ k :: back)
    (haxis : axis = front.length) : (t.reduceAxis apply axis).shape = front ++ back := by
  rw [reduceAxis, ofFn, h, eraseIdx_middle front back k haxis]

theorem entry_reduceAxis {apply : List α → α} {k : Nat} (h : t.shape = front ++ k :: back)
    (haxis : axis = front.length) (hfits : fits (front ++ back) (index ++ rest) = true)
    (hlength : index.length = front.length) :
    (t.reduceAxis apply axis).entry (index ++ rest) =
      apply ((List.range k).map fun i => t.entry (index ++ i :: rest)) := by
  have hlong : t.shape.getD axis 0 = k := by
    rw [h, haxis]
    simp
  have hshape : t.shape.eraseIdx axis = front ++ back := by
    rw [h, eraseIdx_middle front back k haxis]
  rw [reduceAxis, hshape, entry_ofFn _ hfits, hlong]
  simp only [insertIdx_middle index rest _ (haxis.trans hlength.symm)]

theorem foldl_fillAt (axis : Nat) (value : α) (places : List Nat) : ∀ t : Table α,
    let filled := places.foldl (fun t place => t.fillAt axis place value) t
    filled.shape = t.shape ∧ ∀ index, fits t.shape index = true →
      filled.entry index = if index.getD axis 0 ∈ places then value else t.entry index := by
  induction places with
  | nil => exact fun t => ⟨rfl, fun index _ => by simp⟩
  | cons place places ih =>
    intro t
    obtain ⟨hshape, hentry⟩ := ih (t.fillAt axis place value)
    refine ⟨hshape, fun index hfits => ?_⟩
    rw [List.foldl_cons, hentry index hfits, fillAt, entry_ofFn _ hfits]
    by_cases hlater : index.getD axis 0 ∈ places
    · rw [if_pos hlater, if_pos (List.mem_cons_of_mem place hlater)]
    · simp only [hlater, if_false, List.mem_cons, or_false]

/-! Axes in another order -/

theorem getD_lt_of_fits {shape index : List Nat} (h : fits shape index = true) {axis : Nat}
    (haxis : axis < shape.length) : index.getD axis 0 < shape.getD axis 0 := by
  induction shape generalizing index axis with
  | nil => simp at haxis
  | cons k shape ih =>
    cases index with
    | nil => simp [fits] at h
    | cons i index =>
      simp only [fits, Bool.and_eq_true, decide_eq_true_eq] at h
      cases axis with
      | zero => exact h.1
      | succ axis => exact ih h.2 (by simpa using haxis)

theorem fits_map_getD {shape index : List Nat} (h : fits shape index = true) {axes : List Nat}
    (haxes : ∀ axis ∈ axes, axis < shape.length) :
    fits (axes.map fun axis => shape.getD axis 0) (axes.map fun axis => index.getD axis 0) = true := by
  induction axes with
  | nil => rfl
  | cons axis axes ih =>
    obtain ⟨haxis, haxes⟩ := List.forall_mem_cons.1 haxes
    rw [List.map_cons, List.map_cons, fits, ih haxes, Bool.and_true, decide_eq_true_eq]
    exact getD_lt_of_fits h haxis

theorem map_getD_range (index : List Nat) :
    (List.range index.length).map (fun axis => index.getD axis 0) = index := by
  refine List.ext_getElem (by simp) fun i _ hi => ?_
  simp [hi]

theorem entry_permuteAxes {axes : List Nat} (haxes : axes.Perm (List.range t.shape.length))
    (hfits : fits t.shape index = true) :
    (t.permuteAxes axes).entry (axes.map fun axis => index.getD axis 0) = t.entry index := by
  have hlt : ∀ axis ∈ axes, axis < t.shape.length := fun axis haxis =>
    List.mem_range.1 (haxes.mem_iff.1 haxis)
  have hback : ∀ axis ∈ List.range t.shape.length,
      (axes.map fun a => index.getD a 0).getD (axes.idxOf axis) 0 = index.getD axis 0 := by
    intro axis haxis
    have hmem : axes.idxOf axis < axes.length := List.idxOf_lt_length_of_mem (haxes.mem_iff.2 haxis)
    simp [List.getD_eq_getElem?_getD, List.getElem?_map, List.getElem?_eq_getElem hmem]
  rw [permuteAxes, entry_ofFn _ (fits_map_getD hfits hlt), List.map_congr_left hback,
    length_of_fits hfits, map_getD_range]

end Bayes.Table
