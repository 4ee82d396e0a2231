import Bayes.Table
/-!
Where the entries of a table are. The indices of a shape are listed in the order of their offsets, so
an index that fits finds the entry that was written for it, and the rows stand one behind the other.
-/
namespace Bayes.Table

theorem length_toList {α : Type} (t : Table α) : t.toList.length = size t.shape := by
  rw [toList, Array.length_toList, t.size_entries]

theorem ofList?_eq_some {α : Type} {shape : List Nat} {entries : List α} {t : Table α} :
    ofList? shape entries = some t ↔ t.shape = shape ∧ t.toList = entries := by
  rw [ofList?]
  constructor
  · intro h
    split at h
    · cases h
      exact ⟨rfl, rfl⟩
    · cases h
  · rintro ⟨rfl, rfl⟩
    rw [dif_pos t.length_toList]
    rfl

theorem eq_of_toList {α : Type} {t u : Table α} (hshape : t.shape = u.shape) (h : t.toList = u.toList) :
    t = u :=
  Option.some.inj ((ofList?_eq_some.2 ⟨hshape, h⟩).symm.trans (ofList?_eq_some.2 ⟨rfl, rfl⟩))

theorem length_of_fits {shape index : List Nat} (h : fits shape index = true) :
    shape.length = index.length := by
  induction shape generalizing index with
  | nil => cases index <;> simp_all [fits]
  | cons k shape ih =>
    cases index with
    | nil => simp [fits] at h
    | cons i index =>
      simp only [fits, Bool.and_eq_true] at h
      rw [List.length_cons, List.length_cons, ih h.2]

theorem fits_concat {shape index : List Nat} {k i : Nat} :
    fits (shape ++ [k]) (index ++ [i]) = true ↔ fits shape index = true ∧ i < k := by
  induction shape generalizing index with
  | nil =>
    cases index with
    | nil => simp [fits]
    | cons j index => cases index <;> simp [fits]
  | cons l shape ih =>
    cases index with
    | nil => cases shape <;> simp [fits]
    | cons j index => simp [fits, ih, and_assoc]

theorem mem_indices {shape index : List Nat} : index ∈ indices shape ↔ fits shape index = true := by
  induction shape generalizing index with
  | nil => cases index <;> simp [indices, fits]
  | cons k shape ih =>
    rw [indices_cons]
    cases index with
    | nil => simp [fits]
    | cons i index => simp [fits, ih]

theorem flatMap_range_map (k m : Nat) :
    ((List.range k).flatMap fun i => (List.range m).map (i * m + ·)) = List.range (k * m) := by
  induction k with
  | zero => simp
  | succ k ih => rw [List.range_succ, List.flatMap_append, ih, Nat.succ_mul, List.range_add]; simp

theorem map_offset_indices (shape : List Nat) :
    (indices shape).map (offset shape) = List.range (size shape) := by
  induction shape with
  | nil => rfl
  | cons k shape ih =>
    have hrow (i : Nat) : ((indices shape).map (i :: ·)).map (offset (k :: shape)) =
        (List.range (size shape)).map (i * size shape + ·) := by
      rw [← ih]
      simp [offset, Function.comp_def]
    rw [indices_cons, List.map_flatMap]
    simp only [hrow]
    exact flatMap_range_map k (size shape)

theorem getElem?_indices {shape index : List Nat} (h : fits shape index = true) :
    (indices shape)[offset shape index]? = some index := by
  obtain ⟨n, hn, hi⟩ := List.getElem_of_mem (mem_indices.2 h)
  have hoff : offset shape index = n := by
    have hn' : n < ((indices shape).map (offset shape)).length := by simpa using hn
    calc
      offset shape index = ((indices shape).map (offset shape))[n] := by rw [List.getElem_map, hi]
      _ = n := by simp only [map_offset_indices, List.getElem_range]
  rw [hoff, List.getElem?_eq_getElem hn, hi]

variable {α : Type} [Zero α]

theorem entry_ofFn {shape index : List Nat} (f : List Nat → α) (h : fits shape index = true) :
    (ofFn shape f).entry index = f index := by
  simp [entry, ofFn, getElem?_indices h]

theorem toList_eq_map_entry (t : Table α) : t.toList = (indices t.shape).map t.entry := by
  have hentry : t.entry = (fun i => t.entries[i]?.getD 0) ∘ offset t.shape := rfl
  rw [hentry, ← List.map_map, map_offset_indices, toList, ← t.size_entries]
  refine List.ext_getElem (by simp) fun i hi _ => ?_
  have hs : i < t.entries.size := by simpa using hi
  simp [hs]

/-- An index that is out of range may still find an entry of another index, or else zero. -/
theorem entry_mem_or_zero (t : Table α) (index : List Nat) :
    t.entry index ∈ t.toList ∨ t.entry index = 0 := by
  cases h : t.entries[offset t.shape index]? with
  | none => exact Or.inr (by simp [entry, h])
  | some a =>
    refine Or.inl ?_
    rw [show t.entry index = a by simp [entry, h], toList, Array.mem_toList_iff]
    exact Array.mem_of_getElem? h

theorem get?_eq_some {t : Table α} {index : List Nat} (h : fits t.shape index = true) :
    t.get? index = some (t.entry index) := by
  have hmem : offset t.shape index ∈ List.range (size t.shape) := by
    rw [← map_offset_indices]
    exact List.mem_map_of_mem (mem_indices.2 h)
  have hlt : offset t.shape index < t.entries.size := by
    rw [t.size_entries]
    exact List.mem_range.1 hmem
  simp [get?, entry, h, hlt]

/-! Rows -/

theorem size_concat (shape : List Nat) (k : Nat) : size (shape ++ [k]) = size shape * k := by
  induction shape with
  | nil => simp [size]
  | cons l shape ih =>
    have hcons (s : List Nat) : size (l :: s) = l * size s := rfl
    rw [List.cons_append, hcons, hcons, ih, Nat.mul_assoc]

theorem offset_concat (k i : Nat) {shape index : List Nat} (h : fits shape index = true) :
    offset (shape ++ [k]) (index ++ [i]) = offset shape index * k + i := by
  induction shape generalizing index with
  | nil =>
    cases index with
    | nil => simp [offset, size]
    | cons j index => simp [fits] at h
  | cons l shape ih =>
    cases index with
    | nil => simp [fits] at h
    | cons j index =>
      simp only [fits, Bool.and_eq_true] at h
      rw [List.cons_append, List.cons_append, offset, offset, ih h.2, size_concat, Nat.add_mul,
        Nat.mul_assoc, Nat.add_assoc]

def runs {α : Type} (k : Nat) (xs : List α) : List (List α) :=
  (List.range (xs.length / k)).map fun i => (xs.drop (i * k)).take k

theorem rows_eq_runs {t : Table α} {shape : List Nat} {k : Nat} (hk : 0 < k)
    (h : t.shape = shape ++ [k]) : t.rows = runs k t.toList := by
  have hlength : t.toList.length = size shape * k := by
    rw [length_toList, h, size_concat]
  have hrow (index : List Nat) (hindex : index ∈ indices shape) :
      (List.range k).map (fun i => t.entry (index ++ [i])) =
        (t.toList.drop (offset shape index * k)).take k := by
    have hfits := mem_indices.1 hindex
    have hlt : offset shape index < size shape := by
      rw [← List.mem_range, ← map_offset_indices]
      exact List.mem_map_of_mem hindex
    have hroom : offset shape index * k + k ≤ t.toList.length := by
      rw [hlength, ← Nat.succ_mul]
      exact Nat.mul_le_mul_right k hlt
    refine List.ext_getElem (by simp; omega) fun i hi _ => ?_
    have hi : i < k := by simpa using hi
    have hplace : offset shape index * k + i < t.entries.size := by
      rw [toList, Array.length_toList] at hroom
      omega
    simp [entry, h, offset_concat k i hfits, hplace, toList]
  rw [rows, h, List.dropLast_concat, List.getLast?_concat, Option.getD_some, runs, hlength,
    Nat.mul_div_cancel _ hk, ← map_offset_indices, List.map_map]
  exact List.map_congr_left hrow

theorem exists_of_fits_concat {shape index : List Nat} {k : Nat}
    (h : fits (shape ++ [k]) index = true) :
    ∃ outer i, index = outer ++ [i] ∧ fits shape outer = true ∧ i < k := by
  obtain rfl | ⟨outer, i, rfl⟩ := List.eq_nil_or_concat index
  · simpa using length_of_fits h
  · rw [List.concat_eq_append] at h ⊢
    exact ⟨outer, i, rfl, fits_concat.1 h⟩

theorem rows_ofFn (shape : List Nat) (k : Nat) (f : List Nat → α) :
    (ofFn (shape ++ [k]) f).rows =
      (indices shape).map fun index => (List.range k).map fun i => f (index ++ [i]) := by
  change (indices (shape ++ [k]).dropLast).map _ = _
  rw [List.dropLast_concat]
  refine List.map_congr_left fun index hindex => ?_
  change (List.range ((shape ++ [k]).getLast?.getD 1)).map _ = _
  rw [List.getLast?_concat, Option.getD_some]
  refine List.map_congr_left fun i hi => ?_
  exact entry_ofFn f (fits_concat.2 ⟨mem_indices.1 hindex, List.mem_range.1 hi⟩)

theorem eq_replicate_of_mem_rows {shape : List Nat} {k : Nat} {x : α} {row : List α}
    (h : row ∈ (ofFn (shape ++ [k]) fun _ => x).rows) : row = List.replicate k x := by
  rw [rows_ofFn] at h
  obtain ⟨-, -, rfl⟩ := List.mem_map.1 h
  rw [List.map_const', List.length_range]

end Bayes.Table
