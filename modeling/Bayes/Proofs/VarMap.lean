import Bayes.VarMap
/-!
What a map holds after each operation, and two maps that hold the same are equal.
-/
namespace Bayes.VarMap

variable {β : Type} {m n : VarMap β} {v w : Nat} {x : β}

theorem lookup_cons_eq (e : Nat × β) (l : List (Nat × β)) :
    (e :: l).lookup w = if w = e.1 then some e.2 else l.lookup w := by
  obtain ⟨k, y⟩ := e
  by_cases h : w = k
  · simp [h]
  · have hbeq : (w == k) = false := by simpa using h
    rw [List.lookup_cons, hbeq, if_neg h]

theorem lookup_put (l : List (Nat × β)) :
    (put v x l).lookup w = if w = v then some x else l.lookup w := by
  induction l with
  | nil => rw [put, lookup_cons_eq]
  | cons e l ih =>
    simp only [put]
    by_cases hlt : v < e.1
    · rw [if_pos hlt, lookup_cons_eq]
    · by_cases heq : v = e.1
      · rw [if_neg hlt, if_pos heq, lookup_cons_eq, lookup_cons_eq, ← heq]
        by_cases hw : w = v
        · rw [if_pos hw, if_pos hw]
        · rw [if_neg hw, if_neg hw, if_neg hw]
      · rw [if_neg hlt, if_neg heq, lookup_cons_eq, lookup_cons_eq, ih]
        by_cases hw : w = v
        · have hne : w ≠ e.1 := fun hwe => heq (hw.symm.trans hwe)
          rw [if_neg hne, if_pos hw, if_pos hw]
        · rw [if_neg hw, if_neg hw]

theorem get?_empty (v : Nat) : (empty : VarMap β).get? v = none := rfl

theorem get?_insert (m : VarMap β) (v : Nat) (x : β) (w : Nat) :
    (m.insert v x).get? w = if w = v then some x else m.get? w := lookup_put m.entries

theorem lookup_eq_none {l : List (Nat × β)} (h : v ∉ l.map (·.1)) : l.lookup v = none := by
  refine List.lookup_eq_none_iff.2 fun e he => ?_
  simpa using fun heq : v = e.1 => h (heq ▸ List.mem_map_of_mem he)

theorem get?_foldl_insert {γ : Type} (g : γ → β) (l : List (Nat × γ)) (hl : (l.map (·.1)).Nodup) :
    ∀ (m : VarMap β) (w : Nat), (l.foldl (fun m e => m.insert e.1 (g e.2)) m).get? w =
      ((l.lookup w).map g).or (m.get? w) := by
  induction l with
  | nil =>
    intro m w
    rfl
  | cons e l ih =>
    intro m w
    obtain ⟨he, hl⟩ := List.nodup_cons.1 hl
    rw [List.foldl_cons, ih hl, lookup_cons_eq, get?_insert]
    by_cases hw : w = e.1
    · rw [if_pos hw, if_pos hw, lookup_eq_none (hw ▸ he)]
      rfl
    · rw [if_neg hw, if_neg hw]

theorem get?_ofList {l : List (Nat × β)} (hl : (l.map (·.1)).Nodup) (w : Nat) :
    (ofList l).get? w = l.lookup w := by
  have h := get?_foldl_insert id l hl empty w
  rwa [Option.map_id, id, get?_empty, Option.or_none] at h

theorem contains_iff : m.contains v = true ↔ ∃ x, m.get? v = some x := by
  rw [contains, Option.isSome_iff_exists]

theorem get?_insertIfNew (m : VarMap β) (v : Nat) (x : β) (w : Nat) :
    (m.insertIfNew v x).get? w = if w = v then some ((m.get? v).getD x) else m.get? w := by
  rw [insertIfNew]
  by_cases hc : m.contains v = true
  · obtain ⟨y, hy⟩ := contains_iff.1 hc
    rw [if_pos hc]
    by_cases hw : w = v
    · simp [hw, hy]
    · simp [hw]
  · have hnone : m.get? v = none := by simpa [contains] using hc
    rw [if_neg hc, get?_insert, hnone]
    rfl

theorem mem_entries_of_get? (h : m.get? v = some x) : (v, x) ∈ m.entries := by
  obtain ⟨l₁, l₂, hl, _⟩ := List.lookup_eq_some_iff.1 h
  simp [hl]

theorem get?_of_mem_entries (h : (v, x) ∈ m.entries) : m.get? v = some x := by
  obtain ⟨l, hl⟩ := m
  induction l with
  | nil => simp at h
  | cons e l ih =>
    obtain ⟨he, hl'⟩ := List.pairwise_cons.1 hl
    rw [get?, lookup_cons_eq]
    obtain rfl | hmem := List.mem_cons.1 h
    · rw [if_pos rfl]
    · have hlt := he _ hmem
      rw [if_neg (Nat.ne_of_gt hlt)]
      exact ih hl' hmem

theorem mem_entries : (v, x) ∈ m.entries ↔ m.get? v = some x :=
  ⟨get?_of_mem_entries, mem_entries_of_get?⟩

theorem mem_keys : v ∈ m.keys ↔ ∃ x, m.get? v = some x := by
  simp only [keys, List.mem_map, Prod.exists, mem_entries]
  constructor
  · rintro ⟨w, x, hx, rfl⟩
    exact ⟨x, hx⟩
  · rintro ⟨x, hx⟩
    exact ⟨v, x, hx, rfl⟩

theorem get?_filterMap {γ : Type} (m : VarMap β) (f : β → Option γ) (v : Nat) :
    (m.filterMap f).get? v = (m.get? v).bind f := by
  refine Option.ext fun y => ?_
  rw [← mem_entries, Option.bind_eq_some_iff, filterMap, List.mem_filterMap]
  constructor
  · rintro ⟨⟨w, x⟩, hmem, hy⟩
    obtain ⟨z, hz, heq⟩ := Option.map_eq_some_iff.1 hy
    obtain ⟨rfl, rfl⟩ := Prod.mk.inj heq
    exact ⟨x, mem_entries.1 hmem, hz⟩
  · rintro ⟨x, hx, hy⟩
    exact ⟨(v, x), mem_entries.2 hx, by simp [hy]⟩

theorem get?_filter (m : VarMap β) (p : Nat → β → Bool) (v : Nat) :
    (m.filter p).get? v = (m.get? v).filter (p v) := by
  refine Option.ext fun x => ?_
  rw [← mem_entries, Option.filter_eq_some_iff, filter, List.mem_filter, mem_entries]

theorem get?_erase (m : VarMap β) (v w : Nat) :
    (m.erase v).get? w = if w = v then none else m.get? w := by
  have hfilter : (m.erase v).get? w = (m.get? w).filter fun _ => w != v := get?_filter m _ w
  rw [hfilter]
  by_cases hw : w = v
  · simp [hw]
  · cases m.get? w <;> simp [hw]

theorem ext_get? (h : ∀ v, m.get? v = n.get? v) : m = n := by
  have hmem (e : Nat × β) : e ∈ m.entries ↔ e ∈ n.entries := by
    obtain ⟨v, x⟩ := e
    rw [mem_entries, mem_entries, h]
  have hne {e d : Nat × β} (hlt : e.1 < d.1) : e ≠ d := fun heq =>
    Nat.lt_irrefl _ (heq ▸ hlt)
  have hperm : m.entries.Perm n.entries :=
    (List.perm_ext_iff_of_nodup (m.increasing.imp hne) (n.increasing.imp hne)).2 hmem
  have heq : m.entries = n.entries :=
    hperm.eq_of_pairwise (fun e d _ _ hed hde => absurd hde (Nat.lt_asymm hed)) m.increasing
      n.increasing
  obtain ⟨entries, _⟩ := m
  obtain ⟨entries', _⟩ := n
  cases heq
  rfl

theorem entries_inj : m.entries = n.entries ↔ m = n := by
  refine ⟨fun h => ext_get? fun v => ?_, fun h => h ▸ rfl⟩
  rw [get?, h, get?]

theorem insert_eq_self : m.insert v x = m ↔ m.get? v = some x := by
  refine ⟨fun h => ?_, fun h => ext_get? fun w => ?_⟩
  · rw [← h, get?_insert, if_pos rfl]
  · rw [get?_insert]
    split
    · next hw => rw [hw, h]
    · rfl

theorem erase_eq_self : m.erase v = m ↔ m.contains v = false := by
  rw [contains, Option.isSome_eq_false_iff, Option.isNone_iff_eq_none]
  refine ⟨fun h => ?_, fun h => ext_get? fun w => ?_⟩
  · rw [← h, get?_erase, if_pos rfl]
  · rw [get?_erase, ite_eq_right_iff]
    exact fun hw => (hw ▸ h).symm

theorem increasing_keys (m : VarMap β) : m.keys.Pairwise (· < ·) := List.pairwise_map.2 m.increasing

end Bayes.VarMap
