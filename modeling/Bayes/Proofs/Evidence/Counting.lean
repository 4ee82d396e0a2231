import Mathlib.Data.Set.Card
import Bayes.Proofs.Evidence
/-!
The number that a change of the evidence answers with is the number of variables about which something
else is known afterwards. Findings that are dropped, put on a new variable, or put in the place of a
different one count once each, and a finding that is put again does not count.
-/
namespace Bayes.Evidence

variable {old new kept findings : Findings} {kind : Kind} {states : VarMap Nat} {v w : Nat} {f : Finding}

/-- The variables about which something else is known than before. -/
def differing (old new : Findings) : Set Nat := {v | new.get? v ≠ old.get? v}

theorem mem_differing : v ∈ differing old new ↔ new.get? v ≠ old.get? v := Iff.rfl

theorem differing_self (findings : Findings) : differing findings findings = ∅ := by
  simp [differing]

theorem differing_eq_empty : differing old new = ∅ ↔ new = old := by
  refine ⟨fun h => VarMap.ext_get? fun v => ?_, fun h => h ▸ differing_self old⟩
  exact not_not.1 fun hv => Set.eq_empty_iff_forall_notMem.1 h v (mem_differing.2 hv)

def known (findings : Findings) : Set Nat := {v | findings.get? v ≠ none}

theorem mem_known : v ∈ known findings ↔ findings.get? v ≠ none := Iff.rfl

theorem mem_known_filter {p : Nat → Finding → Bool} :
    v ∈ known (findings.filter p) ↔ ∃ f, findings.get? v = some f ∧ p v f = true := by
  rw [mem_known, VarMap.get?_filter, Option.ne_none_iff_exists']
  exact exists_congr fun f => Option.filter_eq_some_iff

theorem differing_empty (old : Findings) : differing old .empty = known old := by
  ext v
  rw [mem_differing, mem_known, VarMap.get?_empty, ne_comm]

theorem eq_zero_iff {changes : Nat} (h : (changes : ℕ∞) = (differing old new).encard) :
    changes = 0 ↔ new = old := by
  rw [← differing_eq_empty, ← Set.encard_eq_zero, ← h, Nat.cast_eq_zero]

theorem encard_known (m : Findings) : (known m).encard = m.size := by
  have hset : known m = (m.keys.toFinset : Set Nat) := by
    ext v
    rw [Finset.mem_coe, List.mem_toFinset, VarMap.mem_keys]
    exact Option.ne_none_iff_exists'
  have hnodup : m.keys.Nodup := m.increasing_keys.imp Nat.ne_of_lt
  have hlength : m.keys.length = m.size := List.length_map _
  rw [hset, Set.encard_coe_eq_coe_finsetCard, List.toFinset_card_of_nodup hnodup, hlength]

/-! Putting -/

theorem encard_insert (h : new.get? v = old.get? v) (f : Finding) :
    (differing old (new.insert v f)).encard =
      (differing old new).encard + (put new v f).1 := by
  have hmem (w : Nat) : w ∈ differing old (new.insert v f) ↔
      if w = v then some f ≠ old.get? w else w ∈ differing old new := by
    rw [mem_differing, VarMap.get?_insert]
    split <;> rfl
  have hnot : v ∉ differing old new := fun hv => hv h
  by_cases hf : new.get? v = some f
  · have hsame : differing old (new.insert v f) = differing old new := by
      rw [VarMap.insert_eq_self.2 hf]
    simp [hsame, put, hf]
  · have hmore : differing old (new.insert v f) = insert v (differing old new) := by
      ext w
      rw [hmem, Set.mem_insert_iff]
      by_cases hw : w = v
      · subst hw
        simpa [h, eq_comm] using hf
      · simp [hw]
    rw [hmore, Set.encard_insert_of_notMem hnot]
    simp [put, hf]

theorem encard_foldl_put (kind : Kind) (old : Findings) (l : List (Nat × Nat)) (hl : (l.map (·.1)).Nodup) :
    ∀ (changes : Nat) (findings : Findings), (∀ e ∈ l, findings.get? e.1 = old.get? e.1) →
      ∀ start : ℕ∞, start + changes = (differing old findings).encard →
      let done := l.foldl (fun (changes, findings) e =>
        let (change, findings) := put findings e.1 ⟨kind, e.2⟩
        (changes + change, findings)) (changes, findings)
      start + done.1 = (differing old done.2).encard := by
  induction l with
  | nil => exact fun changes findings _ start h => h
  | cons e l ih =>
    intro changes findings hsame start h
    obtain ⟨he, hl⟩ := List.nodup_cons.1 hl
    obtain ⟨hhead, hsame⟩ := List.forall_mem_cons.1 hsame
    refine ih hl _ _ (fun d hd => ?_) start ?_
    · have hne : d.1 ≠ e.1 := fun heq => he (List.mem_map.2 ⟨d, hd, heq⟩)
      change (findings.insert e.1 _).get? d.1 = _
      rw [VarMap.get?_insert, if_neg hne, hsame d hd]
    · change start + ((changes + (put findings e.1 ⟨kind, e.2⟩).1 : Nat) : ℕ∞) =
        (differing old (findings.insert e.1 ⟨kind, e.2⟩)).encard
      rw [encard_insert hhead, ← h, Nat.cast_add, add_assoc]

theorem encard_putAll_from (h : ∀ v ∈ states.keys, kept.get? v = old.get? v) :
    (differing old (putAll kind states kept).2).encard =
      (differing old kept).encard + (putAll kind states kept).1 := by
  have hnodup : (states.entries.map (·.1)).Nodup := states.increasing_keys.imp Nat.ne_of_lt
  refine (encard_foldl_put kind old states.entries hnodup 0 kept (fun e he => ?_) _ ?_).symm
  · exact h e.1 (List.mem_map_of_mem he)
  · rw [Nat.cast_zero, add_zero]

theorem encard_putAll (kind : Kind) (states : VarMap Nat) (findings : Findings) :
    ((putAll kind states findings).1 : ℕ∞) =
      (differing findings (putAll kind states findings).2).encard := by
  rw [encard_putAll_from fun _ _ => rfl, differing_self, Set.encard_empty, zero_add]

theorem encard_put (findings : Findings) (v : Nat) (f : Finding) :
    ((put findings v f).1 : ℕ∞) = (differing findings (put findings v f).2).encard := by
  change _ = (differing findings (findings.insert v f)).encard
  rw [encard_insert rfl, differing_self, Set.encard_empty, zero_add]

/-! Dropping -/

theorem encard_filter (m : Findings) (p : Nat → Finding → Bool) :
    (differing m (m.filter p)).encard = (m.size - (m.filter p).size : Nat) := by
  have hdropped : differing m (m.filter p) = known (m.filter fun v f => !p v f) := by
    ext v
    rw [mem_differing, VarMap.get?_filter, mem_known_filter]
    cases m.get? v with
    | none => simp
    | some f => cases hp : p v f <;> simp [Option.filter, hp]
  have hsize : m.size = (m.filter p).size + (m.filter fun v f => !p v f).size :=
    List.length_eq_length_filter_add _
  rw [hdropped, encard_known, hsize, Nat.add_sub_cancel_left]

theorem encard_erase (m : Findings) (v : Nat) :
    ((if m.contains v then 1 else 0 : Nat) : ℕ∞) = (differing m (m.erase v)).encard := by
  cases hc : m.contains v with
  | false => simp [VarMap.erase_eq_self.2 hc, differing_self]
  | true =>
    obtain ⟨f, hf⟩ := VarMap.contains_iff.1 hc
    have hone : differing m (m.erase v) = {v} := by
      ext w
      rw [mem_differing, VarMap.get?_erase, Set.mem_singleton_iff]
      by_cases hw : w = v
      · simp [hw, hf]
      · simp [hw]
    simp [hone]

/-! Replacing -/

theorem get?_keeping (h : v ∈ states.keys) : (keeping kind states findings).get? v = findings.get? v := by
  obtain ⟨s, hs⟩ := VarMap.mem_keys.1 h
  rw [keeping, VarMap.get?_filter]
  cases findings.get? v <;> simp [VarMap.contains, hs]

theorem encard_replacedAll (kind : Kind) (states : VarMap Nat) (findings : Findings) :
    ((findings.size - (keeping kind states findings).size +
        (putAll kind states (keeping kind states findings)).1 : Nat) : ℕ∞) =
      (differing findings (putAll kind states (keeping kind states findings)).2).encard := by
  rw [encard_putAll_from fun v hv => get?_keeping hv, keeping, encard_filter, Nat.cast_add]

theorem encard_replaced (old new : Findings) : (replaced old new : ℕ∞) = (differing old new).encard := by
  have hdropped (v : Nat) : v ∈ known (old.filter fun v _ => !new.contains v) ↔
      old.get? v ≠ none ∧ new.get? v = none := by
    rw [mem_known_filter]
    cases old.get? v <;> cases hn : new.get? v <;> simp [VarMap.contains, hn]
  have hput (v : Nat) : v ∈ known (new.filter fun v f => old.get? v ≠ some f) ↔
      new.get? v ≠ none ∧ old.get? v ≠ new.get? v := by
    rw [mem_known_filter]
    cases new.get? v <;> simp
  have hparts : differing old new = known (old.filter fun v _ => !new.contains v) ∪
      known (new.filter fun v f => old.get? v ≠ some f) := by
    ext v
    rw [mem_differing, Set.mem_union, hdropped, hput]
    cases old.get? v <;> cases new.get? v <;> simp [eq_comm]
  have hdisjoint : Disjoint (known (old.filter fun v _ => !new.contains v))
      (known (new.filter fun v f => old.get? v ≠ some f)) :=
    Set.disjoint_left.2 fun v hd hp => ((hput v).1 hp).1 ((hdropped v).1 hd).2
  rw [hparts, Set.encard_union_eq hdisjoint, encard_known, encard_known, ← Nat.cast_add]
  rfl

end Bayes.Evidence
