import Bayes.Proofs.Message.Represented
import Bayes.Proofs.Potential.Extended
/-!
Messages over the extended real numbers. A table with an axis without states has no mass, and a message
without mass has zeros for entries whatever was put into it, so an infinity never gets into a message;
but the table that a message stands for may be reduced to one.
-/
namespace Bayes.Message
open Potential

variable {m n : Message ℝ} {p : Potential ℝ} {keep : List Nat} {how : Reduction}

/-- What is true of a message whatever it was made of. -/
structure Proper (m : Message ℝ) : Prop where
  normal : m.Normal
  nonneg : m.potential.Nonneg
  formed : m.potential.Formed

theorem proper_scaled (hformed : p.Formed) (h : p.Nonneg) (l : Option ℝ) : (scaled p l).Proper where
  normal := normal_scaled h l
  nonneg := nonneg_scaled h l
  formed := (shaped_scaled hformed.shaped h l).formed

theorem Proper.multiply (hm : m.Proper) (hn : n.Proper) : (m.multiply n).Proper :=
  proper_scaled (formed_multiply _ _) (nonneg_multiply hm.nonneg hn.nonneg) _

theorem Proper.onto (hm : m.Proper) (keep : List Nat) (how : Reduction) : (m.onto keep how).Proper :=
  proper_scaled (hm.formed.shaped.onto_spec keep how).1.formed (nonneg_onto hm.nonneg keep how) _

noncomputable def extended (m : Message ℝ) : Message EReal :=
  ⟨m.potential.extended, m.logScale.map Real.toEReal⟩

theorem scaled_extended (h : p.Nonneg) (l : Option ℝ) :
    scaled p.extended (l.map Real.toEReal) = (scaled p l).extended := by
  have hzeroed := zeroed_extended p
  obtain ⟨k, rfl, hpos, heq⟩ | ⟨hzero, heq⟩ := scaled_cases h l
  · have hlog : Scalar.log (p.total : EReal) = (Real.log p.total : ℝ) :=
      ENNReal.log_ofReal_of_pos hpos
    rw [heq]
    simp [scaled, normalize_extended hpos, extended, hlog]
  · rw [heq]
    obtain rfl | h0 := hzero
    · simp [scaled_none, hzeroed, extended]
    · simp [scaled, normalize_extended_eq_error h0, hzeroed, extended]

theorem ofPotential_extended (h : p.Nonneg) : ofPotential p.extended = (ofPotential p).extended :=
  scaled_extended h (some 0)

theorem addScales_map (l k : Option ℝ) : addScales (l.map Real.toEReal) (k.map Real.toEReal) =
    (addScales l k).map Real.toEReal := by
  cases l with
  | none => rfl
  | some l => cases k <;> rfl

theorem multiply_extended (hm : m.Proper) (hn : n.Proper) :
    m.extended.multiply n.extended = (m.multiply n).extended := by
  rw [multiply, multiply, ← scaled_extended (nonneg_multiply hm.nonneg hn.nonneg), ← addScales_map,
    ← Potential.multiply_extended]
  rfl

theorem Proper.attained (hm : m.Proper) (hscale : m.logScale ≠ none) :
    m.potential.Attained keep how := by
  obtain ⟨l, -, -, htotal⟩ | ⟨hnone, -⟩ := hm.normal
  · refine hm.formed.shaped.attained fun v hv h0 => zero_not_mem_shape (htotal ▸ one_ne_zero) ?_
    rw [hm.formed.shaped.shape, ← h0]
    exact List.mem_map_of_mem hv
  · exact absurd hnone hscale

theorem onto_extended (hm : m.Proper) : m.extended.onto keep how = (m.onto keep how).extended := by
  rw [onto, onto, ← scaled_extended (nonneg_onto hm.nonneg keep how)]
  by_cases hl : m.logScale = none
  · have hleft := (hm.formed.extended.shaped.onto_spec keep how).1
    have hright := (hm.formed.shaped.onto_spec keep how).1
    have hzeroed : (m.extended.potential.onto keep how).zeroed =
        (m.potential.onto keep how).extended.zeroed :=
      zeroed_eq (hleft.scope.trans hright.scope.symm) (hleft.shape.trans hright.shape.symm)
    have hscale : m.extended.logScale = none := by rw [extended, hl, Option.map_none]
    rw [hscale, hl, Option.map_none, scaled_none, scaled_none, hzeroed]
  · rw [← Potential.onto_extended hm.formed (hm.attained hl)]
    rfl

/-! What is represented -/

theorem weight_map (l : Option ℝ) : weight (l.map Real.toEReal) = (weight l : ℝ) := by
  cases l with
  | none => rfl
  | some l => exact (EReal.coe_ennreal_ofReal).trans (by rw [max_eq_left (Real.exp_pos l).le]; rfl)

theorem represented_extended (m : Message ℝ) : m.extended.represented = m.represented.extended := by
  refine congrArg (Potential.mk m.potential.scope) ?_
  change (m.potential.table.map Real.toEReal).map (· * weight (m.logScale.map Real.toEReal)) =
    (m.potential.table.map (· * weight m.logScale)).map Real.toEReal
  rw [Table.map_map, Table.map_map, weight_map]
  exact Table.map_congr fun a _ => (EReal.coe_mul a _).symm

theorem Proper.normal_extended (hm : m.Proper) : m.extended.Normal := by
  obtain ⟨l, hl, -, htotal⟩ | ⟨hl, hzero⟩ := hm.normal
  · refine Or.inl ⟨l, by rw [extended, hl, Option.map_some], Scalar.isFinite_iff.2 ⟨l, rfl⟩, ?_⟩
    exact (total_extended m.potential).trans (congrArg Real.toEReal htotal)
  · refine Or.inr ⟨by rw [extended, hl, Option.map_none], fun e he => ?_⟩
    rw [extended, Potential.extended, Potential.map, Table.toList_map] at he
    obtain ⟨a, ha, rfl⟩ := List.mem_map.1 he
    exact EReal.coe_eq_zero.2 (hzero a ha)

theorem Proper.isZero_extended_iff (hm : m.Proper) : m.extended.isZero = true ↔
    ∀ e ∈ m.extended.represented.table.toList, e = 0 := by
  have hzero : m.extended.isZero = m.isZero := Option.isNone_map
  have hentries : m.extended.represented.table.toList =
      m.represented.table.toList.map Real.toEReal := by
    rw [represented_extended]
    exact Table.toList_map _ _
  rw [hzero, hm.normal.isZero_iff, hentries, List.forall_mem_map]
  simp only [EReal.coe_eq_zero]

theorem represented_ofPotential_extended (h : p.Nonneg) :
    (ofPotential p.extended).represented = p.extended := by
  rw [ofPotential_extended h, represented_extended, represented_ofPotential h]

theorem Proper.represented_multiply (hm : m.Proper) (hn : n.Proper) :
    (m.extended.multiply n.extended).represented =
      m.extended.represented.multiply n.extended.represented := by
  rw [multiply_extended hm hn, represented_extended, represented_extended, represented_extended,
    Message.represented_multiply hm.nonneg hn.nonneg, Potential.multiply_extended]

/-- Reducing a message reduces what it represents, but for a maximum over no states. -/
theorem Proper.represented_onto_iff (hm : m.Proper) (keep : List Nat) (how : Reduction) :
    (m.extended.onto keep how).represented = m.extended.represented.onto keep how ↔
      m.extended.represented.Attained keep how := by
  have hformed : m.represented.Formed := ⟨hm.formed.increasing, hm.formed.length⟩
  rw [onto_extended hm, represented_extended, represented_extended,
    represented_onto hm.nonneg keep how]
  exact onto_extended_iff hformed

theorem Proper.onto_of_not_attained (hm : m.Proper)
    (hnot : ¬ m.extended.represented.Attained keep how) :
    (m.extended.onto keep how).isZero = true ∧
      (∀ e ∈ (m.extended.represented.onto keep how).table.toList, e = ⊥) := by
  have hformed : m.extended.represented.Formed := ⟨hm.formed.increasing, hm.formed.length⟩
  have hscale : m.logScale = none := of_not_not (mt hm.attained hnot)
  refine ⟨?_, (onto_eq_bot hformed hnot).2⟩
  rw [Message.onto, extended, hscale, Option.map_none, scaled_none]
  rfl

end Bayes.Message
