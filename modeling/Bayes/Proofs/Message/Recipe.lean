import Bayes.Proofs.Message.Extended
/-!
Messages that come about by any number of operations. Whatever the order, each has unit mass or is all
zeros, and it stands for the table that the same operations make of the potentials without any scaling,
as long as no maximum over no states gets into that table: minus infinity is nothing that a message can
stand for.
-/
namespace Bayes.Message

inductive Recipe (α : Type) where
  | ofPotential (p : Potential α)
  | multiply (a b : Recipe α)
  | onto (a : Recipe α) (keep : List Nat) (how : Reduction)

namespace Recipe

section
variable {α : Type} [Scalar α]

def message : Recipe α → Message α
  | ofPotential p => .ofPotential p
  | multiply a b => a.message.multiply b.message
  | onto a keep how => a.message.onto keep how

/-- The same without any scaling. -/
def table : Recipe α → Potential α
  | ofPotential p => p
  | multiply a b => a.table.multiply b.table
  | onto a keep how => a.table.onto keep how

def Proper : Recipe EReal → Prop
  | ofPotential p => p.Proper
  | multiply a b => a.Proper ∧ b.Proper
  | onto a _ _ => a.Proper

/-- No maximum over no states gets into the table on the way. -/
def Attained : Recipe α → Prop
  | ofPotential _ => True
  | multiply a b => a.Attained ∧ b.Attained
  | onto a keep how => a.Attained ∧ a.table.Attained keep how

end

variable {r : Recipe EReal}

/-- Messages hold real numbers, whatever is done to them. -/
theorem exists_extended (h : r.Proper) : ∃ m : Message ℝ, m.Proper ∧ r.message = m.extended := by
  induction r with
  | ofPotential p =>
    obtain ⟨q, hformed, hnonneg, rfl⟩ := Potential.Proper.exists_extended h
    exact ⟨.ofPotential q, proper_scaled hformed hnonneg _, ofPotential_extended hnonneg⟩
  | multiply a b iha ihb =>
    obtain ⟨m, hm, ha⟩ := iha h.1
    obtain ⟨n, hn, hb⟩ := ihb h.2
    exact ⟨m.multiply n, hm.multiply hn, by rw [message, ha, hb, multiply_extended hm hn]⟩
  | onto a keep how ih =>
    obtain ⟨m, hm, ha⟩ := ih h
    exact ⟨m.onto keep how, hm.onto keep how, by rw [message, ha, onto_extended hm]⟩

theorem represented_ofPotential {p : Potential EReal} (h : p.Proper) :
    (Message.ofPotential p).represented = p := by
  obtain ⟨q, -, hnonneg, rfl⟩ := h.exists_extended
  exact represented_ofPotential_extended hnonneg

theorem represented_multiply {q : Recipe EReal} (hr : r.Proper) (hq : q.Proper) :
    (r.message.multiply q.message).represented =
      r.message.represented.multiply q.message.represented := by
  obtain ⟨m, hm, hrm⟩ := exists_extended hr
  obtain ⟨n, hn, hqn⟩ := exists_extended hq
  rw [hrm, hqn, hm.represented_multiply hn]

theorem represented_onto_iff (h : r.Proper) (keep : List Nat) (how : Reduction) :
    (r.message.onto keep how).represented = r.message.represented.onto keep how ↔
      r.message.represented.Attained keep how := by
  obtain ⟨m, hm, hrm⟩ := exists_extended h
  rw [hrm, hm.represented_onto_iff]

theorem represented_message (h : r.Proper) (hattained : r.Attained) :
    r.message.represented = r.table := by
  induction r with
  | ofPotential p => exact represented_ofPotential h
  | multiply a b iha ihb =>
    rw [message, represented_multiply h.1 h.2, iha h.1 hattained.1, ihb h.2 hattained.2, table]
  | onto a keep how ih =>
    have ha : a.Proper := h
    have htable : a.message.represented = a.table := ih ha hattained.1
    have hmax : a.message.represented.Attained keep how := htable ▸ hattained.2
    rw [message, (represented_onto_iff ha keep how).2 hmax, htable, table]

/-- A message has unit mass and a scale, or zeros and no scale, the latter when the table it stands for
has no mass; and the table that it stands for is made like the message, step by step and as a whole,
but for a maximum over no states, where the message is zero and that table minus infinity. -/
theorem message_exact (h : r.Proper) :
    r.message.Normal ∧
    (r.message.isZero = true ↔ ∀ e ∈ r.message.represented.table.toList, e = 0) ∧
    (∀ p : Potential EReal, p.Proper → (Message.ofPotential p).represented = p) ∧
    (∀ q : Recipe EReal, q.Proper → (r.message.multiply q.message).represented =
      r.message.represented.multiply q.message.represented) ∧
    (∀ keep how,
      ((r.message.onto keep how).represented = r.message.represented.onto keep how ↔
        r.message.represented.Attained keep how) ∧
      (¬ r.message.represented.Attained keep how → (r.message.onto keep how).isZero = true ∧
        ∀ e ∈ (r.message.represented.onto keep how).table.toList, e = ⊥)) ∧
    (r.Attained → r.message.represented = r.table) ∧
    ∀ assignment, r.message.value? assignment = r.message.represented.value? assignment := by
  obtain ⟨m, hm, hrm⟩ := exists_extended h
  refine ⟨hrm ▸ hm.normal_extended, hrm ▸ hm.isZero_extended_iff, fun p => represented_ofPotential,
    fun q hq => represented_multiply h hq, fun keep how => ⟨represented_onto_iff h keep how, ?_⟩,
    represented_message h, fun assignment => (value?_represented mul_zero _ assignment).symm⟩
  exact hrm ▸ hm.onto_of_not_attained

/-- The maximum of a product over the states of one of two variables, and a product without mass. -/
theorem message_exact_of_states :
    let p : Potential EReal := .indicator 0 2 0
    let q : Potential EReal := .ofFn [(0, 2), (1, 3)] fun x => ((x 1 : ℝ) : EReal)
    let r : Recipe EReal := .onto (.multiply (.ofPotential p) (.ofPotential q)) [0] .max
    let zero : Recipe EReal := .multiply (.ofPotential p) (.ofPotential (.indicator 0 2 1))
    (r.Proper ∧ zero.Proper ∧ r.Attained) ∧ r.message.Normal ∧
    r.message.represented = (p.multiply q).onto [0] .max ∧
    r.message.represented.value (fun _ => 0) = ((2 : ℝ) : EReal) ∧ zero.message.isZero = true := by
  intro p q r zero
  let card (v : Nat) := if v = 1 then 3 else 2
  let x (_ : Nat) := 0
  have hp : p.Shaped card [0] := Potential.shaped_indicator 0 0
  have hq : q.Shaped card [0, 1] := Potential.shaped_ofFn (by simp [Scope.Increasing]) _
  have hnot : (.indicator 0 2 1 : Potential EReal).Shaped card [0] := Potential.shaped_indicator 0 1
  have hpq : (p.multiply q).Shaped card [0, 1] := hp.multiply hq
  have hindicator (state : Nat) {y : Nat → Nat} (hy : Within card [0] y) :
      (.indicator 0 2 state : Potential EReal).value y = if y 0 = state then 1 else 0 :=
    Potential.value_indicator (hy 0 (List.mem_singleton_self 0))
  have hproper (state : Nat) : (.indicator 0 2 state : Potential EReal).Proper :=
    ⟨Potential.formed_indicator _ _ _, Potential.finiteEntries_indicator _ _ _,
      Potential.zero_le_indicator _ _ _⟩
  have hqproper : q.Proper := ⟨hq.formed,
    Potential.forall_mem_ofFn fun _ => Scalar.isFinite_iff.2 ⟨_, rfl⟩,
    Potential.forall_mem_ofFn fun y => EReal.coe_nonneg.2 (Nat.cast_nonneg (y 1))⟩
  have hr : r.Proper := ⟨hproper 0, hqproper⟩
  have hzero : zero.Proper := ⟨hproper 0, hproper 1⟩
  have hattained : r.Attained := ⟨⟨trivial, trivial⟩, hpq.attained (by decide)⟩
  obtain ⟨hnormal, -, -, -, -, htable, -⟩ := message_exact hr
  obtain ⟨-, hiff, -, -, -, hztable, -⟩ := message_exact hzero
  refine ⟨⟨hr, hzero, hattained⟩, hnormal, htable hattained, ?_, hiff.2 fun e he => ?_⟩
  · have hstates (i : Nat) (hi : i < 3) : (p.multiply q).value (override x 1 i) = ((i : ℝ) : EReal) := by
      have hy : Within card [0, 1] (override x 1 i) := by simp [Within, card, x, override, hi]
      have hqv : q.value (override x 1 i) = ((i : ℝ) : EReal) := by
        refine (Potential.value_ofFn (by simp [Scope.Increasing]) hy fun y z hyz => ?_).trans ?_
        · simp [hyz 1 (by simp)]
        · simp [override]
      rw [hp.value_multiply hq hy, hqv, hindicator 0 (hy.mono (by simp))]
      simp [override, x]
    rw [htable hattained]
    refine ((hpq.onto_spec [0] .max).2 x (by simp [Within, card, x])).trans ?_
    change Reduction.max.over card [1] (p.multiply q).value x = _
    rw [Reduction.over_singleton]
    have hlist : ((List.range (card 1)).map fun i => (p.multiply q).value (override x 1 i)) =
        [(0 : ℝ), 1, 2].map Real.toEReal := by
      refine (List.map_congr_left fun i hi => hstates i (List.mem_range.1 hi)).trans ?_
      change [((0 : Nat) : ℝ), ((1 : Nat) : ℝ), ((2 : Nat) : ℝ)].map Real.toEReal = _
      norm_num
    rw [hlist, Reduction.apply_coe .max (Or.inr (by simp)), Reduction.apply, Scalar.maximum_cons]
    norm_num
  · rw [hztable ⟨trivial, trivial⟩] at he
    change e ∈ (p.multiply (.indicator 0 2 1)).table.toList at he
    rw [(hp.multiply hnot).toList_eq x] at he
    obtain ⟨y, hy, rfl⟩ := List.mem_map.1 he
    have hy : Within card [0] y := (mem_assignments.1 hy).1
    rw [hp.value_multiply hnot hy, hindicator 0 hy, hindicator 1 hy]
    by_cases h0 : y 0 = 0 <;> simp [h0]

/-- A message without mass has zeros, where the maximum over no states is minus infinity. -/
theorem represented_onto_fails :
    let p : Potential EReal := .ofFn [(0, 2), (1, 0)] fun _ => 1
    p.Proper ∧ (Message.ofPotential p).represented = p ∧
    ((Message.ofPotential p).onto [0] .max).represented ≠
      (Message.ofPotential p).represented.onto [0] .max := by
  intro p
  let card (v : Nat) := if v = 1 then 0 else 2
  have hp : p.Shaped card [0, 1] := Potential.shaped_ofFn (by simp [Scope.Increasing]) _
  have hproper : p.Proper := ⟨hp.formed,
    Potential.forall_mem_ofFn fun _ => Scalar.isFinite_iff.2 ⟨1, rfl⟩,
    Potential.forall_mem_ofFn fun _ => zero_le_one⟩
  have htable : (Message.ofPotential p).represented = p := represented_ofPotential hproper
  refine ⟨hproper, htable, fun heq => ?_⟩
  have hattained := (represented_onto_iff (r := .ofPotential p) hproper [0] .max).1 heq
  rw [message, htable] at hattained
  -- the second variable is dropped and has no states, the first one is kept and has two
  obtain ⟨v, hv, h0⟩ := hattained rfl
    ⟨1, by simp [Potential.dropped, hp.scope],
    hp.width_eq (by simp)⟩
  obtain rfl : v = 0 := by
    rw [hp.scope] at hv
    simpa [Scope.inter] using hv
  rw [hp.width_eq (by simp)] at h0
  exact absurd h0 (by decide)

end Recipe
end Bayes.Message
