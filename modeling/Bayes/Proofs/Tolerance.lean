import Bayes.Proofs.Upstream
/-!
What the tolerance can do. The rows of a network sum to one only within the tolerance, so what is found by
enumeration is no probability; but every variable that is not intervened puts one row into it, and without
an observation a whole row. So the sum is off by one factor for each of them, and interventions never look
contradictory.
-/
namespace Bayes

namespace Network

variable {n : Network ℝ} {found : Findings} {x : Nat → Nat} {v : Nat}

theorem Coherent.row_mem (h : n.Coherent) (hv : v < n.size) {row : List ℝ}
    (hrow : row ∈ (n.table v).rows) :
    row.sum ∈ Set.Icc (1 - Scalar.rowTolerance) (1 + Scalar.rowTolerance) := by
  obtain ⟨-, hsum⟩ := conditional_real.1 (h.conditional hv (h.splitsEvenly hv))
  obtain ⟨hleast, hmost⟩ := abs_le.1 (hsum row hrow)
  rw [rowTolerance_real]
  exact ⟨by linarith, by linarith⟩

noncomputable def leastRow (found : Findings) (v : Nat) : ℝ :=
  match found.get? v with
  | none => 1 - Scalar.rowTolerance
  | some ⟨.observed, _⟩ => 0
  | some ⟨.intervened, _⟩ => 1

noncomputable def mostRow (found : Findings) (v : Nat) : ℝ :=
  if Findings.intervened found v = true then 1 else 1 + Scalar.rowTolerance

theorem leastRow_nonneg : 0 ≤ leastRow found v := by
  rw [leastRow]
  split
  · norm_num [rowTolerance_real]
  · exact le_rfl
  · exact zero_le_one

theorem rowSum_mem (h : n.Coherent) (hfound : n.Admits found) (hv : v < n.size)
    (hx : Within n.cardinality n.ids x) :
    n.rowSum found x v ∈ Set.Icc (leastRow found v) (mostRow found v) := by
  have hn := h.wellFormed
  have hparents := hx.mono fun p hp => mem_ids.2 (hn.parents_lt v p hp)
  have hentries := entries_mem_rows hn hv hparents
  have hrow := h.row_mem hv hentries
  cases hf : found.get? v with
  | none =>
    rw [rowSum_of_free hf]
    simpa only [leastRow, mostRow, Findings.intervened, hf, Option.any_none, Bool.false_eq_true,
      if_false] using hrow
  | some f =>
    obtain ⟨kind, state⟩ := f
    have hstate : state < n.cardinality v := (hfound v _ hf).2
    cases kind with
    | observed =>
      -- one entry of the row is not more than all of them
      have hentry : n.entryAt (override x v state) v ≤
          ((List.range (n.cardinality v)).map fun i => n.entryAt (override x v i) v).sum := by
        refine List.single_le_sum (fun e he => ?_) _
          (List.mem_map.2 ⟨state, List.mem_range.2 hstate, rfl⟩)
        obtain ⟨i, -, rfl⟩ := List.mem_map.1 he
        exact entryAt_nonneg hn hv _
      have hmost : mostRow found v = 1 + Scalar.rowTolerance := by
        simp [mostRow, Findings.intervened, hf]
      rw [rowSum_of_observed hf hstate, leastRow, hf, hmost]
      exact ⟨entryAt_nonneg hn hv _, hentry.trans hrow.2⟩
    | intervened =>
      rw [rowSum_of_intervened hf hstate, leastRow, hf]
      simp [mostRow, Findings.intervened, hf]

def free (n : Network ℝ) (found : Findings) : List Nat :=
  n.ids.filter fun v => !Findings.intervened found v

theorem prod_free (n : Network ℝ) (found : Findings) (c : ℝ) :
    (∏ v ∈ Finset.range n.size, if Findings.intervened found v = true then 1 else c) =
      c ^ (n.free found).length := by
  have hprod := prod_map_filter n.ids (fun v => !Findings.intervened found v) fun _ => c
  rw [List.map_const', List.prod_replicate] at hprod
  rw [free, hprod]
  change _ = ∏ v ∈ Finset.range n.size, if (!Findings.intervened found v) = true then c else 1
  refine Finset.prod_congr rfl fun v _ => ?_
  by_cases hv : Findings.intervened found v = true <;> simp [hv]

theorem leastRow_of_forced (hforced : Findings.Forced found) (v : Nat) :
    leastRow found v = if Findings.intervened found v = true then 1 else 1 - Scalar.rowTolerance := by
  cases hf : found.get? v with
  | none => simp [leastRow, Findings.intervened, hf]
  | some f =>
    obtain ⟨kind, state⟩ := f
    obtain rfl : kind = .intervened := hforced v _ hf
    simp [leastRow, Findings.intervened, hf]

theorem mass_within (h : n.Coherent) (hfound : n.Admits found) :
    n.mass found (fun _ => true) ≤ (1 + Scalar.rowTolerance) ^ (n.free found).length ∧
      (Findings.Forced found →
        (1 - Scalar.rowTolerance) ^ (n.free found).length ≤ n.mass found fun _ => true) := by
  have hfirst : Within n.cardinality n.ids fun _ => 0 := fun v hv =>
    h.wellFormed.card_pos v (mem_ids.1 hv)
  obtain ⟨hleast, hmost⟩ := over_parts_mem (leastRow found) (mostRow found) h.wellFormed h.ranked
    (fun _ _ => leastRow_nonneg) (fun v hv x hx => rowSum_mem h hfound hv hx)
    (Finset.range n.size) (fun v hv => Finset.mem_range.1 hv) _ hfirst
  rw [← mass_eq_overSet hfound] at hleast hmost
  refine ⟨hmost.trans_eq (n.prod_free found _), fun hforced => ?_⟩
  simp only [leastRow_of_forced hforced, prod_free] at hleast
  exact hleast

end Network

namespace Engine

variable {e : Engine ℝ} {n : Network ℝ} {found : Findings} {config : Config}

theorem Ready.marginal_isOk (h : e.Ready n found) (hn : n.WellFormed)
    (hmass : n.mass found (fun _ => true) ≠ 0) {v : Nat} (hv : v < n.size) :
    ∃ m, (e.marginal v).1 = .ok m := by
  obtain ⟨x, hx, -⟩ := Network.vars_of_lt hv
  exact ⟨_, h.marginal_eq hn hx hmass⟩

theorem Ready.marginal_ne_contradictory (h : e.Ready n found) (hn : n.WellFormed)
    (hmass : n.mass found (fun _ => true) ≠ 0) (v : Nat) :
    (e.marginal v).1 ≠ .error .contradictoryEvidence := by
  by_cases hv : v < n.size
  · obtain ⟨m, hm⟩ := h.marginal_isOk hn hmass hv
    simp [hm]
  · have hnone : e.network.node? v = none := by
      rw [h.network]
      exact Option.not_isSome_iff_eq_none.1 (mt Network.node?_isSome.1 hv)
    simp [marginal, Network.lookup, hnone, Error.unknownId]

theorem Ready.marginals_isOk (h : e.Ready n found) (hn : n.WellFormed)
    (hmass : n.mass found (fun _ => true) ≠ 0) : ∃ ms, e.marginals.1 = .ok ms := by
  obtain ⟨s, hs, htaken, rfl⟩ := h.asking Snapshot.marginals
  obtain ⟨ms, hms⟩ := mapM_isOk (f := s.marginal) (List.range s.compiled.vars.length) fun v hv => by
    rw [List.mem_range, htaken.vars] at hv
    exact ⟨_, htaken.marginal_eq hn (List.getElem?_eq_getElem hv) hmass⟩
  exact ⟨ms, hs.trans hms⟩

/-- The probability of the findings exceeds one by no more than one factor for every variable that is not
intervened; and if nothing was observed it stays away from zero, so that no marginal is refused. -/
theorem tolerance_bounded (hn : n.Reachable) (he : ofNetwork n config = .ok e)
    (hfound : n.Admits found) :
    ∃ told p, e.tell found = (.ok (), told) ∧ told.evidence.findings = found ∧
      told.evidenceProbability.1 = .ok p ∧
      p ≤ (1 + Scalar.rowTolerance) ^ (n.free found).length ∧
      (Findings.Forced found →
        (0 : ℝ) < (1 - Scalar.rowTolerance) ^ (n.free found).length ∧
        (1 - Scalar.rowTolerance) ^ (n.free found).length ≤ p ∧
        (∀ v < n.size, ∃ m, (told.marginal v).1 = .ok m) ∧
        (∀ v, (told.marginal v).1 ≠ .error .contradictoryEvidence) ∧
        ∃ ms, told.marginals.1 = .ok ms) := by
  have h := hn.wellFormed
  obtain ⟨told, htell, hready⟩ := ready_tell he hfound
  obtain ⟨hmost, hleast⟩ := Network.mass_within hn.coherent hfound
  refine ⟨told, _, htell, hready.findings, hready.evidenceProbability_eq h, hmost, fun hforced => ?_⟩
  have hpos : (0 : ℝ) < (1 - Scalar.rowTolerance) ^ (n.free found).length := by
    refine pow_pos ?_ _
    norm_num [Network.rowTolerance_real]
  have hmass : n.mass found (fun _ => true) ≠ 0 := (hpos.trans_le (hleast hforced)).ne'
  exact ⟨hpos, hleast hforced, fun v hv => hready.marginal_isOk h hmass hv,
    hready.marginal_ne_contradictory h hmass, hready.marginals_isOk h hmass⟩

noncomputable def heavyTable : Table ℝ :=
  Table.ofFn [2] fun index =>
    if index.headD 0 = 0 then 1 / Scalar.ofNat 2 + Scalar.rowTolerance else 1 / Scalar.ofNat 2

noncomputable def heavyCoin : Network ℝ := coin.withTable 0 heavyTable

theorem reachable_heavyCoin : heavyCoin.Reachable := by
  have hentries : heavyTable.toList =
      [1 / Scalar.ofNat 2 + Scalar.rowTolerance, 1 / Scalar.ofNat 2] := rfl
  have hrows : heavyTable.rows =
      [[1 / Scalar.ofNat 2 + Scalar.rowTolerance, 1 / Scalar.ofNat 2]] := rfl
  have htakes : coin.Takes 0 heavyTable := by
    refine Network.takes_iff.2 ⟨Nat.one_pos, rfl, Network.conditional_real.2 ⟨?_, ?_⟩⟩
    · rw [hentries]
      norm_num [Scalar.ofNat, Network.rowTolerance_real]
    · rw [hrows]
      norm_num [Scalar.ofNat, Network.rowTolerance_real]
  exact reachable_coin.edit (.setTable 0 heavyTable) (Network.setTable_of_takes htakes)

theorem mass_heavyCoin : heavyCoin.mass .empty (fun _ => true) = 1 + Scalar.rowTolerance := by
  have hids : heavyCoin.ids = [0] := rfl
  have hall : assignments heavyCoin.cardinality [0] (fun _ => 0) =
      [override (fun _ => 0) 0 0, override (fun _ => 0) 0 1] := rfl
  have hagrees (x : Nat → Nat) : Findings.agrees .empty x = true := rfl
  have hjoint (x : Nat → Nat) : heavyCoin.joint .empty x = heavyTable.entry [x 0] := by
    have hfree : (heavyCoin.ids.filter fun v => !Findings.intervened .empty v) = [0] := rfl
    rw [Network.joint, hfree, List.map_singleton, List.prod_singleton]
    rfl
  have hheads : heavyTable.entry [0] = 1 / Scalar.ofNat 2 + Scalar.rowTolerance := rfl
  have htails : heavyTable.entry [1] = 1 / Scalar.ofNat 2 := rfl
  rw [Network.mass, hids, hall]
  simp only [hagrees, Bool.and_true, List.filter_true, List.map_cons, List.map_nil, hjoint,
    override_same, hheads, htails, List.sum_cons, List.sum_nil]
  norm_num [Scalar.ofNat, Network.rowTolerance_real]

/-- Nothing is known about the coin; the probability of that is as far above one as it can be. -/
theorem tolerance_bounded_of_heavyCoin : heavyCoin.Reachable ∧ heavyCoin.Admits .empty ∧
    ∃ e told p, ofNetwork heavyCoin {} = .ok e ∧ e.tell .empty = (.ok (), told) ∧
      told.evidenceProbability.1 = .ok p ∧ p = 1 + Scalar.rowTolerance ∧
      p ≤ (1 + Scalar.rowTolerance) ^ (heavyCoin.free .empty).length ∧
      ∃ m, (told.marginal 0).1 = .ok m := by
  have hadmits : heavyCoin.Admits .empty := Network.admits_empty
  obtain ⟨e, he⟩ := exists_ofNetwork reachable_heavyCoin
  obtain ⟨told, p, htell, -, hp, hmost, hleast⟩ := tolerance_bounded reachable_heavyCoin he hadmits
  obtain ⟨-, -, hmarginal, -⟩ := hleast Findings.forced_empty
  obtain ⟨told', htell', hready⟩ := ready_tell he hadmits
  have hreached : p = 1 + Scalar.rowTolerance := by
    have hmass := hready.evidenceProbability_eq reachable_heavyCoin.wellFormed
    rw [← (Prod.mk.inj (htell.symm.trans htell')).2, hp, mass_heavyCoin] at hmass
    exact Except.ok.inj hmass
  exact ⟨reachable_heavyCoin, hadmits, e, told, p, he, htell, hp, hreached, hmost,
    hmarginal 0 Nat.one_pos⟩

end Engine
end Bayes
