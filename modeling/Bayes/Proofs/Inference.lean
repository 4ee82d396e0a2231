import Bayes.Proofs.Compilation
import Bayes.Proofs.Snapshot
/-!
Inference is exact. An engine that is built from a network and is told some findings answers with what
the enumeration of all assignments gives: the probability of the findings is their mass, the probability
of a state given the findings is a quotient of two masses, and there is a contradiction just when the
mass is zero.
-/
namespace Bayes.Engine

def tell {α : Type} [Scalar α] (e : Engine α) (found : Findings) : Outcome α Unit :=
  e.update (.replaceEverything (Findings.ofKind found .observed) (Findings.ofKind found .intervened))

/-- An engine for a network knows some findings, and a snapshot it still has is one of these. -/
structure Ready (e : Engine ℝ) (n : Network ℝ) (found : Findings) : Prop where
  network : e.network = n
  vars : e.compiled.vars = n.vars
  compiles : e.compiled.tree.Compiles n
  findings : e.evidence.findings = found
  admits : n.Admits found
  cancelled : e.cancelled = false
  snapshot : ∀ s, e.snapshot? = some s → s.TakenOf n ∧ s.findings = found

variable {e : Engine ℝ} {n : Network ℝ} {found : Findings} {config : Config} {v : Nat}

theorem ready_tell (he : ofNetwork n config = .ok e) (hfound : n.Admits found) :
    ∃ e', e.tell found = (.ok (), e') ∧ e'.Ready n found := by
  obtain ⟨compiled, hcompiled, he⟩ := bind_eq_ok.1 he
  cases he
  obtain ⟨hvars, hcompiles⟩ := Network.compile_spec hcompiled
  have hreplaced : n.evidence.replaceEverything (Findings.ofKind found .observed)
      (Findings.ofKind found .intervened) = .ok _ :=
    Evidence.replaceEverything_ok rfl rfl hfound
  rw [tell, update]
  simp only [Evidence.update, hreplaced]
  refine ⟨_, rfl, ?_⟩
  rw [advance]
  split
  · exact ⟨rfl, hvars, hcompiles, rfl, hfound, rfl, by simp [snapshot?]⟩
  · exact ⟨rfl, hvars, hcompiles, rfl, hfound, rfl, by simp [snapshot?]⟩

theorem Ready.propagate (h : e.Ready n found) :
    ∃ s e', e.propagate = (.ok s, e') ∧ e'.network = n ∧ s.TakenOf n ∧ s.findings = found := by
  rw [Engine.propagate]
  cases hs : e.snapshot? with
  | some s => exact ⟨s, e, rfl, h.network, h.snapshot s hs⟩
  | none =>
    let p := n.propagator e.compiled.tree found false
    let calibrated := p.distributeAll (p.collectAll .sum)
    have hcalibrate : p.calibrate = .ok calibrated := Propagator.calibrate_eq rfl
    have hrun : e.run e.evidence.findings = .ok ⟨e.epoch, found, e.compiled, calibrated⟩ := by
      rw [run, propagator, h.network, h.findings, h.cancelled, hcalibrate]
      rfl
    rw [hrun]
    exact ⟨_, _, rfl, h.network, ⟨h.vars, h.compiles, h.admits, hcalibrate⟩, rfl⟩

theorem Ready.asking {β : Type} (h : e.Ready n found) (f : Snapshot ℝ → Except (Error ℝ) β) :
    ∃ s : Snapshot ℝ, (e.asking f).1 = f s ∧ s.TakenOf n ∧ s.findings = found := by
  obtain ⟨s, e', hs, _, htaken, hfound⟩ := h.propagate
  refine ⟨s, ?_, htaken, hfound⟩
  rw [Engine.asking, hs]
  rfl

theorem Ready.evidenceProbability_eq (h : e.Ready n found) (hn : n.WellFormed) :
    e.evidenceProbability.1 = .ok (n.mass found fun _ => true) := by
  obtain ⟨s, hs, htaken, rfl⟩ := h.asking fun s => .ok s.probability
  rw [evidenceProbability, hs, htaken.probability_eq hn]

theorem Ready.marginal_asks (h : e.Ready n found) (hv : v < n.size) :
    ∃ s : Snapshot ℝ, (e.marginal v).1 = s.marginal v ∧ s.TakenOf n ∧ s.findings = found := by
  obtain ⟨node, hnode⟩ := Option.isSome_iff_exists.1 (Network.node?_isSome.2 hv)
  obtain ⟨s, hs, htaken⟩ := h.asking (·.marginal v)
  have hlookup : e.network.lookup v = .ok node := by simp [Network.lookup, h.network, hnode]
  refine ⟨s, ?_, htaken⟩
  rw [marginal, hlookup]
  exact hs

theorem Ready.marginal_eq (h : e.Ready n found) (hn : n.WellFormed) {x : Variable}
    (hx : n.vars[v]? = some x) (hmass : n.mass found (fun _ => true) ≠ 0) :
    (e.marginal v).1 = .ok ⟨x.name, x.states, (List.range (n.cardinality v)).map fun i =>
      n.mass found (fun y => y v == i) / n.mass found fun _ => true⟩ := by
  obtain ⟨s, hs, htaken, rfl⟩ := h.marginal_asks (Network.lt_of_vars hx)
  rw [hs, htaken.marginal_eq hn hx hmass]

theorem Ready.marginal_error (h : e.Ready n found) (hn : n.WellFormed) (hv : v < n.size)
    (hmass : n.mass found (fun _ => true) = 0) :
    (e.marginal v).1 = .error .contradictoryEvidence := by
  obtain ⟨s, hs, htaken, rfl⟩ := h.marginal_asks hv
  rw [hs, htaken.marginal_error hn hv hmass]

theorem Ready.marginal_exact (h : e.Ready n found) (hn : n.WellFormed) {x : Variable}
    (hx : n.vars[v]? = some x) :
    (n.mass found (fun _ => true) ≠ 0 → (e.marginal v).1 = .ok ⟨x.name, x.states,
      (List.range x.cardinality).map fun i =>
        n.mass found (fun y => y v == i) / n.mass found fun _ => true⟩) ∧
    ((e.marginal v).1 = .error .contradictoryEvidence ↔ n.mass found (fun _ => true) = 0) := by
  have hv := Network.lt_of_vars hx
  have hcard : n.cardinality v = x.cardinality := by
    obtain ⟨y, hy, hcard⟩ := Network.vars_of_lt hv
    rw [← hcard, Option.some.inj (hx.symm.trans hy)]
  rw [← hcard]
  by_cases hmass : n.mass found (fun _ => true) = 0
  · exact ⟨fun hne => absurd hmass hne, fun _ => hmass, fun _ => h.marginal_error hn hv hmass⟩
  · rw [h.marginal_eq hn hx hmass]
    exact ⟨fun _ => rfl, fun herror => by simp at herror, fun hzero => absurd hzero hmass⟩

/-- What an engine answers about valid findings is what the enumeration of all assignments gives. -/
theorem exact_inference (hn : n.Reachable) (he : ofNetwork n config = .ok e)
    (hfound : n.Admits found) :
    ∃ e', e.tell found = (.ok (), e') ∧ e'.evidence.findings = found ∧
      e'.evidenceProbability.1 = .ok (n.mass found fun _ => true) ∧
      ∀ v x, n.vars[v]? = some x →
        (n.mass found (fun _ => true) ≠ 0 → (e'.marginal v).1 = .ok ⟨x.name, x.states,
          (List.range x.cardinality).map fun i =>
            n.mass found (fun y => y v == i) / n.mass found fun _ => true⟩) ∧
        ((e'.marginal v).1 = .error .contradictoryEvidence ↔ n.mass found (fun _ => true) = 0) := by
  obtain ⟨e', htell, hready⟩ := ready_tell he hfound
  exact ⟨e', htell, hready.findings, hready.evidenceProbability_eq hn.wellFormed,
    fun v x => hready.marginal_exact hn.wellFormed⟩

/-- Declarations that make a network also make an engine, and it answers what the enumeration gives. -/
theorem answers_ofDeclarations {ds : List (Declaration ℝ)} (h : Network.ofDeclarations ds = .ok n) :
    ∃ e, ofNetwork n {} = .ok e ∧ ∀ found, n.Admits found → ∃ e', e.tell found = (.ok (), e') ∧
      e'.evidenceProbability.1 = .ok (n.mass found fun _ => true) ∧
      ∀ v x, n.vars[v]? = some x → n.mass found (fun _ => true) ≠ 0 →
        (e'.marginal v).1 = .ok ⟨x.name, x.states, (List.range x.cardinality).map fun i =>
          n.mass found (fun y => y v == i) / n.mass found fun _ => true⟩ := by
  have hn := Network.reachable_ofDeclarations h
  obtain ⟨e, he⟩ := exists_ofNetwork hn
  refine ⟨e, he, fun found hfound => ?_⟩
  obtain ⟨e', htell, hready⟩ := ready_tell he hfound
  exact ⟨e', htell, hready.evidenceProbability_eq hn.wellFormed,
    fun v x hx => (hready.marginal_exact hn.wellFormed hx).1⟩

noncomputable def garden : Network ℝ :=
  ⟨#[⟨⟨"rain", ["no", "yes"]⟩, [], [1], Network.uniform [2]⟩,
    ⟨⟨"grass", ["dry", "wet"]⟩, [0], [], Network.uniform [2, 2]⟩]⟩

theorem reachable_garden : garden.Reachable := by
  have hrain := Network.Reachable.empty.edit (.addVariable "rain" ["no", "yes"]) rfl
  have hgrass := hrain.edit (.addVariable "grass" ["dry", "wet"]) rfl
  exact hgrass.edit (.addEdge 0 1) rfl

def wet : Findings := VarMap.empty.insert 1 ⟨.observed, 1⟩

theorem admits_wet : garden.Admits wet :=
  Network.admits_insert Network.admits_empty (by decide) (by decide)

theorem entry_even {shape index : List Nat} (htwo : shape.getLast? = some 2)
    (h : Table.fits shape index = true) : (Network.uniform shape : Table ℝ).entry index = 1 / 2 := by
  rw [Network.uniform, Table.entry_ofFn _ h, htwo]
  rfl

theorem agrees_wet (x : Nat → Nat) : Findings.agrees wet x = (x 1 == 1) := by
  simp [Findings.agrees, wet, VarMap.insert, VarMap.empty, VarMap.put]

theorem joint_garden (t : Table ℝ) {x : Nat → Nat} (hrain : x 0 < 2) :
    (garden.withTable 1 t).joint wet x = 1 / 2 * t.entry [x 0, x 1] := by
  have hfree : (garden.ids.filter fun v => !Findings.intervened wet v) = [0, 1] := rfl
  have hfirst : (garden.withTable 1 t).entryAt x 0 = (Network.uniform [2]).entry [x 0] := rfl
  have hsecond : (garden.withTable 1 t).entryAt x 1 = t.entry [x 0, x 1] := rfl
  rw [Network.joint, Network.ids_withTable, hfree, List.map_cons, List.map_singleton, List.prod_pair,
    hfirst, hsecond, entry_even rfl (by simpa [Table.fits] using hrain)]

theorem mass_garden (t : Table ℝ) (rains : Nat → Bool) :
    (garden.withTable 1 t).mass wet (fun x => rains (x 0)) =
      ∑ rain ∈ Finset.range 2, if rains rain then 1 / 2 * t.entry [rain, 1] else 0 := by
  have hids : garden.ids = [0, 1] := rfl
  have hall : assignments garden.cardinality [0, 1] (fun _ => 0) =
      [(0, 0), (0, 1), (1, 0), (1, 1)].map fun s => override (override (fun _ => 0) 0 s.1) 1 s.2 := rfl
  rw [Network.mass, Network.cardinality_withTable, Network.ids_withTable, hids, hall]
  cases hdry : rains 0 <;> cases hrainy : rains 1 <;>
    simp [agrees_wet, joint_garden, override, Finset.sum_range_succ, hdry, hrainy]

theorem mass_wet (rains : Nat → Bool) : garden.mass wet (fun x => rains (x 0)) =
    ∑ rain ∈ Finset.range 2, if rains rain then 1 / 4 else 0 := by
  refine (mass_garden (Network.uniform [2, 2]) rains).trans (Finset.sum_congr rfl fun rain hrain => ?_)
  have hrain := Finset.mem_range.1 hrain
  rw [entry_even rfl (by simpa [Table.fits] using hrain)]
  norm_num

theorem mass_wet_all : garden.mass wet (fun _ => true) = 1 / 2 := by
  rw [mass_wet fun _ => true]
  norm_num

theorem mass_wet_state {rain : Nat} (h : rain < 2) :
    garden.mass wet (fun x => x 0 == rain) = 1 / 4 := by
  rw [mass_wet (· == rain)]
  simp [h]

/-- Wet grass in a garden where nothing is known of how rain makes it wet. -/
theorem exact_inference_of_garden : garden.Reachable ∧ garden.Admits wet ∧
    ∃ e, ofNetwork garden {} = .ok e ∧ ∃ e', e.tell wet = (.ok (), e') ∧
      e'.evidenceProbability.1 = .ok (1 / 2) ∧
      (e'.marginal 0).1 = .ok ⟨"rain", ["no", "yes"], [1 / 2, 1 / 2]⟩ := by
  obtain ⟨e, he⟩ := exists_ofNetwork reachable_garden
  obtain ⟨e', htell, -, hprobability, hmarginal⟩ := exact_inference reachable_garden he admits_wet
  have hstates : ((List.range 2).map fun i =>
      garden.mass wet (fun y => y 0 == i) / garden.mass wet fun _ => true) = [1 / 2, 1 / 2] := by
    refine List.map_congr_left (g := fun _ => 1 / 2) fun i hi => ?_
    rw [mass_wet_state (List.mem_range.1 hi), mass_wet_all]
    norm_num
  have hrain := (hmarginal 0 ⟨"rain", ["no", "yes"]⟩ rfl).1 (by rw [mass_wet_all]; norm_num)
  rw [mass_wet_all] at hprobability
  refine ⟨reachable_garden, admits_wet, e, he, e', htell, hprobability, hrain.trans ?_⟩
  exact congrArg (Except.ok ∘ Marginal.mk "rain" ["no", "yes"]) hstates

end Bayes.Engine
