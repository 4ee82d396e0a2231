import Mathlib.Analysis.Calculus.Deriv.Add
import Mathlib.Analysis.Calculus.Deriv.Inv
import Mathlib.Topology.Algebra.Module.ModuleTopology
import Bayes.Proofs.Sensitivity
import Bayes.Proofs.Serving
/-!
Sensitivity of a query is exact. The mass of a queried state is the mass of the findings with the state
observed, or all of the mass or nothing of it when the variable has a finding already. So the slope of a
joint probability comes from one more snapshot, from the same one, or from none; and the slope given the
findings is the quotient rule.
-/
namespace Bayes

namespace Findings

variable {found : Findings} {x : Nat → Nat} {v y state : Nat}

theorem agrees_insert (hnew : found.get? y = none) :
    Findings.agrees (found.insert y ⟨.observed, state⟩) x = (Findings.agrees found x && x y == state) := by
  rw [Bool.eq_iff_iff, Bool.and_eq_true, Network.agrees_iff, Network.agrees_iff, beq_iff_eq]
  constructor
  · intro h
    refine ⟨fun v f hf => h v f ?_, h y ⟨.observed, state⟩ ?_⟩
    · have hne : v ≠ y := fun heq => by simp [heq, hnew] at hf
      rw [VarMap.get?_insert, if_neg hne, hf]
    · rw [VarMap.get?_insert, if_pos rfl]
  · rintro ⟨hold, hstate⟩ v f hf
    rw [VarMap.get?_insert] at hf
    split at hf
    · next hv =>
      obtain rfl := Option.some.inj hf
      rw [hv, hstate]
    · exact hold v f hf

theorem intervened_insert (hnew : found.get? y = none) :
    Findings.intervened (found.insert y ⟨.observed, state⟩) v = Findings.intervened found v := by
  rw [intervened, intervened, VarMap.get?_insert]
  split
  · next hv =>
    rw [hv, hnew]
    rfl
  · rfl

end Findings

namespace Network

variable {n : Network ℝ} {found : Findings} {y state : Nat} {f : Finding}

/-- The mass of a state of a variable without a finding is the mass with the state observed. -/
theorem mass_insert (n : Network ℝ) (hnew : found.get? y = none) :
    n.mass (found.insert y ⟨.observed, state⟩) (fun _ => true) =
      n.mass found fun x => x y == state := by
  have hjoint : n.joint (found.insert y ⟨.observed, state⟩) = n.joint found := by
    funext x
    simp only [joint, Findings.intervened_insert hnew]
  simp only [mass, hjoint, Findings.agrees_insert hnew, Bool.and_true]

theorem mass_of_found (n : Network ℝ) (hf : found.get? y = some f) (event : (Nat → Nat) → Bool)
    (h : ∀ x, x y = f.state → event x = (x y == state)) :
    (n.mass found fun x => x y == state) = n.mass found event := by
  simp only [mass]
  refine congrArg (fun l : List (Nat → Nat) => (l.map (n.joint found)).sum)
    (List.filter_congr fun x _ => ?_)
  by_cases hagrees : Findings.agrees found x = true
  · rw [h x (agrees_iff.1 hagrees y f hf)]
  · simp [hagrees]

theorem mass_nothing (n : Network ℝ) (found : Findings) : n.mass found (fun _ => false) = 0 := by
  simp [mass]

theorem mass_of_same (n : Network ℝ) (hf : found.get? y = some f) (hstate : f.state = state) :
    (n.mass found fun x => x y == state) = n.mass found fun _ => true :=
  n.mass_of_found hf _ fun x hx => by simp [hx, hstate]

theorem mass_of_other (n : Network ℝ) (hf : found.get? y = some f) (hstate : f.state ≠ state) :
    (n.mass found fun x => x y == state) = 0 :=
  (n.mass_of_found hf (fun _ => false) fun x hx => by simp [hx, hstate]).trans (n.mass_nothing found)

/-- How an entry moves the row when the rest of the row makes up for it. -/
noncomputable def along (n : Network ℝ) (entry : TableEntry) (state : Nat) : ℝ :=
  if state = entry.state then 1 else -n.weight entry state

/-- The derivative of a mass when the entries of a row move in a direction. -/
noncomputable def drift (n : Network ℝ) (entry : TableEntry) (direction : Nat → ℝ) (found : Findings)
    (event : (Nat → Nat) → Bool) : ℝ :=
  deriv (fun d => (n.shifting entry fun state => d * direction state).mass found event) 0

end Network

def TableEntry.alone (entry : TableEntry) (state : Nat) : ℝ := if state = entry.state then 1 else 0

theorem hasDerivAt_affine {f : ℝ → ℝ} {a b : ℝ} (h : ∀ d, f d = a + d * b) : HasDerivAt f b 0 := by
  have hlinear := ((hasDerivAt_id (0 : ℝ)).mul_const b).const_add a
  rw [one_mul] at hlinear
  exact hlinear.congr_of_eventuallyEq (.of_forall h)

/-- A slope tells a mass, and how it moves with an entry alone and with the whole row. -/
structure Slope.Tells (slope : Slope ℝ) (n : Network ℝ) (entry : TableEntry) (found : Findings)
    (event : (Nat → Nat) → Bool) : Prop where
  probability : slope.probability = n.mass found event
  alone : ∀ d, (n.shifting entry fun state => d * entry.alone state).mass found event =
    slope.probability + d * slope.derivative
  along : ∀ d, (n.shifting entry fun state => d * n.along entry state).mass found event =
    slope.probability + d * slope.covaried

namespace Slope

variable {n : Network ℝ} {entry : TableEntry} {found found' : Findings}
  {event event' : (Nat → Nat) → Bool} {joint evidence : Slope ℝ}

theorem Tells.congr (h : joint.Tells n entry found event)
    (heq : ∀ m : Network ℝ, m.mass found' event' = m.mass found event) :
    joint.Tells n entry found' event' :=
  ⟨h.probability.trans (heq n).symm, fun d => (heq _).trans (h.alone d),
    fun d => (heq _).trans (h.along d)⟩

theorem tells_zero (h : ∀ m : Network ℝ, m.mass found event = 0) :
    Slope.zero.Tells n entry found event := by
  refine ⟨(h n).symm, fun d => ?_, fun d => ?_⟩ <;> simp [h, Slope.zero]

theorem Tells.drift_alone (h : joint.Tells n entry found event) :
    n.drift entry entry.alone found event = joint.derivative :=
  (hasDerivAt_affine h.alone).deriv

theorem Tells.drift_along (h : joint.Tells n entry found event) :
    n.drift entry (n.along entry) found event = joint.covaried :=
  (hasDerivAt_affine h.along).deriv

theorem hasDerivAt_quotient {f g : ℝ → ℝ} {p dp q dq : ℝ} (hf : ∀ d, f d = p + d * dp)
    (hg : ∀ d, g d = q + d * dq) (hq : q ≠ 0) :
    HasDerivAt (fun d => f d / g d) (quotientRule p dp q dq) 0 := by
  have hf0 : f 0 = p := by rw [hf, zero_mul, add_zero]
  have hg0 : g 0 = q := by rw [hg, zero_mul, add_zero]
  have hdiv := (hasDerivAt_affine hf).div (hasDerivAt_affine hg) (hg0.trans_ne hq)
  rw [hf0, hg0, sq] at hdiv
  exact hdiv

section Given

variable (hjoint : joint.Tells n entry found event) (hevidence : evidence.Tells n entry found event')

include hjoint hevidence

theorem given_probability :
    (joint.given evidence).probability = n.mass found event / n.mass found event' := by
  rw [given, hjoint.probability, hevidence.probability]

theorem given_derivative : (joint.given evidence).derivative =
    (n.drift entry entry.alone found event * n.mass found event' -
      n.mass found event * n.drift entry entry.alone found event') / n.mass found event' ^ 2 := by
  simp only [given, quotientRule, hjoint.drift_alone, hevidence.drift_alone, hjoint.probability,
    hevidence.probability, sq]

theorem given_covaried : (joint.given evidence).covaried =
    (n.drift entry (n.along entry) found event * n.mass found event' -
      n.mass found event * n.drift entry (n.along entry) found event') / n.mass found event' ^ 2 := by
  simp only [given, quotientRule, hjoint.drift_along, hevidence.drift_along, hjoint.probability,
    hevidence.probability, sq]

end Given

theorem given_self (h : evidence.probability ≠ 0) : evidence.given evidence = ⟨1, 0, 0⟩ := by
  simp only [given, quotientRule, div_self h, mul_comm, sub_self, zero_div]

theorem zero_given (evidence : Slope ℝ) : Slope.zero.given evidence = ⟨0, 0, 0⟩ := by
  simp only [given, quotientRule, zero, zero_mul, sub_self, zero_div]

end Slope

namespace Sensitivity

variable {n : Network ℝ} {s : Snapshot ℝ} {entry : TableEntry}

theorem tells_evidenceSlope (h : s.TakenOf n) (hn : n.WellFormed) (hentry : entry.Of n) :
    (evidenceSlope n s entry (n.rowOf entry)).Tells n entry s.findings fun _ => true := by
  obtain ⟨hprobability, halone, halong, -⟩ := evidenceSlope_exact h hn hentry
  refine ⟨hprobability, fun d => ?_, fun d => ?_⟩
  · simpa only [TableEntry.alone, mul_ite, mul_one, mul_zero] using halone d
  · simpa only [Network.along, mul_ite, mul_one, mul_neg] using halong d

end Sensitivity

namespace Engine

variable {n : Network ℝ} {found : Findings} {config : Config} {e : Engine ℝ} {entry : TableEntry}
  {y state : Nat}

theorem Sound.takenOf (h : e.Sound) (hfound : e.network.Admits found) :
    (e.taken found).TakenOf e.network :=
  ⟨(Network.compile_spec h.compiled).1, (Network.compile_spec h.compiled).2, hfound,
    Propagator.calibrate_eq rfl⟩

noncomputable def jointSlope (e : Engine ℝ) (y state : Nat) (entry : TableEntry) : Slope ℝ :=
  (e.joined y state).elim .zero fun s =>
    Sensitivity.evidenceSlope e.network s entry (e.network.rowOf entry)

theorem jointSlope_of_found {f : Finding} (hf : e.evidence.findings.get? y = some f) :
    e.jointSlope y state entry = if f.state = state then
      Sensitivity.evidenceSlope e.network e.present entry (e.network.rowOf entry) else .zero := by
  rw [jointSlope, joined, Evidence.finding?, hf]
  by_cases hstate : f.state = state
  · simp only [if_pos hstate, Option.elim_some]
  · simp only [if_neg hstate, Option.elim_none]

theorem jointSlope_of_new (hnew : e.evidence.findings.get? y = none) :
    e.jointSlope y state entry = Sensitivity.evidenceSlope e.network
      (e.taken (e.evidence.findings.insert y ⟨.observed, state⟩)) entry (e.network.rowOf entry) := by
  rw [jointSlope, joined, Evidence.finding?, hnew]
  rfl

theorem Sound.tells_present (h : e.Sound) (hn : e.network.WellFormed) (hentry : entry.Of e.network) :
    (Sensitivity.evidenceSlope e.network e.present entry (e.network.rowOf entry)).Tells e.network entry
      e.evidence.findings fun _ => true :=
  Sensitivity.tells_evidenceSlope (h.takenOf h.admits) hn hentry

/-- Another snapshot, the same or none: the slope is that of the mass of the state. -/
theorem Sound.tells_jointSlope (h : e.Sound) (hn : e.network.WellFormed) (hentry : entry.Of e.network)
    (hy : y < e.network.size) (hstate : state < e.network.cardinality y) :
    (e.jointSlope y state entry).Tells e.network entry e.evidence.findings fun x => x y == state := by
  cases hfinding : e.evidence.findings.get? y with
  | none =>
    -- the state may be impossible: the slope of a mass of zero is still exact
    rw [jointSlope_of_new hfinding]
    have hadmits : e.network.Admits (e.evidence.findings.insert y ⟨.observed, state⟩) :=
      Network.admits_insert h.admits hy hstate
    exact (Sensitivity.tells_evidenceSlope (h.takenOf hadmits) hn hentry).congr fun m =>
      (m.mass_insert hfinding).symm
  | some f =>
    rw [jointSlope_of_found hfinding]
    by_cases hsame : f.state = state
    · rw [if_pos hsame]
      exact (h.tells_present hn hentry).congr fun m => m.mass_of_same hfinding hsame
    · rw [if_neg hsame]
      exact Slope.tells_zero fun m => m.mass_of_other hfinding hsame

theorem Sound.sensitivityOf_state (h : e.Sound) (hn : e.network.WellFormed)
    (hentry : entry.Of e.network) (hstate : state < e.network.cardinality y)
    (hmass : e.network.mass e.evidence.findings (fun _ => true) ≠ 0) :
    e.sensitivityOf (some (y, state)) entry = .ok ⟨entry, some (y, state),
      (e.network.table entry.owner).entry (entry.parents ++ [entry.state]),
      (e.jointSlope y state entry).given
        (Sensitivity.evidenceSlope e.network e.present entry (e.network.rowOf entry))⟩ := by
  obtain ⟨node, hlookup⟩ := Network.lookupState_ok hstate
  have hpossible : e.present.isContradictory = false := by
    have hiff := (h.takenOf h.admits).isContradictory_iff hn
    exact Bool.eq_false_iff.2 fun hcontradictory => hmass (hiff.1 hcontradictory)
  simp only [sensitivityOf, hlookup, Sensitivity.ofEntry, Sensitivity.row_ok hentry, hpossible,
    Sensitivity.nth_rowOf hentry.fits_parents.2, jointSlope]
  cases e.joined y state <;> rfl

/-- The reported slope is that of the probability of a state given the findings. -/
theorem posterior_sensitivity_exact (hn : n.Reachable) (he : ofNetwork n config = .ok e)
    (hfound : n.Admits found) (hmass : 0 < n.mass found fun _ => true) (hentry : entry.Of n)
    (hy : y < n.size) (hstate : state < n.cardinality y) :
    let everything (_ : Nat → Nat) := true
    let queried (x : Nat → Nat) := x y == state
    let total := n.mass found everything
    let part := n.mass found queried
    ∃ e' slope, e.tell found = (.ok (), e') ∧
      (e'.sensitivity (some (y, state)) entry).1 = .ok ⟨entry, some (y, state),
        (n.table entry.owner).entry (entry.parents ++ [entry.state]), slope⟩ ∧
      slope.probability = part / total ∧
      (∃ m, (e'.marginal y).1 = .ok m ∧ m.probabilities[state]? = some slope.probability) ∧
      slope.derivative = (n.drift entry entry.alone found queried * total -
        part * n.drift entry entry.alone found everything) / total ^ 2 ∧
      slope.covaried = (n.drift entry (n.along entry) found queried * total -
        part * n.drift entry (n.along entry) found everything) / total ^ 2 ∧
      HasDerivAt (fun d =>
        let m := n.shifting entry fun state => d * entry.alone state
        m.mass found queried / m.mass found everything) slope.derivative 0 ∧
      HasDerivAt (fun d =>
        let m := n.shifting entry fun state => d * n.along entry state
        m.mass found queried / m.mass found everything) slope.covaried 0 ∧
      ∀ f, found.get? y = some f → slope = if f.state = state then ⟨1, 0, 0⟩ else ⟨0, 0, 0⟩ := by
  intro everything queried total part
  obtain ⟨hstart, hbuilt, -, -⟩ := sound_ofNetwork he
  obtain ⟨told, htell, h, hnetwork, -, rfl⟩ := hstart.tell (frozen_ofNetwork he) (hbuilt ▸ hfound)
  obtain rfl : told.network = n := hnetwork.trans hbuilt
  have hformed := hn.wellFormed
  have htaken := h.takenOf h.admits
  have hevidence := h.tells_present hformed hentry
  have hjoint := h.tells_jointSlope hformed hentry hy hstate
  have hne := hevidence.probability.trans_ne hmass.ne'
  obtain ⟨_, hanswer, -⟩ := h.sensitivity (some (y, state)) entry
  have hprobability := Slope.given_probability hjoint hevidence
  refine ⟨told, _, htell, ?_, hprobability, ?_, Slope.given_derivative hjoint hevidence,
    Slope.given_covaried hjoint hevidence, Slope.hasDerivAt_quotient hjoint.alone hevidence.alone hne,
    Slope.hasDerivAt_quotient hjoint.along hevidence.along hne, fun f hf => ?_⟩
  · rw [hanswer]
    exact h.sensitivityOf_state hformed hentry hstate hmass.ne'
  · obtain ⟨x, hx, -⟩ := Network.vars_of_lt hy
    obtain ⟨node, hnode, -⟩ := Network.node?_of_lt hy
    have hlookup : told.network.lookup y = .ok node := by simp [Network.lookup, hnode]
    have hmarginal : (told.marginal y).1 = told.present.marginal y := by
      rw [(h.marginal_eq y).1, hlookup]
      rfl
    refine ⟨_, hmarginal.trans (htaken.marginal_eq hformed hx hmass.ne'), ?_⟩
    rw [hprobability, List.getElem?_map, List.getElem?_range hstate]
    rfl
  · rw [jointSlope_of_found hf]
    by_cases hsame : f.state = state
    · rw [if_pos hsame, if_pos hsame, Slope.given_self hne]
    · rw [if_neg hsame, if_neg hsame, Slope.zero_given]

theorem drift_wetByRain (direction : Nat → ℝ) (rains : Nat → Bool) :
    garden.drift wetByRain direction wet (fun x => rains (x 0)) =
      if rains 1 then direction 1 / 2 else 0 := by
  refine (hasDerivAt_affine (a := garden.mass wet fun x => rains (x 0)) fun d => ?_).deriv
  rw [mass_wetByRain]
  cases rains 1 with
  | false => simp
  | true => simp [mul_div_assoc]

/-- The more probable it is that rain makes the grass wet, the more probable is rain behind wet grass. -/
theorem posterior_sensitivity_exact_of_garden : garden.Reachable ∧ garden.Admits wet ∧
    0 < garden.mass wet (fun _ => true) ∧ wetByRain.Of garden ∧ 0 < garden.size ∧
    1 < garden.cardinality 0 ∧
    ∃ e, ofNetwork garden {} = .ok e ∧ ∃ e' slope, e.tell wet = (.ok (), e') ∧
      (e'.sensitivity (some (0, 1)) wetByRain).1 = .ok ⟨wetByRain, some (0, 1), 1 / 2, slope⟩ ∧
      slope.probability = 1 / 2 ∧ slope.derivative = 1 / 2 := by
  obtain ⟨e, he⟩ := exists_ofNetwork reachable_garden
  have hpos : 0 < garden.mass wet (fun _ => true) := by
    rw [mass_wet_all]
    norm_num
  have hsize : 0 < garden.size := two_pos
  have hstate : 1 < garden.cardinality 0 := one_lt_two
  obtain ⟨e', slope, htell, hanswer, hprobability, -, hderivative, -⟩ := posterior_sensitivity_exact
    reachable_garden he admits_wet hpos wetByRain_of_garden hsize hstate
  have hvalue : (garden.table 1).entry [1, 1] = 1 / 2 := entry_even rfl rfl
  have hall : garden.drift wetByRain wetByRain.alone wet (fun _ => true) = 1 / 2 := by
    rw [drift_wetByRain _ fun _ => true]
    simp [TableEntry.alone, wetByRain]
  have hrain : garden.drift wetByRain wetByRain.alone wet (fun x => x 0 == 1) = 1 / 2 := by
    rw [drift_wetByRain _ (· == 1)]
    simp [TableEntry.alone, wetByRain]
  rw [mass_wet_state one_lt_two, mass_wet_all] at hprobability
  rw [hall, hrain, mass_wet_state one_lt_two, mass_wet_all] at hderivative
  refine ⟨reachable_garden, admits_wet, hpos, wetByRain_of_garden, hsize, hstate, e, he, e', slope,
    htell, ?_, hprobability.trans (by norm_num), hderivative.trans (by norm_num)⟩
  exact hanswer.trans (by rw [← hvalue]; rfl)

end Engine
end Bayes
