import Bayes.Proofs.Refusals
import Bayes.Proofs.Session
/-!
Cancelling is transparent. A request to cancel that is pending stops the next call that has to propagate,
which then changes nothing and takes the request with it; every other call is answered as if nothing were
pending. So a session answers like the one in which the requests to cancel and the stopped calls are left
out.
-/
namespace Bayes

variable {α : Type} [Scalar α]

/-! One request -/

namespace Engine

variable {β : Type} {d e : Engine α} {r : Request α}

omit [Scalar α] in
theorem settled_cancel (hd : d.cancelled = false) : d.cancel.settled = d := settled_eq hd

/-- A call that finds a request to cancel pending is stopped and takes the request with it, or it ends as
it does when nothing is pending, and the request stays. -/
def Defers (d : Engine α) (pending calm : Outcome α β) : Prop :=
  pending = (.error .cancelled, d) ∨ pending = (calm.1, calm.2.cancel)

theorem propagate_of_some {s : Snapshot α} (hs : e.snapshot? = some s) :
    e.propagate = (.ok s, e) := by
  rw [propagate, hs]

theorem run_cancel (found : Findings) : d.cancel.run found = .error .cancelled := rfl

theorem propagate_cancel (hd : d.cancelled = false) (hs : d.snapshot? = none) :
    d.cancel.propagate = (.error .cancelled, d) := by
  have hpending : d.cancel.snapshot? = none := hs
  rw [propagate, hpending]
  simp only [run_cancel, settled_cancel hd]

theorem defers_propagate (hd : d.cancelled = false) : d.Defers d.cancel.propagate d.propagate := by
  cases hs : d.snapshot? with
  | some s =>
    have hpending : d.cancel.snapshot? = some s := hs
    rw [propagate_of_some hs, propagate_of_some hpending]
    exact Or.inr rfl
  | none => exact Or.inl (propagate_cancel hd hs)

theorem defers_asking (hd : d.cancelled = false) (f : Snapshot α → Except (Error α) β) :
    d.Defers (d.cancel.asking f) (d.asking f) := by
  obtain h | h := defers_propagate hd
  · refine Or.inl ?_
    simp only [asking, h]
    rfl
  · refine Or.inr ?_
    simp only [asking, h]

theorem defers_marginal (hd : d.cancelled = false) (v : Nat) :
    d.Defers (d.cancel.marginal v) (d.marginal v) := by
  have hpending : d.cancel.network.lookup v = d.network.lookup v := rfl
  rw [marginal, marginal, hpending]
  split
  · exact Or.inr rfl
  · exact defers_asking hd _

theorem defers_marginalNamed (hd : d.cancelled = false) (name : String) :
    d.Defers (d.cancel.marginalNamed name) (d.marginalNamed name) := by
  have hpending : d.cancel.network.lookupName name = d.network.lookupName name := rfl
  rw [marginalNamed, marginalNamed, hpending]
  split
  · exact Or.inr rfl
  · exact defers_marginal hd _

theorem defers_mostProbable (hd : d.cancelled = false) (subset : Option (List Nat)) :
    d.Defers (d.cancel.mostProbable subset) (d.mostProbable subset) := by
  have hpending : d.cancel.network = d.network := rfl
  rw [mostProbable, mostProbable, hpending]
  split
  · exact Or.inr rfl
  · refine Or.inl ?_
    rw [settled_cancel hd]
    rfl

theorem defers_auxiliarySnapshot (hd : d.cancelled = false) (v state : Nat) :
    d.Defers (d.cancel.auxiliarySnapshot v state) (d.auxiliarySnapshot v state) := by
  have hfinding : d.cancel.evidence = d.evidence := rfl
  have hkept : d.cancel.auxiliary = d.auxiliary := rfl
  rw [auxiliarySnapshot, auxiliarySnapshot, hfinding, hkept]
  split
  · split
    · obtain h | h := defers_propagate hd
      · rw [h]
        exact Or.inl rfl
      · rw [h]
        exact Or.inr rfl
    · exact Or.inr rfl
  · split
    · exact Or.inr rfl
    · simp only [run_cancel, settled_cancel hd]
      exact Or.inl rfl

theorem defers_sensitivity (hd : d.cancelled = false) (query : Option (Nat × Nat))
    (entry : TableEntry) :
    d.Defers (d.cancel.sensitivity query entry) (d.sensitivity query entry) := by
  have hnetwork : d.cancel.network = d.network := rfl
  cases hs : d.snapshot? with
  | none =>
    refine Or.inl ?_
    simp only [sensitivity, propagate_cancel hd hs]
  | some s =>
    have hpending : d.cancel.snapshot? = some s := hs
    simp only [sensitivity, propagate_of_some hs, propagate_of_some hpending, hnetwork]
    cases query with
    | none => exact Or.inr rfl
    | some q =>
      obtain ⟨v, state⟩ := q
      cases hlookup : d.network.lookupState v state with
      | error err =>
        simp only [hlookup]
        exact Or.inr rfl
      | ok node =>
        simp only [hlookup]
        obtain h | h := defers_auxiliarySnapshot hd v state
        · rw [h]
          exact Or.inl rfl
        · rw [h]
          exact Or.inr rfl

omit [Scalar α] in
theorem Defers.answering {pending calm : Outcome α β} (h : d.Defers pending calm)
    (f : β → Answer α) : d.Defers (Engine.answering f pending) (Engine.answering f calm) := by
  obtain rfl | rfl := h
  · exact Or.inl rfl
  · exact Or.inr rfl

theorem defers_serve (hd : d.cancelled = false) (hr : r ≠ .cancel) :
    d.Defers (d.cancel.serve r) (d.serve r) := by
  cases r with
  | update u =>
    have hpending : d.cancel.evidence = d.evidence := rfl
    refine Defers.answering (Or.inr ?_) _
    rw [update, update, hpending]
    cases d.evidence.update u with
    | error err => rfl
    | ok change =>
      simp only [advance]
      split <;> rfl
  | setValues v values =>
    have hpending : d.cancel.network = d.network := rfl
    refine Defers.answering (Or.inr ?_) _
    rw [setValues, setValues, hpending]
    cases d.network.setValues v values <;> rfl
  | freeze frozen => exact Or.inr rfl
  | cancel => exact absurd rfl hr
  | propagate => exact (defers_propagate hd).answering _
  | snapshot => exact Or.inr rfl
  | marginal v => exact (defers_marginal hd v).answering _
  | marginalNamed name => exact (defers_marginalNamed hd name).answering _
  | marginalIfReady v => exact Or.inr rfl
  | marginals => exact (defers_asking hd _).answering _
  | probability => exact (defers_asking hd _).answering _
  | logProbability => exact (defers_asking hd _).answering _
  | mostProbable subset => exact (defers_mostProbable hd subset).answering _
  | sensitivity query entry => exact (defers_sensitivity hd query entry).answering _

/-- A call with nothing pending is not stopped, and leaves nothing pending. -/
def Calm (o : Outcome α β) : Prop := o.1 ≠ .error .cancelled ∧ o.2.cancelled = false

theorem calm_propagate (hd : d.cancelled = false) : Calm d.propagate := by
  cases hs : d.snapshot? with
  | some s =>
    rw [propagate_of_some hs]
    exact ⟨ok_ne_error s, hd⟩
  | none =>
    rw [propagate, hs]
    simp only [run_eq hd]
    exact ⟨ok_ne_error _, rfl⟩

theorem calm_asking (hd : d.cancelled = false) {f : Snapshot α → Except (Error α) β}
    (hf : ∀ s, f s ≠ .error .cancelled) : Calm (d.asking f) :=
  ⟨bind_ne_error (calm_propagate hd).1 hf, (calm_propagate hd).2⟩

theorem calm_marginal (hd : d.cancelled = false) (v : Nat) : Calm (d.marginal v) := by
  rw [marginal]
  split
  · next err herr => exact ⟨error_ne_of_eq herr Network.lookup_ne_cancelled, hd⟩
  · exact calm_asking hd fun _ => Snapshot.marginal_ne_cancelled

theorem calm_mostProbable (hd : d.cancelled = false) (subset : Option (List Nat)) :
    Calm (d.mostProbable subset) := by
  rw [mostProbable]
  split
  · next err herr =>
    have hcheck := forM_ne_error (e := Error.cancelled)
      (fun v => map_ne_error (f := fun _ => ()) (Network.lookup_ne_cancelled (n := d.network) (v := v)))
      (subset.getD [])
    exact ⟨error_ne_of_eq herr hcheck, hd⟩
  · refine ⟨bind_ne_error ?_ fun best => ?_, rfl⟩
    · have hcollect : (d.propagator d.evidence.findings).collect .max ≠ .error .cancelled := by
        rw [Propagator.collect, propagator, Network.propagator, hd]
        exact ok_ne_error _
      exact bind_ne_error hcollect fun _ => ok_ne_error _
    · cases best with
      | none => simp [throw, throwThe, MonadExceptOf.throw]
      | some best => exact ok_ne_error _

theorem calm_auxiliarySnapshot (hd : d.cancelled = false) (v state : Nat) :
    Calm (d.auxiliarySnapshot v state) := by
  rw [auxiliarySnapshot]
  split
  · split
    · exact ⟨map_ne_error (calm_propagate hd).1, (calm_propagate hd).2⟩
    · exact ⟨ok_ne_error _, hd⟩
  · split
    · exact ⟨ok_ne_error _, hd⟩
    · simp only [run_eq hd]
      refine ⟨ok_ne_error _, ?_⟩
      dsimp only
      split <;> rfl

theorem calm_sensitivity (hd : d.cancelled = false) (query : Option (Nat × Nat))
    (entry : TableEntry) : Calm (d.sensitivity query entry) := by
  obtain ⟨hbase, hd'⟩ := calm_propagate hd
  rw [sensitivity]
  generalize d.propagate = o at hbase hd'
  obtain ⟨base, d'⟩ := o
  cases base with
  | error err => exact ⟨error_ne_of_eq rfl hbase, hd'⟩
  | ok s =>
    cases query with
    | none => exact ⟨Sensitivity.ofEntry_ne_cancelled, hd'⟩
    | some q =>
      dsimp only
      split
      · next err herr => exact ⟨error_ne_of_eq herr Network.lookupState_ne_cancelled, hd'⟩
      · have haux := calm_auxiliarySnapshot hd' q.1 q.2
        exact ⟨bind_ne_error haux.1 fun _ => Sensitivity.ofEntry_ne_cancelled, haux.2⟩

omit [Scalar α] in
theorem Calm.answering {o : Outcome α β} (h : Calm o) (f : β → Answer α) :
    Calm (Engine.answering f o) :=
  ⟨map_ne_error h.1, h.2⟩

theorem calm_serve (hd : d.cancelled = false) (hr : r ≠ .cancel) : Calm (d.serve r) := by
  cases r with
  | update u =>
    refine Calm.answering ?_ _
    rw [update]
    split
    · next err herr => exact ⟨error_ne_of_eq herr Evidence.update_ne_cancelled, hd⟩
    · refine ⟨ok_ne_error (), ?_⟩
      rw [advance]
      split <;> exact hd
  | setValues v values =>
    refine Calm.answering ?_ _
    rw [setValues]
    split
    · next err herr => exact ⟨error_ne_of_eq herr Network.setValues_ne_cancelled, hd⟩
    · exact ⟨ok_ne_error (), hd⟩
  | freeze frozen => exact ⟨ok_ne_error _, hd⟩
  | cancel => exact absurd rfl hr
  | propagate => exact (calm_propagate hd).answering _
  | snapshot =>
    refine ⟨map_ne_error ?_, hd⟩
    rw [snapshot]
    split <;> simp
  | marginal v => exact (calm_marginal hd v).answering _
  | marginalNamed name =>
    refine Calm.answering ?_ _
    rw [marginalNamed]
    split
    · next err herr => exact ⟨error_ne_of_eq herr Network.lookupName_ne_cancelled, hd⟩
    · exact calm_marginal hd _
  | marginalIfReady v =>
    refine ⟨map_ne_error (bind_ne_error Network.lookup_ne_cancelled fun _ => bind_ne_error ?_ fun _ =>
      Snapshot.marginal_ne_cancelled), hd⟩
    rw [snapshot]
    split <;> simp
  | marginals => exact (calm_asking hd fun _ => Snapshot.marginals_ne_cancelled).answering _
  | probability => exact (calm_asking hd fun _ => ok_ne_error _).answering _
  | logProbability => exact (calm_asking hd fun _ => ok_ne_error _).answering _
  | mostProbable subset => exact (calm_mostProbable hd subset).answering _
  | sensitivity query entry => exact (calm_sensitivity hd query entry).answering _

/-- Every call but a request to cancel is either stopped by a pending request, which goes with it while
everything else stays as it is, or ends as it does with nothing pending and leaves what is pending. -/
theorem serve_cases (e : Engine α) (hr : r ≠ .cancel) :
    (e.cancelled = true ∧ e.serve r = (.error .cancelled, e.settled)) ∨
    ((e.serve r).1 ≠ .error .cancelled ∧ (e.serve r).1 = (e.settled.serve r).1 ∧
      (e.serve r).2.cancelled = e.cancelled ∧ (e.serve r).2.settled = (e.settled.serve r).2) := by
  have hcalm := calm_serve (d := e.settled) rfl hr
  cases he : e.cancelled with
  | false =>
    rw [settled_eq he] at hcalm ⊢
    exact Or.inr ⟨hcalm.1, rfl, hcalm.2, settled_eq hcalm.2⟩
  | true =>
    have hpending : e = e.settled.cancel := by rw [cancel, settled, ← he]
    obtain h | h := defers_serve (d := e.settled) rfl hr
    · exact Or.inl ⟨rfl, by rw [hpending, h]; rfl⟩
    · rw [← hpending] at h
      rw [h]
      exact Or.inr ⟨hcalm.1, rfl, rfl, settled_cancel hcalm.2⟩

end Engine

/-! A whole session -/

def Request.isCancel : Request α → Bool
  | .cancel => true
  | _ => false

def wasStopped {β : Type} : Except (Error α) β → Bool
  | .error .cancelled => true
  | _ => false

omit [Scalar α] in
theorem wasStopped_iff {β : Type} {x : Except (Error α) β} :
    wasStopped x = true ↔ x = .error .cancelled := by
  cases x with
  | error err => cases err <;> simp [wasStopped]
  | ok b => simp [wasStopped]

namespace Engine

/-- The calls of a session that are neither requests to cancel nor stopped, with their answers. -/
def undisturbed (e : Engine α) (rs : List (Request α)) :
    List (Request α × Except (Error α) (Answer α)) :=
  (rs.zip (e.session rs).1).filter fun call => !call.1.isCancel && !wasStopped call.2

variable {e : Engine α} {r : Request α} {rest : List (Request α)}

theorem undisturbed_cancel : e.undisturbed (.cancel :: rest) = e.cancel.undisturbed rest := rfl

theorem undisturbed_stopped (h : e.serve r = (.error .cancelled, e.settled)) :
    e.undisturbed (r :: rest) = e.settled.undisturbed rest := by
  simp [undisturbed, session, h, wasStopped]

theorem undisturbed_cons (hr : r ≠ .cancel) (h : (e.serve r).1 ≠ .error .cancelled) :
    e.undisturbed (r :: rest) = (r, (e.serve r).1) :: (e.serve r).2.undisturbed rest := by
  have hcancel : r.isCancel = false := by
    cases r <;> first | rfl | exact absurd rfl hr
  have hstopped : wasStopped (e.serve r).1 = false := Bool.eq_false_iff.2 (mt wasStopped_iff.1 h)
  simp [undisturbed, session, hcancel, hstopped]

theorem session_undisturbed (rs : List (Request α)) : ∀ e : Engine α,
    e.settled.session ((e.undisturbed rs).map (·.1)) =
      ((e.undisturbed rs).map (·.2), (e.session rs).2.settled) := by
  -- on the requests, for every engine: with and without what is left out, the engines differ in what is
  -- pending only
  induction rs with
  | nil => exact fun e => rfl
  | cons r rest ih =>
    intro e
    by_cases hr : r = .cancel
    · subst hr
      rw [undisturbed_cancel]
      exact ih e.cancel
    · obtain ⟨-, h⟩ | ⟨hne, hanswer, -, hengine⟩ := e.serve_cases hr
      · have hsession : (e.session (r :: rest)).2 = (e.settled.session rest).2 := by
          simp only [session, h]
        rw [undisturbed_stopped h, hsession]
        exact ih e.settled
      · have hrest := ih (e.serve r).2
        rw [hengine] at hrest
        rw [undisturbed_cons hr hne]
        simp only [List.map_cons, session, hrest, hanswer]

theorem wasStopped_serve (e : Engine α) (r : Request α) :
    (if wasStopped (e.serve r).1 then 1 else 0) + (if (e.serve r).2.cancelled then 1 else 0) ≤
      (if r.isCancel then 1 else 0) + if e.cancelled then 1 else 0 := by
  by_cases hr : r = .cancel
  · subst hr
    exact Nat.le_add_right 1 _
  · obtain ⟨he, h⟩ | ⟨hne, -, hpending, -⟩ := e.serve_cases hr
    · rw [h, he]
      exact Nat.le_add_left 1 _
    · rw [hpending, if_neg (mt wasStopped_iff.1 hne)]
      exact Nat.add_le_add_right (Nat.zero_le _) _

theorem countP_wasStopped (rs : List (Request α)) : ∀ e : Engine α,
    (e.session rs).1.countP wasStopped + (if (e.session rs).2.cancelled then 1 else 0) ≤
      rs.countP Request.isCancel + if e.cancelled then 1 else 0 := by
  induction rs with
  | nil => exact fun e => le_rfl
  | cons r rest ih =>
    intro e
    have hstep := e.wasStopped_serve r
    have hrest := ih (e.serve r).2
    rw [session, List.countP_cons, List.countP_cons]
    dsimp only
    omega

/-- Cancelling is transparent: a call that is stopped leaves everything as it was, with nothing pending;
no more calls are stopped than were asked for; and without the requests to cancel and the stopped calls
all other calls have the same answers, and leave the same engine. -/
theorem cancellation_transparent (he : e.cancelled = false) (rs : List (Request α)) :
    let now := (e.session rs).2
    (∀ r, (now.serve r).1 = .error .cancelled →
      now.cancelled = true ∧ (now.serve r).2 = { now with cancelled := false }) ∧
    (e.session rs).1.countP wasStopped ≤ rs.countP Request.isCancel ∧
    e.session ((e.undisturbed rs).map (·.1)) =
      ((e.undisturbed rs).map (·.2), { now with cancelled := false }) := by
  intro now
  refine ⟨fun r hstopped => ?_, ?_, ?_⟩
  · by_cases hr : r = .cancel
    · subst hr
      exact absurd hstopped (ok_ne_error Answer.done)
    · obtain ⟨hpending, h⟩ | ⟨hne, -⟩ := now.serve_cases hr
      · exact ⟨hpending, by rw [h]; rfl⟩
      · exact absurd hstopped hne
  · have hcount := countP_wasStopped rs e
    rw [he] at hcount
    exact (Nat.le_add_right _ _).trans hcount
  · have hsession := e.session_undisturbed rs
    rwa [settled_eq he] at hsession

noncomputable def coinEngine : Engine ℝ :=
  ⟨coin, ⟨coin.vars, coinTriangulation, coinTree⟩, {}, coin.evidence, false, 0, none, []⟩

def interruptedRequests : List (Request ℝ) := [.cancel, .probability, .probability]

/-- The first question is stopped, and the second one is answered as if it were the only one. -/
theorem cancellation_transparent_of_coin : ofNetwork coin {} = .ok coinEngine ∧
    coinEngine.cancelled = false ∧
    (coinEngine.session interruptedRequests).1[1]? = some (.error .cancelled) ∧
    (coinEngine.session interruptedRequests).1.countP wasStopped ≤ 1 ∧
    (coinEngine.session [.probability]).1 =
      (coinEngine.undisturbed interruptedRequests).map (·.2) := by
  obtain ⟨-, hcount, hsession⟩ := cancellation_transparent (e := coinEngine) rfl interruptedRequests
  have hkept : (coinEngine.undisturbed interruptedRequests).map (·.1) = [.probability] := rfl
  rw [hkept] at hsession
  exact ⟨ofNetwork_coin, rfl, rfl, hcount, congrArg Prod.fst hsession⟩

end Engine
end Bayes
