import Bayes.Proofs.Evidence.InPlace
/-!
Evidence that is frozen. Whatever change is asked for, it is refused and nothing is written, so the
findings stay as they are until changes are allowed again. What the refusal says depends on the change:
names are looked up before anything else, so a name that is not known is what is complained about.
-/
namespace Bayes

theorem bind_eq_error {ε β γ : Type} {x : Except ε β} {f : β → Except ε γ} {err : ε}
    (h : x = .error err) : (x >>= f) = .error err := by
  rw [h]
  rfl

namespace Evidence

variable {α : Type} {e : Evidence}

/-- What may be said when a change of frozen evidence is refused. -/
inductive Refused (e : Evidence) : Update → Error α → Prop
  | unknownName {kind : Kind} {name state : String} (h : ∀ x ∈ e.vars, x.name ≠ name) :
      Refused e (.recordNamed kind name state) (.unknownName name)
  | unknownState {kind : Kind} {name state : String} (x : Variable)
      (hx : e.vars.find? (·.name == name) = some x) (h : state ∉ x.states) :
      Refused e (.recordNamed kind name state) (.unknownState name state)
  | frozen (u : Update) (h : ∀ kind name state, u = .recordNamed kind name state → e.Fits u) :
      Refused e u .frozenEvidence

inductive Action where
  | freeze (frozen : Bool)
  | update (u : Update)

def act (α : Type) (e : Evidence) : Action → Evidence
  | .freeze frozen => e.freeze frozen
  | .update u => Call.after (α := α) (updateInPlace u) e

theorem checkMutable_error (h : e.frozen = true) :
    e.checkMutable = (.error .frozenEvidence : Except (Error α) Unit) := by
  simp [checkMutable, h]

/-- One refusal for every change; only a change that is given by names can be refused for another reason. -/
theorem update_frozen (hfrozen : e.frozen = true) (u : Update) :
    ∃ err, e.update (α := α) u = .error err ∧ e.Refused u err := by
  have hmutable : e.checkMutable = (.error .frozenEvidence : Except (Error α) Unit) :=
    checkMutable_error hfrozen
  cases u with
  | recordNamed kind name state =>
    obtain ⟨hnone, hresolve⟩ | ⟨x, hx, ⟨hstate, hresolve⟩ | ⟨hstate, v, s, hresolve, -⟩⟩ :=
      resolve_cases (α := α) e name state
    · have hnew : ∀ x ∈ e.vars, x.name ≠ name := by simpa using hnone
      exact ⟨.unknownName name, bind_eq_error hresolve, .unknownName hnew⟩
    · exact ⟨.unknownState name state, bind_eq_error hresolve, .unknownState x hx hstate⟩
    · have hrecord : e.record (α := α) kind v s = .error .frozenEvidence := bind_eq_error hmutable
      refine ⟨.frozenEvidence, ?_, .frozen _ fun _ _ _ _ => ⟨x, hx, hstate⟩⟩
      simp [update, recordNamed, hresolve, hrecord, bind, Except.bind]
  | _ => exact ⟨.frozenEvidence, bind_eq_error hmutable, .frozen _ (by simp)⟩

theorem updateInPlace_frozen (hfrozen : e.frozen = true) (u : Update) :
    ∃ err, updateInPlace (α := α) u e = .error err e ∧ e.Refused u err := by
  obtain ⟨err, herr, hrefused⟩ := update_frozen (α := α) hfrozen u
  exact ⟨err, by rw [updateInPlace_eq, Call.whole, herr], hrefused⟩

theorem foldl_act_frozen {actions : List Action} (h : .freeze false ∉ actions) (hfrozen : e.frozen = true) :
    actions.foldl (act α) e = e := by
  induction actions with
  | nil => rfl
  | cons action actions ih =>
    obtain ⟨hne, hrest⟩ := List.ne_and_not_mem_of_not_mem_cons h
    have hstep : act α e action = e := by
      cases action with
      | freeze frozen =>
        cases frozen with
        | false => exact absurd rfl hne
        | true => rw [act, freeze, ← hfrozen]
      | update u =>
        obtain ⟨err, herr, -⟩ := updateInPlace_frozen (α := α) hfrozen u
        rw [act, Call.after, herr]
    rw [List.foldl_cons, hstep, ih hrest]

/-- Frozen evidence refuses every change and keeps every finding until changes are allowed again. -/
theorem frozen_exact (hfrozen : e.frozen = true) :
    (∀ u : Update, ∃ err, updateInPlace (α := α) u e = .error err e ∧ e.Refused u err) ∧
    ∀ actions : List Action, .freeze false ∉ actions → actions.foldl (act α) e = e :=
  ⟨updateInPlace_frozen hfrozen, fun _ h => foldl_act_frozen h hfrozen⟩

theorem frozen_exact_of_lamp : ∃ e : Evidence, Reached lamp e ∧ e.frozen = true ∧
    e.finding? 0 = some ⟨.observed, 1⟩ ∧
    (∃ err, updateInPlace (α := Float) .reset e = .error err e ∧ e.Refused .reset err) ∧
    [.freeze true, .update .reset, .update (.recordNamed .observed "lamp" "off")].foldl (act Float) e =
      e := by
  let seen : Evidence := { lamp.evidence with findings := .ofList [(0, ⟨.observed, 1⟩)], frozen := true }
  have hreached : Reached lamp seen := .freeze (.update .new (.record .observed 0 1)) true
  obtain ⟨hrefuses, hkeeps⟩ := frozen_exact (α := Float) (e := seen) rfl
  exact ⟨seen, hreached, rfl, rfl, hrefuses .reset, hkeeps _ (by simp)⟩

/-- There is no fan, which is complained about before it is noticed that nothing may be changed. -/
theorem not_always_frozenEvidence : ¬ ∀ e : Evidence, Reached lamp e → e.frozen = true →
    ∀ u : Update, updateInPlace (α := Float) u e = .error .frozenEvidence e := by
  intro h
  have hfan := h (lamp.evidence.freeze true) (.freeze .new true) rfl (.recordNamed .observed "fan" "on")
  have hname : updateInPlace (α := Float) (.recordNamed .observed "fan" "on") (lamp.evidence.freeze true) =
      .error (.unknownName "fan") (lamp.evidence.freeze true) := rfl
  rw [hname] at hfan
  cases hfan

end Evidence
end Bayes
