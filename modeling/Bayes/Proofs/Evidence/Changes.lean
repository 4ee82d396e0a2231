import Bayes.Proofs.Evidence.Counting
/-!
What a change of the evidence leaves: the same variables, valid findings, the findings that it is meant to
leave, and as many of them new or gone as the number that it answers with.
-/
namespace Bayes

theorem forM_ok {ε β : Type} {f : β → Except ε Unit} {l : List β} (h : l.forM f = .ok ()) :
    ∀ b ∈ l, f b = .ok () := by
  induction l with
  | nil => simp
  | cons b l ih =>
    have h : (f b >>= fun _ => l.forM f) = .ok () := h
    obtain ⟨⟨⟩, hb, hl⟩ := bind_eq_ok.1 h
    exact List.forall_mem_cons.2 ⟨hb, ih hl⟩

namespace Evidence

variable {α : Type} {e e' : Evidence} {findings new : Findings} {kind : Kind} {states : VarMap Nat}
  {v s changes : Nat}

/-! Validity -/

def Knows (e : Evidence) (findings : Findings) : Prop :=
  ∀ v f, findings.get? v = some f → ∃ x, e.vars[v]? = some x ∧ f.state < x.cardinality

theorem Knows.admits {n : Network α} (h : e.Knows findings) (hvars : e.vars = n.vars) :
    n.Admits findings := by
  intro v f hf
  obtain ⟨x, hx, hstate⟩ := h v f hf
  rw [hvars] at hx
  have hv := Network.lt_of_vars hx
  obtain ⟨y, hy, hcard⟩ := Network.vars_of_lt hv
  obtain rfl := Option.some.inj (hx.symm.trans hy)
  exact ⟨hv, hcard ▸ hstate⟩

theorem checkState_spec (h : e.checkState (α := α) v s = .ok ()) :
    ∃ x, e.vars[v]? = some x ∧ s < x.cardinality := by
  rw [checkState, checkVariable] at h
  cases hx : e.vars[v]? with
  | none => simp [hx, bind, Except.bind] at h
  | some x =>
    refine ⟨x, rfl, ?_⟩
    by_contra hlt
    simp [hx, hlt, bind, Except.bind, throw, throwThe, MonadExceptOf.throw] at h

theorem checkAll_spec (h : e.checkAll (α := α) states = .ok ()) (v s : Nat)
    (hs : states.get? v = some s) : ∃ x, e.vars[v]? = some x ∧ s < x.cardinality :=
  checkState_spec (forM_ok h (v, s) (VarMap.mem_entries.2 hs))

theorem knows_putAll (hold : e.Knows findings) (h : e.checkAll (α := α) states = .ok ()) :
    e.Knows (putAll kind states findings).2 := by
  intro w f hf
  rw [get?_putAll] at hf
  cases hs : states.get? w with
  | none =>
    rw [hs] at hf
    exact hold w f hf
  | some s =>
    rw [hs] at hf
    obtain rfl := Option.some.inj hf
    exact checkAll_spec h w s hs

theorem knows_filter {p : Nat → Finding → Bool} (h : e.Knows findings) :
    e.Knows (findings.filter p) := by
  intro w f hf
  rw [VarMap.get?_filter, Option.filter_eq_some_iff] at hf
  exact h w f hf.1

theorem knows_empty : e.Knows .empty := fun _ _ hf => by simp [VarMap.get?_empty] at hf

/-! Accepted changes -/

theorem get?_replacedAll (states : VarMap Nat) (w : Nat) :
    (putAll kind states (keeping kind states findings)).2.get? w =
      ((states.get? w).map (Finding.mk kind)).or ((findings.get? w).filter (·.kind ≠ kind)) := by
  rw [get?_putAll, keeping, VarMap.get?_filter]
  cases hw : states.get? w with
  | none => simp [VarMap.contains, hw]
  | some s => rfl

theorem get?_both {observations interventions : VarMap Nat}
    (h : ∀ v s, observations.get? v = some s → interventions.get? v = none) :
    ((both observations interventions).get? v = some ⟨.observed, s⟩ ↔ observations.get? v = some s) ∧
    ((both observations interventions).get? v = some ⟨.intervened, s⟩ ↔
      interventions.get? v = some s) := by
  rw [get?_both_eq]
  cases hi : interventions.get? v with
  | none => cases observations.get? v <;> simp
  | some i =>
    have ho : observations.get? v = none :=
      Option.eq_none_iff_forall_ne_some.2 fun o ho => by simp [h v o ho] at hi
    simp [ho]

def Names (e : Evidence) (name state : String) (v s : Nat) : Prop :=
  ∃ x, e.vars[v]? = some x ∧ x.name = name ∧ x.states[s]? = some state

/-- The findings that a change is meant to leave. -/
def Leaves (e : Evidence) (new : Findings) : Update → Prop
  | .record kind v s => ∀ w, new.get? w = if w = v then some ⟨kind, s⟩ else e.findings.get? w
  | .recordNamed kind name state => ∃ v s, e.Names name state v s ∧
      ∀ w, new.get? w = if w = v then some ⟨kind, s⟩ else e.findings.get? w
  | .forget v => ∀ w, new.get? w = if w = v then none else e.findings.get? w
  | .addAll kind states => ∀ w, new.get? w =
      ((states.get? w).map (Finding.mk kind)).or (e.findings.get? w)
  | .replaceAll kind states => ∀ w, new.get? w =
      ((states.get? w).map (Finding.mk kind)).or ((e.findings.get? w).filter (·.kind ≠ kind))
  | .replaceEverything observations interventions => ∀ w s,
      (new.get? w = some ⟨.observed, s⟩ ↔ observations.get? w = some s) ∧
      (new.get? w = some ⟨.intervened, s⟩ ↔ interventions.get? w = some s)
  | .reset => ∀ w, new.get? w = none

/-- What an accepted change leaves. -/
structure Accepted (e : Evidence) (u : Update) (changes : Nat) (e' : Evidence) : Prop where
  vars : e'.vars = e.vars
  frozen : e'.frozen = e.frozen
  knows : e.Knows e.findings → e.Knows e'.findings
  count : (changes : ℕ∞) = (differing e.findings e'.findings).encard
  leaves : e.Leaves e'.findings u

theorem Accepted.of_eq {change : Nat × Findings} {u : Update}
    (heq : e.withFindings change = (changes, e')) (hknows : e.Knows e.findings → e.Knows change.2)
    (hcount : (change.1 : ℕ∞) = (differing e.findings change.2).encard)
    (hleaves : e.Leaves change.2 u) : e.Accepted u changes e' := by
  cases heq
  exact ⟨rfl, rfl, hknows, hcount, hleaves⟩

theorem record_accepted {state : Nat} (h : e.record (α := α) kind v state = .ok (changes, e')) :
    e.Accepted (.record kind v state) changes e' := by
  obtain ⟨⟨⟩, -, h⟩ := bind_eq_ok.1 h
  obtain ⟨⟨⟩, hstate, h⟩ := bind_eq_ok.1 h
  refine .of_eq (Except.ok.inj h) (fun hold w f hf => ?_) (encard_put _ _ _)
    (VarMap.get?_insert e.findings v _)
  rw [put, VarMap.get?_insert] at hf
  split at hf
  · next hw =>
    obtain rfl := Option.some.inj hf
    exact hw ▸ checkState_spec hstate
  · exact hold w f hf

theorem resolve_names {name state : String} (h : e.resolve (α := α) name state = .ok (v, s)) :
    e.Names name state v s := by
  rw [resolve] at h
  cases hv : e.vars.findIdx? (·.name == name) with
  | none => simp [hv] at h
  | some w =>
    obtain ⟨hlt, hname, -⟩ := List.findIdx?_eq_some_iff_getElem.1 hv
    have hx : e.vars[w]? = some e.vars[w] := List.getElem?_eq_getElem hlt
    simp only [hv, hx, Option.bind_some] at h
    cases hs : e.vars[w].stateIndex? state with
    | none => simp [hs] at h
    | some i =>
      obtain ⟨hi, hstate, -⟩ := List.findIdx?_eq_some_iff_getElem.1 hs
      simp only [hs, Except.ok.injEq, Prod.mk.injEq] at h
      obtain ⟨rfl, rfl⟩ := h
      exact ⟨_, hx, by simpa using hname, by simpa [hi] using hstate⟩

theorem forget_accepted (h : e.forget (α := α) v = .ok (changes, e')) :
    e.Accepted (.forget v) changes e' := by
  obtain ⟨⟨⟩, -, h⟩ := bind_eq_ok.1 h
  obtain ⟨_, -, h⟩ := bind_eq_ok.1 h
  exact .of_eq (Except.ok.inj h) knows_filter (encard_erase _ _) (VarMap.get?_erase _ v)

theorem update_accepted {u : Update} (h : e.update (α := α) u = .ok (changes, e')) :
    e.Accepted u changes e' := by
  cases u with
  | record kind v state => exact record_accepted h
  | recordNamed kind name state =>
    obtain ⟨⟨v, i⟩, hnames, h⟩ := bind_eq_ok.1 h
    obtain ⟨hvars, hfrozen, hknows, hcount, hleaves⟩ := record_accepted h
    exact ⟨hvars, hfrozen, hknows, hcount, v, i, resolve_names hnames, hleaves⟩
  | forget v => exact forget_accepted h
  | addAll kind states =>
    obtain ⟨⟨⟩, -, h⟩ := bind_eq_ok.1 h
    obtain ⟨⟨⟩, hall, h⟩ := bind_eq_ok.1 h
    exact .of_eq (Except.ok.inj h) (knows_putAll · hall) (encard_putAll _ _ _) (get?_putAll states)
  | replaceAll kind states =>
    obtain ⟨⟨⟩, -, h⟩ := bind_eq_ok.1 h
    obtain ⟨⟨⟩, hall, h⟩ := bind_eq_ok.1 h
    exact .of_eq (Except.ok.inj h) (fun hold => knows_putAll (knows_filter hold) hall)
      (encard_replacedAll kind states e.findings) (get?_replacedAll states)
  | replaceEverything observations interventions =>
    obtain ⟨⟨⟩, -, h⟩ := bind_eq_ok.1 h
    obtain ⟨⟨⟩, hobservations, h⟩ := bind_eq_ok.1 h
    obtain ⟨⟨⟩, hinterventions, h⟩ := bind_eq_ok.1 h
    split at h
    · cases h
    · next hconflict =>
      refine .of_eq (Except.ok.inj h)
        (fun _ => knows_putAll (knows_putAll knows_empty hobservations) hinterventions)
        (encard_replaced _ _) fun w s => get?_both fun v o ho => ?_
      have hkey : v ∈ observations.keys := VarMap.mem_keys.2 ⟨o, ho⟩
      simpa [VarMap.contains] using List.find?_eq_none.1 hconflict v hkey
  | reset =>
    obtain ⟨⟨⟩, -, h⟩ := bind_eq_ok.1 h
    refine .of_eq (Except.ok.inj h) (fun _ => knows_empty) ?_ VarMap.get?_empty
    rw [differing_empty, encard_known]

/-- What an accepted change means for the answers that were computed before it. -/
structure Changed (e : Evidence) (changes : Nat) (e' : Evidence) : Prop where
  vars : e'.vars = e.vars
  knows : e.Knows e.findings → e.Knows e'.findings
  zero_iff : changes = 0 ↔ e'.findings = e.findings

theorem update_changed {u : Update} (h : e.update (α := α) u = .ok (changes, e')) :
    e.Changed changes e' := by
  have haccepted := update_accepted h
  exact ⟨haccepted.vars, haccepted.knows, eq_zero_iff haccepted.count⟩

end Evidence
end Bayes
