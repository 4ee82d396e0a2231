import Bayes.Proofs.Call
import Bayes.Proofs.Evidence.Changes
/-!
Changing the evidence in place, one finding after the other. Every change looks at all that it is given
before it writes the first finding, so one that fails leaves what was known; one that succeeds leaves
what it is meant to, and answers with the number of variables about which something else is known.
-/
namespace Bayes.Evidence
open Call

variable {α : Type} {e e' : Evidence} {kind : Kind} {states : VarMap Nat} {findings : Findings}
  {v s changes : Nat}

/-! One finding after the other -/

def putOn (kind : Kind) (v s : Nat) : Call α Evidence Nat :=
  write fun e => e.withFindings (put e.findings v ⟨kind, s⟩)

def putOnAll (kind : Kind) (l : List (Nat × Nat)) : Call α Evidence Nat :=
  l.foldlM (fun changes s => do return changes + (← putOn kind s.1 s.2)) 0

def drop (v : Nat) : Call α Evidence Unit :=
  write fun e => ((), { e with findings := e.findings.erase v })

def dropAll (l : List Nat) : Call α Evidence Unit := l.forM drop

def stale (kind : Kind) (states : VarMap Nat) (findings : Findings) : List Nat :=
  (findings.filter fun v f => f.kind = kind && !states.contains v).keys

def checkApart (e : Evidence) (observations interventions : VarMap Nat) : Except (Error α) Unit :=
  match observations.keys.find? interventions.contains with
  | some v => .error (.conflictingFindings (((e.vars[v]?).map (·.name)).getD ""))
  | none => .ok ()

def recordInPlace (kind : Kind) (v s : Nat) : Call α Evidence Nat := do
  check checkMutable
  check (·.checkState v s)
  putOn kind v s

def updateInPlace : Update → Call α Evidence Nat
  | .record kind v s => recordInPlace kind v s
  | .recordNamed kind name state => do
    let (v, s) ← check (·.resolve name state)
    recordInPlace kind v s
  | .forget v => do
    check checkMutable
    let _ ← check (·.checkVariable v)
    let old ← read (·.findings.contains v)
    drop v
    return if old then 1 else 0
  | .addAll kind states => do
    check checkMutable
    check (·.checkAll states)
    putOnAll kind states.entries
  | .replaceAll kind states => do
    check checkMutable
    check (·.checkAll states)
    let old ← read fun e => stale kind states e.findings
    dropAll old
    return old.length + (← putOnAll kind states.entries)
  | .replaceEverything observations interventions => do
    check checkMutable
    check (·.checkAll observations)
    check (·.checkAll interventions)
    check (·.checkApart observations interventions)
    let new := both observations interventions
    write fun e => e.withFindings (replaced e.findings new, new)
  | .reset => do
    check checkMutable
    write fun e => e.withFindings (e.findings.size, .empty)

/-! All or nothing -/

theorem putOnAll_eq (kind : Kind) (states : VarMap Nat) : putOnAll kind states.entries =
    (write fun e => e.withFindings (putAll kind states e.findings) : Call α Evidence Nat) := by
  have hfold (l : List (Nat × Nat)) : ∀ changes : Nat,
      (l.foldlM (fun changes s => do return changes + (← putOn kind s.1 s.2)) changes :
        Call α Evidence Nat) = write fun e => e.withFindings (l.foldl (fun told s =>
          (told.1 + (put told.2 s.1 ⟨kind, s.2⟩).1, (put told.2 s.1 ⟨kind, s.2⟩).2))
          (changes, e.findings)) := by
    induction l with
    | nil => exact fun changes => rfl
    | cons s l ih =>
      intro changes
      rw [List.foldlM_cons]
      simp only [ih]
      simp only [putOn, pure_eq_write, write_bind]
      rfl
  exact hfold states.entries 0

theorem dropAll_eq (l : List Nat) : (dropAll l : Call α Evidence Unit) =
    write fun e => ((), { e with findings := l.foldl VarMap.erase e.findings }) := by
  induction l with
  | nil => rfl
  | cons v l ih =>
    have hcons : (dropAll (v :: l) : Call α Evidence Unit) = drop v >>= fun _ => dropAll l := rfl
    simp only [hcons, ih, drop, write_bind]
    rfl

theorem get?_foldl_erase (l : List Nat) : ∀ (findings : Findings) (w : Nat),
    (l.foldl VarMap.erase findings).get? w = if w ∈ l then none else findings.get? w := by
  induction l with
  | nil => exact fun findings w => (if_neg List.not_mem_nil).symm
  | cons v l ih =>
    intro findings w
    rw [List.foldl_cons, ih, VarMap.get?_erase]
    by_cases hw : w = v <;> simp [hw]

theorem mem_stale : v ∈ stale kind states findings ↔
    ∃ f, findings.get? v = some f ∧ f.kind = kind ∧ states.contains v = false := by
  rw [stale, VarMap.mem_keys]
  refine exists_congr fun f => ?_
  rw [VarMap.get?_filter, Option.filter_eq_some_iff]
  simp

theorem foldl_erase_stale (kind : Kind) (states : VarMap Nat) (findings : Findings) :
    (stale kind states findings).foldl VarMap.erase findings = keeping kind states findings := by
  refine VarMap.ext_get? fun w => ?_
  rw [get?_foldl_erase, keeping, VarMap.get?_filter]
  by_cases hw : w ∈ stale kind states findings
  · obtain ⟨f, hf, hkind, hnot⟩ := mem_stale.1 hw
    simp [hw, hf, hkind, hnot, Option.filter]
  · rw [if_neg hw]
    cases hf : findings.get? w with
    | none => rfl
    | some f =>
      have hkeep : f.kind = kind → states.contains w = true := fun hkind =>
        Bool.of_not_eq_false fun hnot => hw (mem_stale.2 ⟨f, hf, hkind, hnot⟩)
      rw [Option.filter_some_pos]
      by_cases hkind : f.kind = kind <;> simp [hkind, hkeep]

theorem length_stale (kind : Kind) (states : VarMap Nat) (findings : Findings) :
    (stale kind states findings).length = findings.size - (keeping kind states findings).size := by
  have hsize : findings.size = (keeping kind states findings).size +
      (findings.entries.filter fun e => !(e.2.kind ≠ kind || states.contains e.1)).length :=
    List.length_eq_length_filter_add _
  have hstale : stale kind states findings =
      (findings.entries.filter fun e => !(e.2.kind ≠ kind || states.contains e.1)).map (·.1) := by
    refine congrArg _ (List.filter_congr fun e _ => ?_)
    simp
  rw [hsize, hstale, List.length_map, Nat.add_sub_cancel_left]

theorem recordInPlace_eq (kind : Kind) (v s : Nat) :
    recordInPlace kind v s = (whole (·.record kind v s) : Call α Evidence Nat) := by
  simp only [recordInPlace, putOn, write_eq_whole, check_bind]
  rfl

theorem updateInPlace_eq (u : Update) :
    updateInPlace u = (whole (·.update u) : Call α Evidence Nat) := by
  cases u with
  | record kind v s => exact recordInPlace_eq kind v s
  | recordNamed kind name state =>
    simp only [updateInPlace, recordInPlace_eq, check_bind]
    rfl
  | forget v =>
    simp only [updateInPlace, drop, pure_eq_write, write_bind]
    simp only [write_eq_whole, read_bind, check_bind]
    rfl
  | addAll kind states =>
    simp only [updateInPlace, putOnAll_eq, write_eq_whole, check_bind]
    rfl
  | replaceAll kind states =>
    simp only [updateInPlace, putOnAll_eq, dropAll_eq, pure_eq_write, write_bind]
    simp only [write_eq_whole, read_bind, check_bind, foldl_erase_stale, length_stale]
    rfl
  | replaceEverything observations interventions =>
    simp only [updateInPlace, write_eq_whole, check_bind]
    refine congrArg whole (funext fun e => ?_)
    simp only [update, replaceEverything, checkApart]
    cases observations.keys.find? interventions.contains <;> rfl
  | reset =>
    simp only [updateInPlace, write_eq_whole, check_bind]
    rfl

theorem updateInPlace_eq_ok {u : Update} :
    updateInPlace (α := α) u e = .ok changes e' ↔ e.update (α := α) u = .ok (changes, e') := by
  rw [updateInPlace_eq, whole]
  cases hu : e.update (α := α) u with
  | error err => simp
  | ok changed => simp [Prod.ext_iff]

/-! What is accepted -/

def Has (e : Evidence) (v s : Nat) : Prop := ∃ x, e.vars[v]? = some x ∧ s < x.cardinality

/-- What a change is about is known, and nothing is given in both ways. -/
def Fits (e : Evidence) : Update → Prop
  | .record _ v s => e.Has v s
  | .recordNamed _ name state => ∃ x, e.vars.find? (·.name == name) = some x ∧ state ∈ x.states
  | .forget v => v < e.vars.length
  | .addAll _ states | .replaceAll _ states => ∀ v s, states.get? v = some s → e.Has v s
  | .replaceEverything observations interventions =>
    (∀ v s, observations.get? v = some s → e.Has v s) ∧
    (∀ v s, interventions.get? v = some s → e.Has v s) ∧
    ∀ v, observations.get? v = none ∨ interventions.get? v = none
  | .reset => True

theorem Fits.apart {observations interventions : VarMap Nat}
    (h : e.Fits (.replaceEverything observations interventions)) (hs : observations.get? v = some s) :
    interventions.get? v = none := by
  obtain ⟨-, -, hapart⟩ := h
  exact (hapart v).resolve_left (by simp [hs])

theorem checkMutable_ok (h : e.frozen = false) : e.checkMutable = (.ok () : Except (Error α) Unit) := by
  simp [checkMutable, h]

theorem checkMutable_spec (h : e.checkMutable (α := α) = .ok ()) : e.frozen = false := by
  cases hfrozen : e.frozen with
  | false => rfl
  | true => simp [checkMutable, hfrozen] at h

theorem checkState_ok (h : e.Has v s) : e.checkState v s = (.ok () : Except (Error α) Unit) := by
  obtain ⟨x, hx, hs⟩ := h
  simp [checkState, checkVariable, hx, hs, bind, Except.bind, pure, Except.pure]

theorem checkAll_eq_ok (h : ∀ v s, states.get? v = some s → e.Has v s) :
    e.checkAll states = (.ok () : Except (Error α) Unit) :=
  forM_eq_ok fun entry hentry => checkState_ok (h entry.1 entry.2 (VarMap.mem_entries.1 hentry))

theorem resolve_cases (e : Evidence) (name state : String) :
    (e.vars.find? (·.name == name) = none ∧ e.resolve (α := α) name state = .error (.unknownName name)) ∨
    ∃ x, e.vars.find? (·.name == name) = some x ∧
      (state ∉ x.states ∧ e.resolve (α := α) name state = .error (.unknownState name state) ∨
        state ∈ x.states ∧ ∃ v s, e.resolve (α := α) name state = .ok (v, s) ∧ e.Has v s) := by
  rw [List.find?_eq_bind_findIdx?_getElem?]
  cases hv : e.vars.findIdx? (·.name == name) with
  | none => exact .inl ⟨rfl, by rw [resolve, hv]⟩
  | some v =>
    obtain ⟨hlt, -⟩ := List.findIdx?_eq_some_iff_getElem.1 hv
    have hx : e.vars[v]? = some e.vars[v] := List.getElem?_eq_getElem hlt
    refine .inr ⟨e.vars[v], hx, ?_⟩
    cases hs : e.vars[v].stateIndex? state with
    | none =>
      have hstate : state ∉ e.vars[v].states := fun hmem => by
        simpa using List.findIdx?_eq_none_iff.1 hs state hmem
      exact .inl ⟨hstate, by simp [resolve, hv, hx, hs]⟩
    | some s =>
      obtain ⟨hlt', hstate, -⟩ := List.findIdx?_eq_some_iff_getElem.1 hs
      exact .inr ⟨beq_iff_eq.1 hstate ▸ List.getElem_mem hlt', v, s, by simp [resolve, hv, hx, hs],
        _, hx, hlt'⟩

theorem record_ok {kind : Kind} (hfrozen : e.frozen = false) (h : e.Has v s) :
    ∃ changed, e.record kind v s = (.ok changed : Except (Error α) (Nat × Evidence)) :=
  ⟨_, bind_eq_ok.2 ⟨(), checkMutable_ok hfrozen, bind_eq_ok.2 ⟨(), checkState_ok h, rfl⟩⟩⟩

theorem update_ok {u : Update} (hfrozen : e.frozen = false) (h : e.Fits u) :
    ∃ changed, e.update u = (.ok changed : Except (Error α) (Nat × Evidence)) := by
  have hmutable : e.checkMutable = (.ok () : Except (Error α) Unit) := checkMutable_ok hfrozen
  cases u with
  | record kind v s => exact record_ok hfrozen h
  | recordNamed kind name state =>
    obtain ⟨x, hx, hstate⟩ := h
    obtain ⟨hnone, -⟩ | ⟨y, hy, ⟨hnot, -⟩ | ⟨-, v, s, hresolve, hhas⟩⟩ :=
      resolve_cases (α := α) e name state
    · simp [hx] at hnone
    · exact absurd (Option.some.inj (hx.symm.trans hy) ▸ hstate) hnot
    · obtain ⟨changed, hchanged⟩ := record_ok hfrozen hhas
      exact ⟨changed, bind_eq_ok.2 ⟨(v, s), hresolve, hchanged⟩⟩
  | forget v =>
    have hvariable : e.checkVariable v = (.ok e.vars[v] : Except (Error α) Variable) := by
      rw [checkVariable, List.getElem?_eq_getElem h]
    exact ⟨_, bind_eq_ok.2 ⟨(), hmutable, bind_eq_ok.2 ⟨_, hvariable, rfl⟩⟩⟩
  | addAll kind states =>
    exact ⟨_, bind_eq_ok.2 ⟨(), hmutable, bind_eq_ok.2 ⟨(), checkAll_eq_ok h, rfl⟩⟩⟩
  | replaceAll kind states =>
    exact ⟨_, bind_eq_ok.2 ⟨(), hmutable, bind_eq_ok.2 ⟨(), checkAll_eq_ok h, rfl⟩⟩⟩
  | replaceEverything observations interventions =>
    have hconflict : observations.keys.find? interventions.contains = none := by
      refine List.find?_eq_none.2 fun v hv => ?_
      obtain ⟨s, hs⟩ := VarMap.mem_keys.1 hv
      simp [VarMap.contains, h.apart hs]
    obtain ⟨hobservations, hinterventions, -⟩ := h
    let new := both observations interventions
    refine ⟨e.withFindings (replaced e.findings new, new), ?_⟩
    simp [new, update, replaceEverything, hmutable, checkAll_eq_ok hobservations,
      checkAll_eq_ok hinterventions, hconflict, bind, Except.bind, pure, Except.pure]
  | reset => exact ⟨_, bind_eq_ok.2 ⟨(), hmutable, rfl⟩⟩

theorem fits_of_update_ok {u : Update} {changed : Nat × Evidence}
    (h : e.update (α := α) u = .ok changed) : e.frozen = false ∧ e.Fits u := by
  cases u with
  | record kind v s =>
    obtain ⟨⟨⟩, hmutable, h⟩ := bind_eq_ok.1 h
    obtain ⟨⟨⟩, hstate, -⟩ := bind_eq_ok.1 h
    exact ⟨checkMutable_spec hmutable, checkState_spec hstate⟩
  | recordNamed kind name state =>
    obtain ⟨⟨v, s⟩, hresolve, h⟩ := bind_eq_ok.1 h
    obtain ⟨⟨⟩, hmutable, -⟩ := bind_eq_ok.1 h
    refine ⟨checkMutable_spec hmutable, ?_⟩
    obtain ⟨-, herr⟩ | ⟨x, hx, ⟨-, herr⟩ | ⟨hstate, -⟩⟩ := resolve_cases (α := α) e name state
    · simp [herr] at hresolve
    · simp [herr] at hresolve
    · exact ⟨x, hx, hstate⟩
  | forget v =>
    obtain ⟨⟨⟩, hmutable, h⟩ := bind_eq_ok.1 h
    obtain ⟨x, hvariable, -⟩ := bind_eq_ok.1 h
    refine ⟨checkMutable_spec hmutable, Nat.lt_of_not_le fun hle => ?_⟩
    simp [checkVariable, List.getElem?_eq_none hle] at hvariable
  | addAll kind states | replaceAll kind states =>
    obtain ⟨⟨⟩, hmutable, h⟩ := bind_eq_ok.1 h
    obtain ⟨⟨⟩, hall, -⟩ := bind_eq_ok.1 h
    exact ⟨checkMutable_spec hmutable, checkAll_spec hall⟩
  | replaceEverything observations interventions =>
    obtain ⟨⟨⟩, hmutable, h⟩ := bind_eq_ok.1 h
    obtain ⟨⟨⟩, hobservations, h⟩ := bind_eq_ok.1 h
    obtain ⟨⟨⟩, hinterventions, h⟩ := bind_eq_ok.1 h
    refine ⟨checkMutable_spec hmutable, checkAll_spec hobservations, checkAll_spec hinterventions,
      fun v => ?_⟩
    split at h
    · cases h
    · next hconflict =>
      rw [or_iff_not_imp_left, ← ne_eq, Option.ne_none_iff_exists']
      intro hv
      simpa [VarMap.contains] using List.find?_eq_none.1 hconflict v (VarMap.mem_keys.2 hv)
  | reset =>
    obtain ⟨⟨⟩, hmutable, -⟩ := bind_eq_ok.1 h
    exact ⟨checkMutable_spec hmutable, trivial⟩

/-- Exactly the changes that fit are accepted, unless the evidence is frozen. -/
theorem updateInPlace_isOk {u : Update} :
    (∃ changes e', updateInPlace (α := α) u e = .ok changes e') ↔ e.frozen = false ∧ e.Fits u := by
  simp only [updateInPlace_eq_ok]
  constructor
  · rintro ⟨changes, e', h⟩
    exact fits_of_update_ok h
  · rintro ⟨hfrozen, hfits⟩
    obtain ⟨⟨changes, e'⟩, h⟩ := update_ok hfrozen hfits
    exact ⟨changes, e', h⟩

/-! Whatever is called -/

/-- The evidence about a network after any calls, whether they succeed or fail. -/
inductive Reached (n : Network α) : Evidence → Prop
  | new : Reached n n.evidence
  | freeze {e : Evidence} (h : Reached n e) (frozen : Bool) : Reached n (e.freeze frozen)
  | update {e : Evidence} (h : Reached n e) (u : Update) :
      Reached n (after (α := α) (updateInPlace u) e)

theorem Reached.spec {n : Network α} (h : Reached n e) : e.vars = n.vars ∧ e.Knows e.findings := by
  induction h with
  | new => exact ⟨rfl, knows_empty⟩
  | freeze _ frozen ih => exact ih
  | @update e _ u ih =>
    rw [updateInPlace_eq, after, whole]
    cases hu : e.update (α := α) u with
    | error err => exact ih
    | ok changed =>
      have haccepted := update_accepted hu
      refine ⟨haccepted.vars.trans ih.1, fun v f hf => ?_⟩
      rw [haccepted.vars]
      exact haccepted.knows ih.2 v f hf

/-- A change of the evidence is refused as a whole, or it leaves what it is meant to and answers with
the number of variables about which something else is known; and only what can be known is. -/
theorem update_exact {n : Network α} (h : Reached n e) :
    n.Admits e.findings ∧ ∀ u : Update, match e.update (α := α) u with
      | .error err => updateInPlace u e = .error err e ∧ (e.frozen = false → ¬ e.Fits u)
      | .ok (changes, e') => updateInPlace (α := α) u e = .ok changes e' ∧
          e'.vars = e.vars ∧ e'.frozen = e.frozen ∧ e.Leaves e'.findings u ∧
          (changes : ℕ∞) = (differing e.findings e'.findings).encard := by
  obtain ⟨hvars, hknows⟩ := h.spec
  refine ⟨hknows.admits hvars, fun u => ?_⟩
  rw [updateInPlace_eq, whole]
  cases hu : e.update (α := α) u with
  | error err =>
    refine ⟨rfl, fun hfrozen hfits => ?_⟩
    obtain ⟨changed, hok⟩ := update_ok hfrozen hfits
    rw [hu] at hok
    cases hok
  | ok changed =>
    have haccepted := update_accepted hu
    exact ⟨rfl, haccepted.vars, haccepted.frozen, haccepted.leaves, haccepted.count⟩

def lamp : Network Float := ⟨#[⟨⟨"lamp", ["off", "on"]⟩, [], [], Network.uniform [2]⟩]⟩

/-- A lamp that was seen to be off is now forced to be off: this is one change, and no other findings are
left to be dropped. -/
theorem update_exact_of_lamp : ∃ e e' : Evidence, Reached lamp e ∧
    e.update (α := Float) (.replaceAll .intervened (.ofList [(0, 0)])) = .ok (1, e') ∧
    e.finding? 0 = some ⟨.observed, 0⟩ ∧ e'.finding? 0 = some ⟨.intervened, 0⟩ ∧
    (1 : ℕ∞) = (differing e.findings e'.findings).encard := by
  let seen : Evidence := { lamp.evidence with findings := .ofList [(0, ⟨.observed, 0⟩)] }
  let forced : Evidence := { seen with findings := .ofList [(0, ⟨.intervened, 0⟩)] }
  have hreached : Reached lamp seen := .update .new (.record .observed 0 0)
  have hupdate : seen.update (α := Float) (.replaceAll .intervened (.ofList [(0, 0)])) =
      .ok (1, forced) := rfl
  have hexact := (update_exact hreached).2 (.replaceAll .intervened (.ofList [(0, 0)]))
  rw [hupdate] at hexact
  obtain ⟨-, -, -, hleaves, hcount⟩ := hexact
  exact ⟨seen, forced, hreached, hupdate, rfl, hleaves 0, hcount⟩

end Bayes.Evidence
