import Bayes.Proofs.Evidence.Frozen
/-!
Many findings can be given all at once, one kind after the other, on top of nothing, or one by one. The
findings in between are not the same, and what was known before can be of the other kind; what is left
at the end is the same each time. A run is followed by what each change of it is meant to leave, so no
change is opened here.
-/
namespace Bayes.Evidence

variable {α : Type} {e e' : Evidence} {u : Update} {us : List Update} {o i : VarMap Nat}
  {new new' : Findings} {changes : Nat}

/-! One change after another -/

def updateAll : List Update → Call α Evidence Unit
  | [] => pure ()
  | u :: us => do
    let _ ← updateInPlace u
    updateAll us

def LeavesAll (e : Evidence) : List Update → Findings → Prop
  | [], new => new = e.findings
  | u :: us, new => ∃ mid, e.Leaves mid u ∧ LeavesAll { e with findings := mid } us new

theorem fits_withFindings (findings : Findings) : Fits { e with findings } u ↔ e.Fits u := by
  cases u <;> rfl

theorem updateInPlace_ok (hfrozen : e.frozen = false) (h : e.Fits u) : ∃ changes new,
    updateInPlace (α := α) u e = .ok changes { e with findings := new } ∧ e.Leaves new u := by
  obtain ⟨changes, ⟨vars, new, frozen⟩, hu⟩ := updateInPlace_isOk.2 ⟨hfrozen, h⟩
  obtain ⟨rfl, rfl, -, -, hleaves⟩ := update_accepted (updateInPlace_eq_ok.1 hu)
  exact ⟨changes, new, hu, hleaves⟩

theorem updateAll_ok (hfrozen : e.frozen = false) (h : ∀ u ∈ us, e.Fits u) :
    ∃ new, updateAll (α := α) us e = .ok () { e with findings := new } ∧ e.LeavesAll us new := by
  induction us generalizing e with
  | nil => exact ⟨e.findings, rfl, rfl⟩
  | cons u us ih =>
    obtain ⟨hu, hus⟩ := List.forall_mem_cons.1 h
    obtain ⟨changes, mid, hstep, hmid⟩ := updateInPlace_ok (α := α) hfrozen hu
    obtain ⟨new, hrun, hnew⟩ := ih (e := { e with findings := mid }) hfrozen fun w hw =>
      (fits_withFindings mid).2 (hus w hw)
    refine ⟨new, ?_, mid, hmid, hnew⟩
    simp only [updateAll, bind, EStateM.bind, hstep, hrun]

/-! All at once, or one kind after the other -/

/-- The ways to give observations and interventions by a few changes. -/
def ways (o i : VarMap Nat) : List (List Update) :=
  [[.replaceEverything o i],
    [.replaceAll .observed o, .replaceAll .intervened i],
    [.replaceAll .intervened i, .replaceAll .observed o],
    [.reset, .addAll .observed o, .addAll .intervened i],
    [.reset, .addAll .intervened i, .addAll .observed o]]

theorem ways_fit (h : e.Fits (.replaceEverything o i)) (hus : us ∈ ways o i) : ∀ u ∈ us, e.Fits u := by
  obtain ⟨ho, hi, -⟩ := id h
  simp only [ways, List.mem_cons, List.not_mem_nil, or_false] at hus
  obtain rfl | rfl | rfl | rfl | rfl := hus <;> simp_all [Fits]

theorem Leaves.unique (h : e.Leaves new u) (h' : e.Leaves new' u)
    (hu : ∀ kind name state, u ≠ .recordNamed kind name state) : new = new' := by
  refine VarMap.ext_get? fun w => ?_
  cases u with
  | recordNamed kind name state => exact absurd rfl (hu kind name state)
  | replaceEverything o i =>
    refine Option.ext fun f => ?_
    obtain ⟨kind, s⟩ := f
    cases kind with
    | observed => rw [(h w s).1, (h' w s).1]
    | intervened => rw [(h w s).2, (h' w s).2]
  | _ => exact (h w).trans (h' w).symm

/-- Findings of one kind that are dropped on all variables but those that are given, and then findings of
the other kind: only what was given in between is left of the first. -/
theorem filter_or_filter {kind other : Kind} (hne : kind ≠ other) (s : Option Nat) (f : Option Finding) :
    ((s.map (Finding.mk kind)).or (f.filter (·.kind ≠ kind))).filter (·.kind ≠ other) =
      s.map (Finding.mk kind) := by
  cases s with
  | some s => simp [Option.filter, hne]
  | none =>
    obtain _ | ⟨k, t⟩ := f
    · rfl
    · cases k <;> cases kind <;> cases other <;> simp_all [Option.filter]

theorem leavesAll_ways (h : e.Fits (.replaceEverything o i)) (hus : us ∈ ways o i)
    (hleaves : e.LeavesAll us new) : new = both o i := by
  have hswap (w : Nat) : ((o.get? w).map (Finding.mk .observed)).or
      ((i.get? w).map (Finding.mk .intervened)) =
      ((i.get? w).map (Finding.mk .intervened)).or ((o.get? w).map (Finding.mk .observed)) := by
    cases hw : o.get? w with
    | none => simp
    | some s => simp [h.apart hw]
  simp only [ways, List.mem_cons, List.not_mem_nil, or_false] at hus
  obtain rfl | hus := hus
  · obtain ⟨_, hnew, rfl⟩ := hleaves
    exact Leaves.unique (u := .replaceEverything o i) hnew (fun w s => get?_both fun v s => h.apart)
      (by simp)
  · refine VarMap.ext_get? fun w => ?_
    rw [get?_both_eq]
    obtain rfl | rfl | rfl | rfl := hus
    · obtain ⟨mid, hmid, _, hnew, rfl⟩ := hleaves
      rw [hnew w, hmid w, filter_or_filter (by decide)]
    · obtain ⟨mid, hmid, _, hnew, rfl⟩ := hleaves
      rw [hnew w, hmid w, filter_or_filter (by decide), hswap]
    · obtain ⟨none, hnone, mid, hmid, _, hnew, rfl⟩ := hleaves
      rw [hnew w, hmid w, hnone w, Option.or_none]
    · obtain ⟨none, hnone, mid, hmid, _, hnew, rfl⟩ := hleaves
      rw [hnew w, hmid w, hnone w, Option.or_none, hswap]

/-! One by one -/

def entries (o i : VarMap Nat) : List (Nat × Finding) :=
  o.entries.map (fun s => (s.1, ⟨.observed, s.2⟩)) ++
    i.entries.map (fun s => (s.1, ⟨.intervened, s.2⟩))

def single (f : Nat × Finding) : Update := .record f.2.kind f.1 f.2.state

theorem foldl_entries (o i : VarMap Nat) :
    (entries o i).foldl (fun m f => m.insert f.1 f.2) .empty = both o i := by
  rw [both, putAll_snd, putAll_snd, entries, List.foldl_append, List.foldl_map, List.foldl_map]

theorem nodup_entries (h : e.Fits (.replaceEverything o i)) : ((entries o i).map (·.1)).Nodup := by
  have hmap : (entries o i).map (·.1) = o.keys ++ i.keys := by
    simp [entries, VarMap.keys, Function.comp_def]
  rw [hmap, List.nodup_append']
  refine ⟨o.increasing_keys.imp Nat.ne_of_lt, i.increasing_keys.imp Nat.ne_of_lt, fun v ho hi => ?_⟩
  obtain ⟨s, hs⟩ := VarMap.mem_keys.1 ho
  obtain ⟨s', hs'⟩ := VarMap.mem_keys.1 hi
  simp [h.apart hs] at hs'

theorem fits_single (h : e.Fits (.replaceEverything o i)) {f : Nat × Finding} (hf : f ∈ entries o i) :
    e.Fits (single f) := by
  obtain ⟨ho, hi, -⟩ := h
  obtain hf | hf := List.mem_append.1 hf
  · obtain ⟨s, hs, rfl⟩ := List.mem_map.1 hf
    exact ho s.1 s.2 (VarMap.mem_entries.1 hs)
  · obtain ⟨s, hs, rfl⟩ := List.mem_map.1 hf
    exact hi s.1 s.2 (VarMap.mem_entries.1 hs)

theorem leavesAll_singles {order : List (Nat × Finding)} (h : e.LeavesAll (order.map single) new) :
    new = order.foldl (fun m f => m.insert f.1 f.2) e.findings := by
  induction order generalizing e with
  | nil => exact h
  | cons f order ih =>
    obtain ⟨mid, hmid, hnew⟩ := h
    have hinsert : mid = e.findings.insert f.1 f.2 :=
      VarMap.ext_get? fun w => (hmid w).trans (VarMap.get?_insert _ _ _ _).symm
    rw [ih hnew, List.foldl_cons, hinsert]

theorem insert_comm {m : Findings} {f g : Nat × Finding} (h : f.1 = g.1 → f = g) :
    (m.insert f.1 f.2).insert g.1 g.2 = (m.insert g.1 g.2).insert f.1 f.2 := by
  refine VarMap.ext_get? fun w => ?_
  simp only [VarMap.get?_insert]
  by_cases hf : w = f.1
  · by_cases hg : w = g.1
    · rw [h (hf.symm.trans hg)]
    · rw [if_neg hg, if_pos hf, if_pos hf]
  · rw [if_neg hf, if_neg hf]

theorem foldl_perm {order : List (Nat × Finding)} (h : e.Fits (.replaceEverything o i))
    (horder : order.Perm (entries o i)) :
    order.foldl (fun m f => m.insert f.1 f.2) .empty = both o i := by
  have hnodup : (order.map (·.1)).Nodup := (horder.map _).nodup_iff.2 (nodup_entries h)
  rw [← foldl_entries]
  exact horder.foldl_eq' (fun f hf g hg m =>
    insert_comm fun heq => List.inj_on_of_nodup_map hnodup hf hg heq) _

/-! Given again -/

theorem Leaves.again (h : e.Leaves new u) : Leaves { e with findings := new } new u := by
  have hput (v : Nat) (f : Option Finding)
      (hnew : ∀ w, new.get? w = if w = v then f else e.findings.get? w) (w : Nat) :
      new.get? w = if w = v then f else new.get? w := by
    split
    · next hw => rw [hnew w, if_pos hw]
    · rfl
  cases u with
  | record kind v s => exact hput v (some ⟨kind, s⟩) h
  | recordNamed kind name state =>
    obtain ⟨v, s, hnames, hnew⟩ := h
    exact ⟨v, s, hnames, hput v (some ⟨kind, s⟩) hnew⟩
  | forget v => exact hput v none h
  | addAll kind states =>
    intro w
    have hw := h w
    cases hs : states.get? w with
    | none => rfl
    | some s => rw [hw, hs]; rfl
  | replaceAll kind states =>
    intro w
    have hw := h w
    cases hs : states.get? w with
    | none => simp [hw, hs, Option.filter_filter]
    | some s => rw [hw, hs]; rfl
  | replaceEverything o i => exact h
  | reset => exact h

theorem update_again_of (h : e.update (α := α) u = .ok (changes, e'))
    (hu : ∀ kind name state, u ≠ .recordNamed kind name state) :
    e'.update (α := α) u = .ok (0, e') := by
  obtain ⟨hfrozen, hfits⟩ := fits_of_update_ok h
  obtain ⟨vars, new, frozen⟩ := e'
  obtain ⟨rfl, rfl, -, -, hleaves⟩ := update_accepted h
  obtain ⟨⟨changes', vars, new', frozen⟩, hagain⟩ :=
    update_ok (α := α) (e := { e with findings := new }) hfrozen ((fits_withFindings new).2 hfits)
  obtain ⟨rfl, rfl, -, hcount, hleaves'⟩ := update_accepted hagain
  obtain rfl : new' = new := hleaves'.unique hleaves.again hu
  obtain rfl := (eq_zero_iff hcount).2 rfl
  exact hagain

theorem update_again (h : e.update (α := α) u = .ok (changes, e')) :
    e'.update (α := α) u = .ok (0, e') := by
  cases u with
  | recordNamed kind name state =>
    -- The same variable is found again, since the variables are the same.
    obtain ⟨⟨v, s⟩, hresolve, h⟩ := bind_eq_ok.1 h
    have hagain := update_again_of (u := .record kind v s) h (by simp)
    obtain ⟨vars, new, frozen⟩ := e'
    obtain ⟨rfl, rfl, -, -, -⟩ := record_accepted h
    exact bind_eq_ok.2 ⟨(v, s), hresolve, hagain⟩
  | _ => exact update_again_of h (by simp)

/-! Whatever is called -/

theorem replaceEverything_self {n : Network α} (hvars : e.vars = n.vars) (hfrozen : e.frozen = false)
    (hadmits : n.Admits e.findings) :
    e.update (α := α) (.replaceEverything e.observations e.interventions) = .ok (0, e) := by
  have hzero : replaced e.findings e.findings = 0 := (eq_zero_iff (encard_replaced _ _)).2 rfl
  have hown := replaceEverything_ok hvars hfrozen hadmits
  rwa [hzero] at hown

/-- The ways to give observations and interventions agree, whatever was known before. What is known is
left as it is when it is given again, and so is what any change has left when the change is made again;
both answer that nothing has changed. -/
theorem Reached.bulk_agrees {n : Network α} (h : Reached n e) :
    (e.frozen = false → ∀ o i : VarMap Nat, e.Fits (.replaceEverything o i) →
      (∀ us ∈ ways o i, updateAll (α := α) us e = .ok () { e with findings := both o i }) ∧
      ∀ order : List (Nat × Finding), order.Perm (entries o i) →
        updateAll (α := α) (.reset :: order.map single) e =
          .ok () { e with findings := both o i }) ∧
    updateInPlace (α := α) (.replaceEverything e.observations e.interventions) e =
      (if e.frozen then .error .frozenEvidence e else .ok 0 e) ∧
    ∀ u : Update,
      ((∃ changes e', updateInPlace (α := α) u e = .ok changes e') ↔ e.frozen = false ∧ e.Fits u) ∧
      ∀ changes e', updateInPlace (α := α) u e = .ok changes e' →
        updateInPlace (α := α) u e' = .ok 0 e' := by
  obtain ⟨hvars, hknows⟩ := h.spec
  refine ⟨fun hfrozen o i hfits => ⟨fun us hus => ?_, fun order horder => ?_⟩, ?_,
    fun u => ⟨updateInPlace_isOk, fun changes e' hu => ?_⟩⟩
  · obtain ⟨new, hrun, hleaves⟩ := updateAll_ok (α := α) hfrozen (ways_fit hfits hus)
    rw [hrun, leavesAll_ways hfits hus hleaves]
  · have hsingles : ∀ u ∈ .reset :: order.map single, e.Fits u := by
      refine List.forall_mem_cons.2 ⟨trivial, fun u hu => ?_⟩
      obtain ⟨f, hf, rfl⟩ := List.mem_map.1 hu
      exact fits_single hfits (horder.mem_iff.1 hf)
    obtain ⟨new, hrun, mid, hnone, hleaves⟩ := updateAll_ok (α := α) hfrozen hsingles
    obtain rfl : mid = .empty := VarMap.ext_get? hnone
    rw [hrun, leavesAll_singles hleaves, foldl_perm hfits horder]
  · cases hfrozen : e.frozen with
    | false => exact updateInPlace_eq_ok.2 (replaceEverything_self hvars hfrozen (hknows.admits hvars))
    | true =>
      obtain ⟨err, herr, hrefused⟩ := updateInPlace_frozen (α := α) hfrozen
        (.replaceEverything e.observations e.interventions)
      cases hrefused
      exact herr
  · exact updateInPlace_eq_ok.2 (update_again (updateInPlace_eq_ok.1 hu))

def lamps : Network Float :=
  ⟨#[⟨⟨"left", ["off", "on"]⟩, [], [], Network.uniform [2]⟩,
    ⟨⟨"right", ["off", "on"]⟩, [], [], Network.uniform [2]⟩]⟩

/-- The left lamp was forced to be off. It is now seen to be on, and the right one is forced to be off. -/
theorem bulk_agrees_of_lamps : ∃ e : Evidence, Reached lamps e ∧ e.frozen = false ∧
    e.finding? 0 = some ⟨.intervened, 0⟩ ∧
    let new := both (.ofList [(0, 1)]) (.ofList [(1, 0)])
    new.entries = [(0, ⟨.observed, 1⟩), (1, ⟨.intervened, 0⟩)] ∧
    updateAll (α := Float) [.replaceAll .observed (.ofList [(0, 1)]),
      .replaceAll .intervened (.ofList [(1, 0)])] e = .ok () { e with findings := new } ∧
    updateAll (α := Float) [.reset, .record .intervened 1 0, .record .observed 0 1] e =
      .ok () { e with findings := new } ∧
    updateInPlace (α := Float) (.replaceEverything e.observations e.interventions) e = .ok 0 e ∧
    ∃ e', updateInPlace (α := Float) (.addAll .observed (.ofList [(0, 1)])) e = .ok 1 e' ∧
      updateInPlace (α := Float) (.addAll .observed (.ofList [(0, 1)])) e' = .ok 0 e' := by
  let forced : Evidence := { lamps.evidence with findings := .ofList [(0, ⟨.intervened, 0⟩)] }
  have hreached : Reached lamps forced := .update .new (.record .intervened 0 0)
  have hone {v s w t : Nat} (h : (VarMap.ofList [(v, s)]).get? w = some t) : w = v ∧ t = s := by
    rw [VarMap.get?_ofList (by simp), VarMap.lookup_cons_eq] at h
    by_cases hw : w = v <;> simp_all
  have hfits : forced.Fits (.replaceEverything (.ofList [(0, 1)]) (.ofList [(1, 0)])) := by
    refine ⟨fun v s h => ?_, fun v s h => ?_, fun v => ?_⟩
    · obtain ⟨rfl, rfl⟩ := hone h
      exact ⟨_, rfl, by decide⟩
    · obtain ⟨rfl, rfl⟩ := hone h
      exact ⟨_, rfl, by decide⟩
    · simp only [VarMap.get?_ofList, List.map_cons, List.map_nil, List.nodup_singleton,
        VarMap.lookup_cons_eq]
      by_cases hv : v = 0
      · exact .inr (by simp [hv])
      · exact .inl (by simp [hv])
  obtain ⟨hways, hown, hagain⟩ := Reached.bulk_agrees hreached
  obtain ⟨hways, horders⟩ := hways rfl _ _ hfits
  refine ⟨forced, hreached, rfl, rfl, rfl, hways _ (by simp [ways]), ?_, hown, _, rfl,
    (hagain _).2 1 _ rfl⟩
  exact horders [(1, ⟨.intervened, 0⟩), (0, ⟨.observed, 1⟩)] (.swap _ _ _)

end Bayes.Evidence
