import Bayes.Proofs.Network.Edges
/-!
The three rounds in which declarations are worked off. The first adds all variables, the second all
edges, the third all tables. A name keeps its place from the first round on, so the second round is a
list of edges between places, and in the third every declaration has a table of its own.
-/
namespace Bayes

section Folds

variable {ε β γ σ : Type} {step step' : σ → β → Except ε σ} {s s' : σ} {l : List β} (P : σ → Prop)

theorem foldlM_flatMap {f : γ → List β} (l : List γ) (s : σ) :
    (l.flatMap f).foldlM step s = l.foldlM (fun s c => (f c).foldlM step s) s := by
  induction l generalizing s with
  | nil => rfl
  | cons c l ih =>
    rw [List.flatMap_cons, List.foldlM_append, List.foldlM_cons]
    simp only [ih]

theorem foldlM_progress (Q : Nat → σ → Prop)
    (hstep : ∀ i b s, l[i]? = some b → Q i s → ∃ s', step s b = .ok s' ∧ Q (i + 1) s') (hs : Q 0 s) :
    ∃ s', l.foldlM step s = .ok s' ∧ Q l.length s' := by
  induction l generalizing s Q with
  | nil => exact ⟨s, rfl, hs⟩
  | cons b l ih =>
    obtain ⟨s₁, h₁, hs₁⟩ := hstep 0 b s rfl hs
    obtain ⟨s', h, hs'⟩ := ih (fun i => Q (i + 1)) (fun i d s hi => hstep (i + 1) d s hi) hs₁
    exact ⟨s', bind_eq_ok.2 ⟨s₁, h₁, h⟩, hs'⟩

theorem foldlM_range_progress {count : Nat} {step : σ → Nat → Except ε σ} (Q : Nat → σ → Prop)
    (hstep : ∀ i < count, ∀ s, Q i s → ∃ s', step s i = .ok s' ∧ Q (i + 1) s') (hs : Q 0 s) :
    ∃ s', (List.range count).foldlM step s = .ok s' ∧ Q count s' := by
  have hrange : ∀ i b s, (List.range count)[i]? = some b → Q i s →
      ∃ s', step s b = .ok s' ∧ Q (i + 1) s' := by
    intro i b s hi hs
    obtain ⟨hlt, rfl⟩ := List.getElem?_eq_some_iff.1 hi
    rw [List.length_range] at hlt
    rw [List.getElem_range]
    exact hstep i hlt s hs
  have h := foldlM_progress Q hrange hs
  rwa [List.length_range] at h

theorem foldlM_eq_ok_congr (hkeeps : ∀ s b s', P s → step s b = .ok s' → P s')
    (hsame : ∀ s, P s → ∀ b ∈ l, ∀ s', step s b = .ok s' ↔ step' s b = .ok s') (hs : P s) :
    l.foldlM step s = .ok s' ↔ l.foldlM step' s = .ok s' := by
  induction l generalizing s with
  | nil => exact Iff.rfl
  | cons b l ih =>
    have hfirst := hsame s hs b List.mem_cons_self
    have hrest (s₁ : σ) (h₁ : step s b = .ok s₁) :=
      ih (fun s hs b hb => hsame s hs b (List.mem_cons_of_mem _ hb)) (hkeeps s b s₁ hs h₁)
    rw [List.foldlM_cons, List.foldlM_cons, bind_eq_ok, bind_eq_ok]
    constructor
    · rintro ⟨s₁, h₁, h⟩
      exact ⟨s₁, (hfirst s₁).1 h₁, (hrest s₁ h₁).1 h⟩
    · rintro ⟨s₁, h₁, h⟩
      have h₁ := (hfirst s₁).2 h₁
      exact ⟨s₁, h₁, (hrest s₁ h₁).2 h⟩

theorem foldlM_isOk_iff (hkeeps : ∀ s b s', P s → step s b = .ok s' → P s') {Q : β → Prop}
    (hstep : ∀ s, P s → ∀ b ∈ l, (∃ s', step s b = .ok s') ↔ Q b) (hs : P s) :
    (∃ s', l.foldlM step s = .ok s') ↔ ∀ b ∈ l, Q b := by
  induction l generalizing s with
  | nil => simp [pure, Except.pure]
  | cons b l ih =>
    have hfirst := hstep s hs b List.mem_cons_self
    have hrest (s₁ : σ) (h₁ : step s b = .ok s₁) :=
      ih (fun s hs b hb => hstep s hs b (List.mem_cons_of_mem _ hb)) (hkeeps s b s₁ hs h₁)
    rw [List.forall_mem_cons, ← hfirst]
    constructor
    · rintro ⟨s', h⟩
      obtain ⟨s₁, h₁, h⟩ := bind_eq_ok.1 h
      exact ⟨⟨s₁, h₁⟩, (hrest s₁ h₁).1 ⟨s', h⟩⟩
    · rintro ⟨⟨s₁, h₁⟩, hl⟩
      obtain ⟨s', h⟩ := (hrest s₁ h₁).2 hl
      exact ⟨s', bind_eq_ok.2 ⟨s₁, h₁, h⟩⟩

/-- Where every step works on a place of its own, that place holds at the end what its step has left. -/
theorem foldlM_places (place : β → Nat) (part : σ → Nat → γ) (R : β → γ → γ → Prop)
    (hkeeps : ∀ s b s', P s → step s b = .ok s' → P s')
    (hstep : ∀ s, P s → ∀ b ∈ l, ∀ s', step s b = .ok s' →
      R b (part s (place b)) (part s' (place b)) ∧ ∀ w, w ≠ place b → part s' w = part s w)
    (hplaces : (l.map place).Nodup) (hs : P s) (h : l.foldlM step s = .ok s') :
    (∀ b ∈ l, R b (part s (place b)) (part s' (place b))) ∧
      ∀ w, w ∉ l.map place → part s' w = part s w := by
  induction l generalizing s with
  | nil =>
    cases h
    simp
  | cons b l ih =>
    obtain ⟨s₁, h₁, h⟩ := bind_eq_ok.1 h
    obtain ⟨hb, hl⟩ := List.nodup_cons.1 hplaces
    obtain ⟨hfirst, hothers⟩ := hstep s hs b List.mem_cons_self s₁ h₁
    obtain ⟨hrest, hleft⟩ := ih (fun s hs b hb => hstep s hs b (List.mem_cons_of_mem _ hb)) hl
      (hkeeps s b s₁ hs h₁) h
    -- later steps leave the first place alone, and the first step leaves theirs
    refine ⟨List.forall_mem_cons.2 ⟨hleft _ hb ▸ hfirst, fun d hd => ?_⟩, fun w hw => ?_⟩
    · have hne : place d ≠ place b := fun heq => hb (heq ▸ List.mem_map_of_mem hd)
      exact hothers _ hne ▸ hrest d hd
    · rw [List.map_cons, List.mem_cons, not_or] at hw
      rw [hleft w hw.2, hothers w hw.1]

end Folds

@[simps]
def Declaration.toVariable {α : Type} (d : Declaration α) : Variable := ⟨d.name, d.states⟩

namespace Network

variable {α : Type} {n n' : Network α} {d : Declaration α} {ds : List (Declaration α)} {name : String}
  {v : Nat}

def edgesOf (names : List String) (d : Declaration α) : List (Nat × Nat) :=
  d.parents.map fun p => (names.idxOf p, names.idxOf d.name)

variable [Scalar α]

/-! Variables -/

def fresh (d : Declaration α) : Node α :=
  ⟨d.toVariable, [], [], uniform [d.states.length]⟩

theorem declareVariable_eq_ok : n.declareVariable d = .ok n' ↔ d.name ∉ n.names ∧
    2 ≤ d.states.length ∧ d.states.Nodup ∧ n' = ⟨n.nodes.push (fresh d)⟩ := by
  rw [← length_eraseDups_eq_iff, names, ← idOf?_eq_none]
  constructor
  · exact addVariable_eq
  · rintro ⟨hname, hcount, hdistinct, rfl⟩
    exact addVariable_of_new hname hcount hdistinct

theorem declareVariables_eq_ok (h : n.Named) : ds.foldlM declareVariable n = .ok n' ↔
    (n.names ++ ds.map (·.name)).Nodup ∧ (∀ d ∈ ds, 2 ≤ d.states.length ∧ d.states.Nodup) ∧
      n' = ⟨n.nodes ++ (ds.map fresh).toArray⟩ := by
  induction ds generalizing n with
  | nil =>
    have hnames : n.names.Nodup := h
    simp [hnames, pure, Except.pure, eq_comm]
  | cons d ds ih =>
    let m : Network α := ⟨n.nodes.push (fresh d)⟩
    have hnodup : (n.names ++ (d :: ds).map (·.name)).Nodup ↔ (m.names ++ ds.map (·.name)).Nodup := by
      have hnames : m.names = n.names ++ [d.name] := by
        rw [names, vars_push, List.map_append]
        rfl
      rw [hnames, List.append_assoc, List.singleton_append, List.map_cons]
    have hnodes : (⟨n.nodes ++ ((d :: ds).map fresh).toArray⟩ : Network α) =
        ⟨m.nodes ++ (ds.map fresh).toArray⟩ := by
      simp [m]
    rw [List.foldlM_cons, bind_eq_ok, hnodup, hnodes, List.forall_mem_cons]
    constructor
    · rintro ⟨m', hm, hrest⟩
      have hnamed := h.edit (u := .addVariable d.name d.states) hm
      obtain ⟨-, hcount, hdistinct, rfl⟩ := declareVariable_eq_ok.1 hm
      obtain ⟨hnames, hstates, rfl⟩ := (ih hnamed).1 hrest
      exact ⟨hnames, ⟨⟨hcount, hdistinct⟩, hstates⟩, rfl⟩
    · rintro ⟨hnames, ⟨⟨hcount, hdistinct⟩, hstates⟩, rfl⟩
      have hname : d.name ∉ n.names := fun hmem =>
        (List.nodup_append.1 (hnodup.2 hnames)).2.2 _ hmem _ List.mem_cons_self rfl
      have hm : n.declareVariable d = .ok m := declareVariable_eq_ok.2 ⟨hname, hcount, hdistinct, rfl⟩
      have hnamed := h.edit (u := .addVariable d.name d.states) hm
      exact ⟨m, hm, (ih hnamed).2 ⟨hnames, hstates, rfl⟩⟩

def declared (ds : List (Declaration α)) : Network α := ⟨(ds.map fresh).toArray⟩

theorem node?_declared (ds : List (Declaration α)) (v : Nat) :
    (declared ds).node? v = ds[v]?.map fresh := by
  simp [declared, node?]

theorem vars_declared (ds : List (Declaration α)) :
    (declared ds).vars = ds.map (·.toVariable) := by
  simp [vars, declared, fresh]

theorem names_declared (ds : List (Declaration α)) : (declared ds).names = ds.map (·.name) := by
  simp [names, vars_declared]

theorem parents_declared (ds : List (Declaration α)) (v : Nat) : (declared ds).parents v = [] := by
  rw [parents, node?_declared]
  cases ds[v]? <;> rfl

theorem blank_declared (ds : List (Declaration α)) : (declared ds).Blank := by
  intro v hv
  obtain ⟨node, hnode⟩ := Option.isSome_iff_exists.1 (node?_isSome.2 hv)
  obtain ⟨d, -, rfl⟩ := Option.map_eq_some_iff.1 (node?_declared ds v ▸ hnode)
  simp [table, tableShape, hnode, fresh, Variable.cardinality]

theorem declareVariables_empty : ds.foldlM declareVariable empty = .ok n' ↔
    (ds.map (·.name)).Nodup ∧ (∀ d ∈ ds, 2 ≤ d.states.length ∧ d.states.Nodup) ∧ n' = declared ds := by
  have hempty : (empty : Network α).Named := List.nodup_nil
  have hnone : (empty : Network α).names = [] := rfl
  rw [declareVariables_eq_ok hempty, hnone, List.nil_append, declared, empty, Array.empty_append]

/-! Edges -/

theorem addParent_eq_ok {c : Nat} : addParent c n name = .ok n' ↔
    n.addEdge (n.names.idxOf name) c = .ok n' := by
  rw [addParent, bind_eq_ok]
  constructor
  · rintro ⟨p, hp, hok⟩
    obtain ⟨-, rfl⟩ := lookupName_eq_ok.1 hp
    exact hok
  · intro hok
    refine ⟨_, lookupName_eq_ok.2 ⟨?_, rfl⟩, hok⟩
    by_contra hnot
    have hnone : n.node? (n.names.idxOf name) = none := by
      rw [List.idxOf_of_notMem hnot, length_names]
      exact Array.getElem?_eq_none le_rfl
    simp [addEdge, lookup, hnone] at hok

theorem names_addEdge {p c : Nat} (hok : n.addEdge p c = .ok n') : n'.names = n.names :=
  names_of_vars_eq (vars_addEdge hok)

theorem declareParents_eq_ok : n.declareParents d = .ok n' ↔
    d.name ∈ n.names ∧ addEdges (edgesOf n.names d) n = .ok n' := by
  have hfold : d.parents.foldlM (addParent (n.names.idxOf d.name)) n = .ok n' ↔
      addEdges (edgesOf n.names d) n = .ok n' := by
    rw [addEdges, edgesOf, List.foldlM_map]
    refine foldlM_eq_ok_congr (fun m => m.names = n.names) (fun m p m' hm hok => ?_)
      (fun m hm p _ m' => ?_) rfl
    · exact (names_addEdge (addParent_eq_ok.1 hok)).trans hm
    · rw [addParent_eq_ok, hm]
  rw [declareParents, bind_eq_ok, ← hfold]
  simp only [lookupName_eq_ok]
  constructor
  · rintro ⟨_, ⟨hname, rfl⟩, hok⟩
    exact ⟨hname, hok⟩
  · rintro ⟨hname, hok⟩
    exact ⟨_, ⟨hname, rfl⟩, hok⟩

theorem names_declareParents (hok : n.declareParents d = .ok n') : n'.names = n.names :=
  names_of_vars_eq (vars_addEdges (declareParents_eq_ok.1 hok).2)

theorem declareAllParents_eq_ok (h : ∀ d ∈ ds, d.name ∈ n.names) :
    ds.foldlM declareParents n = .ok n' ↔ addEdges (ds.flatMap (edgesOf n.names)) n = .ok n' := by
  rw [addEdges, foldlM_flatMap]
  refine foldlM_eq_ok_congr (fun m => m.names = n.names)
    (fun m d m' hm hok => (names_declareParents hok).trans hm) (fun m hm d hd m' => ?_) rfl
  rw [declareParents_eq_ok, hm]
  exact and_iff_right (h d hd)

theorem parents_declareParents (h : ∀ v, (n.parents v).Nodup) (hok : n.declareParents d = .ok n')
    (w : Nat) : n'.parents w = if w = n.names.idxOf d.name
      then (n.parents w ++ d.parents.map n.names.idxOf).eraseDups else n.parents w := by
  rw [parents_addEdges h (declareParents_eq_ok.1 hok).2 w, edgesOf, List.filter_map]
  split
  · next hw => simp [hw, Function.comp_def]
  · next hw =>
    have hne : (n.names.idxOf d.name == w) = false := beq_false_of_ne (Ne.symm hw)
    simp [hne, Function.comp_def, eraseDups_eq_self (h w)]

theorem Coherent.nodup_places (h : n.Coherent) (hn : n.names = ds.map (·.name)) :
    (ds.map fun d => n.names.idxOf d.name).Nodup := by
  have hplaces := nodup_map_idxOf (l := n.names) h.named
  rwa [hn, List.map_map, ← hn] at hplaces

theorem parents_declareAllParents (h : n.Coherent) (hn : n.names = ds.map (·.name))
    (hok : ds.foldlM declareParents n = .ok n') : ∀ d ∈ ds, n'.parents (n.names.idxOf d.name) =
      (n.parents (n.names.idxOf d.name) ++ d.parents.map n.names.idxOf).eraseDups := by
  refine (foldlM_places (fun m => m.names = n.names ∧ ∀ v, (m.parents v).Nodup)
    (fun d => n.names.idxOf d.name) parents
    (fun d old new => new = (old ++ d.parents.map n.names.idxOf).eraseDups)
    (fun m d m' hm hok => ?_) (fun m hm d _ m' hok => ?_) (h.nodup_places hn)
    ⟨rfl, h.nodup_parents⟩ hok).1
  · refine ⟨(names_declareParents hok).trans hm.1, fun v => ?_⟩
    rw [parents_declareParents hm.2 hok]
    split
    · exact nodup_eraseDups _
    · exact hm.2 v
  · have hparents := parents_declareParents hm.2 hok
    rw [hm.1] at hparents
    exact ⟨(hparents _).trans (if_pos rfl), fun w hw => (hparents w).trans (if_neg hw)⟩

/-! Tables -/

theorem takes_congr {m : Network α} {t : Table α} (hvars : m.vars = n.vars)
    (hparents : m.parents = n.parents) : m.Takes v t ↔ n.Takes v t := by
  rw [takes_iff, takes_iff, size_of_vars_eq hvars]
  refine and_congr_right fun hv => ?_
  rw [tableShape_congr hvars hparents hv]

theorem declareValues_eq_ok : n.declareValues d = .ok n' ↔ d.values = none ∧ n' = n ∨
    d.name ∈ n.names ∧ ∃ t, d.values = some t.toList ∧ n.Takes (n.names.idxOf d.name) t ∧
      n' = n.withTable (n.names.idxOf d.name) t := by
  rw [declareValues]
  cases hvalues : d.values with
  | none => simp [eq_comm]
  | some values =>
    simp only [bind_eq_ok, lookupName_eq_ok, reduceCtorEq, false_and, false_or, Option.some.injEq]
    constructor
    · rintro ⟨_, ⟨hname, rfl⟩, hok⟩
      obtain ⟨t, rfl, ht⟩ := setValues_eq hok
      exact ⟨hname, t, rfl, ht⟩
    · rintro ⟨hname, t, rfl, ht, rfl⟩
      exact ⟨_, ⟨hname, rfl⟩, setValues_of_takes ht⟩

theorem declareValues_keeps (hok : n.declareValues d = .ok n') :
    n'.vars = n.vars ∧ n'.parents = n.parents := by
  obtain ⟨-, rfl⟩ | ⟨-, t, -, -, rfl⟩ := declareValues_eq_ok.1 hok
  · exact ⟨rfl, rfl⟩
  · exact ⟨vars_withTable n _ t, parents_withTable n _ t⟩

theorem declareAllValues_keeps (hok : ds.foldlM declareValues n = .ok n') :
    n'.vars = n.vars ∧ n'.parents = n.parents := by
  refine foldlM_invariant (fun m => m.vars = n.vars ∧ m.parents = n.parents)
    (fun m d m' hm hok => ?_) ds n n' ⟨rfl, rfl⟩ hok
  obtain ⟨hvars, hparents⟩ := declareValues_keeps hok
  exact ⟨hvars.trans hm.1, hparents.trans hm.2⟩

/-- What is given can be set or not, whatever was set before. -/
theorem declareAllValues_isOk (hn : n.names = ds.map (·.name)) :
    (∃ n', ds.foldlM declareValues n = .ok n') ↔ ∀ d ∈ ds, ∀ values, d.values = some values →
      ∃ t : Table α, t.toList = values ∧ n.Takes (n.names.idxOf d.name) t := by
  refine foldlM_isOk_iff (fun m => m.vars = n.vars ∧ m.parents = n.parents)
    (fun m d m' hm hok => ?_) (fun m hm d hd => ?_) ⟨rfl, rfl⟩
  · obtain ⟨hvars, hparents⟩ := declareValues_keeps hok
    exact ⟨hvars.trans hm.1, hparents.trans hm.2⟩
  · have hname : d.name ∈ n.names := hn ▸ List.mem_map_of_mem hd
    simp only [declareValues_eq_ok, names_of_vars_eq hm.1, takes_congr hm.1 hm.2]
    cases d.values with
    | none => simp
    | some values =>
      constructor
      · rintro ⟨_, ⟨hnone, -⟩ | ⟨-, t, ht, htakes, -⟩⟩ _ ⟨⟩
        · cases hnone
        · exact ⟨t, (Option.some.inj ht).symm, htakes⟩
      · intro h
        obtain ⟨t, rfl, htakes⟩ := h values rfl
        exact ⟨_, Or.inr ⟨hname, t, rfl, htakes, rfl⟩⟩

theorem table_declareAllValues (h : n.Coherent) (hn : n.names = ds.map (·.name))
    (hok : ds.foldlM declareValues n = .ok n') : ∀ d ∈ ds,
      (d.values = none → n'.table (n.names.idxOf d.name) = n.table (n.names.idxOf d.name)) ∧
      ∀ values, d.values = some values → (n'.table (n.names.idxOf d.name)).toList = values := by
  refine (foldlM_places (fun m => m.names = n.names) (fun d => n.names.idxOf d.name) table
    (fun d old new => (d.values = none → new = old) ∧ ∀ values, d.values = some values →
      new.toList = values) (fun m d m' hm hok => ?_) (fun m hm d _ m' hok => ?_)
    (h.nodup_places hn) rfl hok).1
  · exact (names_of_vars_eq (declareValues_keeps hok).1).trans hm
  · obtain ⟨hnone, rfl⟩ | ⟨-, t, hvalues, ht, rfl⟩ := declareValues_eq_ok.1 hok
    · simp [hnone]
    · have htable := table_withTable m ht.lt t
      rw [hm] at htable ⊢
      exact ⟨⟨by simp [hvalues], by simp [hvalues, htable]⟩, fun w hw => by simp [htable, hw]⟩

end Network
end Bayes
