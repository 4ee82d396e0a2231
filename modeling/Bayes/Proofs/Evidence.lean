import Bayes.Evidence
import Bayes.Proofs.Network
import Bayes.Proofs.VarMap
/-!
Every valid set of findings can be given at once: the observations and the interventions among them are
accepted together, and leave exactly these findings.
-/
namespace Bayes

theorem forM_eq_ok {ε β : Type} {f : β → Except ε Unit} {l : List β} (h : ∀ b ∈ l, f b = .ok ()) :
    l.forM f = .ok () := by
  induction l with
  | nil => rfl
  | cons b l ih =>
    obtain ⟨hb, hl⟩ := List.forall_mem_cons.1 h
    change (f b >>= fun _ => l.forM f) = .ok ()
    rw [hb]
    exact ih hl

theorem foldl_snd {β γ σ : Type} {step : γ × σ → β → γ × σ} {next : σ → β → σ}
    (h : ∀ s b, (step s b).2 = next s.2 b) (l : List β) :
    ∀ s, (l.foldl step s).2 = l.foldl next s.2 := by
  induction l with
  | nil =>
    intro s
    rfl
  | cons b l ih =>
    intro s
    rw [List.foldl_cons, ih, h, List.foldl_cons]

/-- The findings are about variables of the network and name states that these have. -/
def Network.Admits {α : Type} (n : Network α) (found : Findings) : Prop :=
  ∀ v f, found.get? v = some f → v < n.size ∧ f.state < n.cardinality v

theorem Network.admits_empty {α : Type} {n : Network α} : n.Admits .empty := fun v f hf => by
  simp [VarMap.get?_empty] at hf

theorem Network.admits_insert {α : Type} {n : Network α} {found : Findings} {v state : Nat} {kind : Kind}
    (h : n.Admits found) (hv : v < n.size) (hstate : state < n.cardinality v) :
    n.Admits (found.insert v ⟨kind, state⟩) := by
  intro w f hf
  rw [VarMap.get?_insert] at hf
  split at hf
  · next hw =>
    obtain rfl := Option.some.inj hf
    exact hw ▸ ⟨hv, hstate⟩
  · exact h w f hf

def Findings.ofKind (found : Findings) (kind : Kind) : VarMap Nat :=
  found.filterMap fun f => if f.kind = kind then some f.state else none

namespace Findings

variable {found : Findings} {kind : Kind} {v s : Nat}

theorem get?_ofKind : (Findings.ofKind found kind).get? v = some s ↔ found.get? v = some ⟨kind, s⟩ := by
  rw [ofKind, VarMap.get?_filterMap, Option.bind_eq_some_iff]
  constructor
  · rintro ⟨⟨k, i⟩, hf, hs⟩
    by_cases hk : k = kind
    · simp only [hk, if_true, Option.some.injEq] at hs
      rw [hf, hk, hs]
    · simp [hk] at hs
  · intro hf
    exact ⟨_, hf, by simp⟩

end Findings

namespace Evidence

variable {α : Type} {n : Network α} {found findings : Findings} {kind : Kind} {v : Nat}

theorem putAll_snd (states : VarMap Nat) : (putAll kind states findings).2 =
    states.entries.foldl (fun m e => m.insert e.1 ⟨kind, e.2⟩) findings :=
  foldl_snd (fun _ _ => rfl) states.entries (0, findings)

theorem get?_putAll (states : VarMap Nat) (v : Nat) : (putAll kind states findings).2.get? v =
    ((states.get? v).map (Finding.mk kind)).or (findings.get? v) := by
  have hnodup : states.keys.Nodup := states.increasing_keys.imp Nat.ne_of_lt
  rw [putAll_snd, VarMap.get?_foldl_insert (Finding.mk kind) _ hnodup]
  rfl

theorem get?_both_eq (o i : VarMap Nat) (v : Nat) : (both o i).get? v =
    ((i.get? v).map (Finding.mk .intervened)).or ((o.get? v).map (Finding.mk .observed)) := by
  rw [both, get?_putAll, get?_putAll, VarMap.get?_empty, Option.or_none]

theorem both_ofKind (found : Findings) :
    both (Findings.ofKind found .observed) (Findings.ofKind found .intervened) = found := by
  refine VarMap.ext_get? fun v => ?_
  rw [get?_both_eq]
  have hobserved (s : Nat) : (Findings.ofKind found .observed).get? v = some s ↔
      found.get? v = some ⟨.observed, s⟩ := Findings.get?_ofKind
  have hforced (s : Nat) : (Findings.ofKind found .intervened).get? v = some s ↔
      found.get? v = some ⟨.intervened, s⟩ := Findings.get?_ofKind
  cases hf : found.get? v with
  | none =>
    have ho : (Findings.ofKind found .observed).get? v = none := by
      refine Option.eq_none_iff_forall_ne_some.2 fun s hs => ?_
      simpa [hf] using (hobserved s).1 hs
    have hi : (Findings.ofKind found .intervened).get? v = none := by
      refine Option.eq_none_iff_forall_ne_some.2 fun s hs => ?_
      simpa [hf] using (hforced s).1 hs
    rw [ho, hi]
    rfl
  | some finding =>
    obtain ⟨kind, s⟩ := finding
    cases kind with
    | observed =>
      have hi : (Findings.ofKind found .intervened).get? v = none := by
        refine Option.eq_none_iff_forall_ne_some.2 fun s hs => ?_
        simpa [hf] using (hforced s).1 hs
      rw [hi, (hobserved s).2 hf]
      rfl
    | intervened =>
      rw [(hforced s).2 hf]
      rfl

theorem checkAll_ok {e : Evidence} (hvars : e.vars = n.vars) {states : VarMap Nat}
    (h : ∀ v s, states.get? v = some s → v < n.size ∧ s < n.cardinality v) :
    e.checkAll (α := α) states = .ok () := by
  refine forM_eq_ok fun entry hentry => ?_
  obtain ⟨v, s⟩ := entry
  obtain ⟨hv, hs⟩ := h v s (VarMap.mem_entries.1 hentry)
  obtain ⟨x, hx, hcard⟩ := Network.vars_of_lt hv
  have hlt : s < x.cardinality := hcard ▸ hs
  simp [checkState, checkVariable, hvars, hx, hlt, bind, Except.bind, pure, Except.pure]

theorem replaceEverything_ok {e : Evidence} (hvars : e.vars = n.vars) (hfrozen : e.frozen = false)
    (hfound : n.Admits found) :
    e.replaceEverything (α := α) (Findings.ofKind found .observed) (Findings.ofKind found .intervened) =
      .ok (replaced e.findings found, { e with findings := found }) := by
  have hvalid (kind : Kind) : e.checkAll (α := α) (Findings.ofKind found kind) = .ok () :=
    checkAll_ok hvars fun v s hs => hfound v _ (Findings.get?_ofKind.1 hs)
  have hconflict : (Findings.ofKind found .observed).keys.find?
      (Findings.ofKind found .intervened).contains = none := by
    refine List.find?_eq_none.2 fun v hv hcontains => ?_
    obtain ⟨s, hs⟩ := VarMap.mem_keys.1 hv
    obtain ⟨s', hs'⟩ := VarMap.contains_iff.1 hcontains
    have heq := (Findings.get?_ofKind.1 hs).symm.trans (Findings.get?_ofKind.1 hs')
    simp at heq
  simp [replaceEverything, checkMutable, hfrozen, hvalid, hconflict, both_ofKind, withFindings, bind,
    Except.bind, pure, Except.pure]

end Evidence
end Bayes
