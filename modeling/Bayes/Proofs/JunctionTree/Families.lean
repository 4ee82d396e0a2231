import Bayes.Proofs.Call
import Bayes.Proofs.Compiled
/-!
Which clique holds what. The cliques of a variable are written down clique by clique; the smallest of them
is its home, and the smallest that has its parents, too, holds its conditional table. The new lists are
filled on the side and handed to the tree when every variable has its place, so what fails leaves
everything as it was, what was assigned earlier included.
-/
namespace Bayes.JunctionTree

variable {α : Type} {n : Network α} {t t' : JunctionTree} {b c v : Nat} {cs : List Nat}

/-! The first of the smallest cliques -/

/-- A clique is smaller than another one, or as large and not above it. -/
def Precedes (t : JunctionTree) (c d : Nat) : Prop :=
  (t.clique c).length < (t.clique d).length ∨
    (t.clique c).length = (t.clique d).length ∧ c ≤ d

def IsFirst (t : JunctionTree) (P : Nat → Prop) (c : Nat) : Prop :=
  c < t.size ∧ P c ∧ ∀ d < t.size, P d → t.Precedes c d

def Covers (t : JunctionTree) (n : Network α) (v c : Nat) : Prop :=
  v ∈ t.clique c ∧ ∀ p ∈ n.parents v, p ∈ t.clique c

theorem Precedes.refl (t : JunctionTree) (c : Nat) : t.Precedes c c := Or.inr ⟨rfl, le_rfl⟩

theorem Precedes.trans {d : Nat} (h : t.Precedes b c) (h' : t.Precedes c d) : t.Precedes b d := by
  unfold Precedes at *
  omega

theorem Precedes.antisymm (h : t.Precedes b c) (h' : t.Precedes c b) : b = c := by
  unfold Precedes at *
  omega

theorem smallest?_first (h : Scope.Increasing cs) (hc : t.smallest? cs = some c) :
    ∀ d ∈ cs, t.Precedes c d := by
  cases cs with
  | nil => simp
  | cons b cs =>
    rw [smallest?, List.foldl_cons] at hc
    simp only at hc
    induction cs generalizing b with
    | nil =>
      cases hc
      exact List.forall_mem_singleton.2 (.refl t c)
    | cons a cs ih =>
      obtain ⟨hb, hcs⟩ := List.pairwise_cons.1 h
      have hba := hb a List.mem_cons_self
      rw [List.foldl_cons] at hc
      simp only at hc
      split at hc
      · next hlt =>
        have hall := ih a hcs hc
        have hab : t.Precedes a b := Or.inl hlt
        exact List.forall_mem_cons.2 ⟨(hall a List.mem_cons_self).trans hab, hall⟩
      · next hle =>
        have hrest : Scope.Increasing (b :: cs) :=
          List.pairwise_cons.2 ⟨fun d hd => hb d (List.mem_cons_of_mem a hd), (List.pairwise_cons.1 hcs).2⟩
        have hall := ih b hrest hc
        obtain ⟨hcb, hall⟩ := List.forall_mem_cons.1 hall
        have hab : t.Precedes b a := by
          unfold Precedes
          omega
        exact List.forall_mem_cons.2 ⟨hcb, List.forall_mem_cons.2 ⟨hcb.trans hab, hall⟩⟩

theorem smallest?_eq_some_iff (h : Scope.Increasing cs) :
    t.smallest? cs = some c ↔ c ∈ cs ∧ ∀ d ∈ cs, t.Precedes c d := by
  refine ⟨fun hc => ⟨smallest?_mem hc, smallest?_first h hc⟩, fun ⟨hc, hall⟩ => ?_⟩
  obtain ⟨d, hd⟩ := t.smallest?_isSome (List.ne_nil_of_mem hc)
  rw [hd, (smallest?_first h hd c hc).antisymm (hall d (smallest?_mem hd))]

theorem increasing_containing (t : JunctionTree) (v : Nat) : Scope.Increasing (t.containing v) :=
  Scope.Increasing.filter List.pairwise_lt_range _

theorem home?_eq_some_iff : t.home? v = some c ↔ t.IsFirst (v ∈ t.clique ·) c := by
  rw [home?, smallest?_eq_some_iff (t.increasing_containing v)]
  simp only [mem_containing, IsFirst, and_assoc, and_imp]

theorem home?_eq_none_iff : t.home? v = none ↔ ∀ c < t.size, v ∉ t.clique c := by
  constructor
  · intro h c hc hv
    obtain ⟨d, -, hd, -⟩ := home?_spec hv
    simp [h] at hd
  · intro h
    cases hd : t.home? v with
    | none => rfl
    | some d =>
      obtain ⟨hd, hv, -⟩ := home?_eq_some_iff.1 hd
      exact absurd hv (h d hd)

theorem mem_covering_family : c ∈ t.covering (n.family v) v ↔ c < t.size ∧ t.Covers n v c := by
  rw [mem_covering, Covers]
  simp only [Network.family, Scope.mem_ofList, List.mem_cons, forall_eq_or_imp]
  tauto

theorem increasing_covering (t : JunctionTree) (family : List Nat) (v : Nat) :
    Scope.Increasing (t.covering family v) :=
  (t.increasing_containing v).filter _

theorem familyOf_eq_ok_iff : t.familyOf n v = .ok c ↔ t.IsFirst (t.Covers n v) c := by
  rw [familyOf_eq_ok, smallest?_eq_some_iff (t.increasing_covering _ v)]
  simp only [mem_covering_family, IsFirst, and_assoc, and_imp]

theorem familyOf_isOk : (∃ c, t.familyOf n v = .ok c) ↔ ∃ c < t.size, t.Covers n v c := by
  constructor
  · rintro ⟨c, hc⟩
    obtain ⟨hlt, hcovers, -⟩ := familyOf_eq_ok_iff.1 hc
    exact ⟨c, hlt, hcovers⟩
  · rintro ⟨c, hc⟩
    obtain ⟨d, hd⟩ := t.smallest?_isSome (List.ne_nil_of_mem (mem_covering_family.2 hc))
    exact ⟨d, familyOf_eq_ok.2 hd⟩

theorem settleFamilies_isOk : (∃ t', t.settleFamilies n = .ok t') ↔
    ∀ v < n.size, ∃ c < t.size, t.Covers n v c := by
  constructor
  · rintro ⟨t', h⟩ v hv
    obtain ⟨families, rfl, -, hall⟩ := settleFamilies_eq_ok h
    obtain ⟨c, -, hc⟩ := hall v hv
    exact familyOf_isOk.1 ⟨c, hc⟩
  · intro h
    obtain ⟨families, hfamilies⟩ := mapM_isOk n.ids fun v hv =>
      familyOf_isOk.2 (h v (Network.mem_ids.1 hv))
    exact ⟨{ t with families }, by rw [settleFamilies, hfamilies]; rfl⟩

/-! Lists of its own -/

/-- What a tree keeps in lists: under every variable its cliques, its home and the clique of its family,
and under every clique the variables assigned to it. -/
structure Directory where
  cliques : Array (List Nat)
  containing : Array (List Nat)
  homes : Array (Option Nat)
  families : Array (Option Nat)
  assigned : Array (List Nat)

def bound (cliques : Array (List Nat)) : Nat :=
  (cliques.toList.flatten.map (· + 1)).max?.getD 0

def file (lists : Array (List Nat)) (e : Nat × Nat) : Array (List Nat) :=
  lists.modify e.1 (· ++ [e.2])

def enter (lists : Array (List Nat)) (clique : List Nat × Nat) : Array (List Nat) :=
  (clique.1.map (·, clique.2)).foldl file lists

def listed (cliques : Array (List Nat)) : Array (List Nat) :=
  cliques.toList.zipIdx.foldl enter (Array.replicate (bound cliques) [])

def first? (cliques : Array (List Nat)) (cs : List Nat) : Option Nat :=
  let size (c : Nat) := (cliques[c]?.getD []).length
  cs.foldl (fun best c =>
    match best with
    | none => some c
    | some b => if size c < size b ∨ size c = size b ∧ c < b then some c else some b) none

namespace Directory

def ofCliques (cliques : Array (List Nat)) : Directory where
  cliques
  containing := listed cliques
  homes := (listed cliques).map (first? cliques)
  families := #[]
  assigned := #[]

variable (d : Directory)

def containingOf (v : Nat) : List Nat := d.containing[v]?.getD []

def home? (v : Nat) : Option Nat := d.homes[v]?.join

def family? (v : Nat) : Option Nat := d.families[v]?.join

def assignedTo (c : Nat) : List Nat := d.assigned[c]?.getD []

def place (n : Network α) (lists : Array (Option Nat) × Array (List Nat)) (v : Nat) :
    Except (Error α) (Array (Option Nat) × Array (List Nat)) :=
  match first? d.cliques ((d.containingOf v).filter fun c =>
    (n.family v).all (d.cliques[c]?.getD []).contains) with
  | some c => .ok (lists.1.push (some c), file lists.2 (c, v))
  | none =>
    .error (.notChordal ("no clique covers the family of "
      ++ quoted (((n.node? v).map (·.name)).getD "")))

end Directory

open Call in
def settleInPlace (n : Network α) : Call α Directory Unit := do
  let lists ← check fun d =>
    n.ids.foldlM (d.place n) (#[], Array.replicate d.cliques.size [])
  write fun d => ((), { d with families := lists.1 })
  write fun d => ((), { d with assigned := lists.2 })

/-! What the lists hold -/

structure Directory.Records (d : Directory) (t : JunctionTree) : Prop where
  cliques : d.cliques = t.cliques
  containing : ∀ v, d.containingOf v = t.containing v
  homes : ∀ v, d.home? v = t.home? v
  families : ∀ v, d.family? v = t.family? v
  assigned : ∀ c, d.assignedTo c = t.assigned c

section Listing

variable {lists : Array (List Nat)} {cliques : Array (List Nat)} {clique : List Nat}

theorem size_foldl_file (l : List (Nat × Nat)) (lists : Array (List Nat)) :
    (l.foldl file lists).size = lists.size := by
  refine List.foldlRecOn (motive := fun a : Array (List Nat) => a.size = lists.size) l _ rfl ?_
  intro a ha e _
  rw [file, Array.size_modify, ha]

theorem getD_foldl_file (l : List (Nat × Nat)) :
    ∀ lists : Array (List Nat), v < lists.size → (l.foldl file lists)[v]?.getD [] =
      lists[v]?.getD [] ++ (l.filter (·.1 == v)).map (·.2) := by
  induction l with
  | nil => simp
  | cons e l ih =>
    intro lists hv
    rw [List.foldl_cons, ih _ (by rwa [file, Array.size_modify]), file, Array.getElem?_modify]
    by_cases he : e.1 = v <;> simp [he, hv]

theorem getD_enter (hclique : clique.Nodup) (hv : v < lists.size) :
    (enter lists (clique, c))[v]?.getD [] =
      lists[v]?.getD [] ++ if v ∈ clique then [c] else [] := by
  have hfilter : ((clique.map (·, c)).filter (·.1 == v)).map (·.2) =
      if v ∈ clique then [c] else [] := by
    have hsame : clique.filter ((·.1 == v) ∘ (·, c)) = clique.filter (· == v) := rfl
    rw [List.filter_map, List.map_map, hsame, List.filter_beq, hclique.count]
    split <;> rfl
  rw [enter, getD_foldl_file _ _ hv, hfilter]

theorem getD_foldl_enter (l : List (List Nat × Nat)) (hl : ∀ e ∈ l, e.1.Nodup) :
    ∀ lists : Array (List Nat), v < lists.size → (l.foldl enter lists)[v]?.getD [] =
      lists[v]?.getD [] ++ (l.filter fun e => e.1.contains v).map (·.2) := by
  induction l with
  | nil => simp
  | cons e l ih =>
    intro lists hv
    obtain ⟨he, hl⟩ := List.forall_mem_cons.1 hl
    rw [List.foldl_cons, ih hl _ (by rwa [enter, size_foldl_file]), getD_enter he hv]
    by_cases hmem : v ∈ e.1 <;> simp [hmem]

theorem map_snd_filter_zipIdx {β : Type} (l : List β) (p : β → Bool) :
    (l.zipIdx.filter fun e => p e.1).map (·.2) =
      (List.range l.length).filter fun i => l[i]?.any p := by
  have hplace : (l.zipIdx.filter fun e => p e.1) =
      l.zipIdx.filter ((fun i => l[i]?.any p) ∘ (·.2)) := by
    refine List.filter_congr fun e he => ?_
    simp [List.mem_zipIdx_iff_getElem?.1 he]
  rw [hplace, ← List.filter_map, List.zipIdx_map_snd, List.range_eq_range']

theorem size_listed (cliques : Array (List Nat)) : (listed cliques).size = bound cliques := by
  rw [listed]
  refine List.foldlRecOn (motive := fun a : Array (List Nat) => a.size = bound cliques) _ _ (by simp) ?_
  intro a ha e _
  rw [enter, size_foldl_file, ha]

theorem lt_bound (hv : v ∈ cliques[c]?.getD []) : v < bound cliques := by
  have hmem : v + 1 ∈ cliques.toList.flatten.map (· + 1) := by
    refine List.mem_map_of_mem (List.mem_flatten.2 ⟨cliques[c]?.getD [], ?_, hv⟩)
    cases hc : cliques[c]? with
    | none => simp [hc] at hv
    | some clique => exact Array.mem_toList_iff.2 (Array.mem_of_getElem? hc)
  exact List.le_max?_getD_of_mem hmem

theorem getD_listed (h : ∀ c : Nat, (cliques[c]?.getD []).Nodup) (v : Nat) :
    (listed cliques)[v]?.getD [] =
      (List.range cliques.size).filter fun c => (cliques[c]?.getD []).contains v := by
  have hcontains (c : Nat) : (cliques.toList[c]?.any fun clique => clique.contains v) =
      (cliques[c]?.getD []).contains v := by
    rw [Array.getElem?_toList]
    cases cliques[c]? <;> simp
  by_cases hv : v < bound cliques
  · have hnodup : ∀ e ∈ cliques.toList.zipIdx, e.1.Nodup := by
      intro e he
      have hc := h e.2
      rw [List.mem_zipIdx_iff_getElem?, Array.getElem?_toList] at he
      rwa [he] at hc
    have hstart : (Array.replicate (bound cliques) ([] : List Nat))[v]?.getD [] = [] := by
      simp [hv]
    rw [listed, getD_foldl_enter _ hnodup _ (by simpa using hv), hstart, List.nil_append,
      map_snd_filter_zipIdx _ (List.contains · v), Array.length_toList]
    simp only [hcontains]
  · have hnone : (listed cliques)[v]? = none :=
      Array.getElem?_eq_none (by rw [size_listed]; omega)
    rw [hnone, Option.getD_none, eq_comm, List.filter_eq_nil_iff]
    intro c _ hc
    exact hv (lt_bound (List.contains_iff_mem.1 hc))

end Listing

theorem assigned_withFamilies (t : JunctionTree) (cs : List Nat) (c : Nat) :
    ({ t with families := cs } : JunctionTree).assigned c =
      (cs.zipIdx.filter (·.1 == c)).map (·.2) := by
  have hplace (v : Nat) : cs[v]?.any (· == c) = (cs[v]? == some c) := by
    cases cs[v]? <;> rfl
  rw [map_snd_filter_zipIdx cs (· == c), assigned]
  simp only [hplace]

theorem getD_filed {k : Nat} (h : ∀ c ∈ cs, c < k) (c : Nat) :
    (cs.zipIdx.foldl file (Array.replicate k []))[c]?.getD [] =
      (cs.zipIdx.filter (·.1 == c)).map (·.2) := by
  by_cases hc : c < k
  · rw [getD_foldl_file _ _ (by simpa using hc)]
    simp [hc]
  · have hnone : (cs.zipIdx.foldl file (Array.replicate k []))[c]? = none :=
      Array.getElem?_eq_none (by rw [size_foldl_file, Array.size_replicate]; omega)
    have hempty : cs.zipIdx.filter (·.1 == c) = [] := by
      refine List.filter_eq_nil_iff.2 fun e he heq => hc ?_
      have hmem := List.mem_of_getElem? (List.mem_zipIdx_iff_getElem?.1 he)
      exact beq_iff_eq.1 heq ▸ h _ hmem
    rw [hnone, hempty]
    rfl

theorem first?_eq_smallest? (h : Scope.Increasing cs) : first? t.cliques cs = t.smallest? cs := by
  cases cs with
  | nil => rfl
  | cons b cs =>
    rw [first?, smallest?, List.foldl_cons, List.foldl_cons]
    simp only
    induction cs generalizing b with
    | nil => rfl
    | cons a cs ih =>
      obtain ⟨hb, hcs⟩ := List.pairwise_cons.1 h
      have hba := hb a List.mem_cons_self
      have hrest : Scope.Increasing (b :: cs) :=
        List.pairwise_cons.2 ⟨fun d hd => hb d (List.mem_cons_of_mem a hd), (List.pairwise_cons.1 hcs).2⟩
      rw [List.foldl_cons, List.foldl_cons]
      simp only [hba.asymm, and_false, or_false]
      change List.foldl _ (if (t.clique a).length < (t.clique b).length then _ else _) cs = _
      by_cases hlt : (t.clique a).length < (t.clique b).length
      · rw [if_pos hlt]
        exact ih a hcs
      · rw [if_neg hlt]
        exact ih b hrest

theorem records_ofCliques (h : ∀ c, (t.clique c).Nodup) (hfamilies : t.families = []) :
    (Directory.ofCliques t.cliques).Records t where
  cliques := rfl
  containing := getD_listed h
  homes v := by
    have hlist : (listed t.cliques)[v]?.getD [] = t.containing v := getD_listed h v
    rw [Directory.home?, Directory.ofCliques, Array.getElem?_map, home?]
    cases hv : (listed t.cliques)[v]? with
    | none =>
      rw [hv] at hlist
      rw [← hlist]
      rfl
    | some cs =>
      rw [hv] at hlist
      rw [← hlist, ← first?_eq_smallest?]
      · rfl
      · exact (show cs = _ from hlist) ▸ t.increasing_containing v
  families v := by simp [Directory.family?, Directory.ofCliques, family?, hfamilies]
  assigned c := by simp [Directory.assignedTo, Directory.ofCliques, assigned, hfamilies]

namespace Directory.Records

variable {d : Directory} {lists : Array (Option Nat) × Array (List Nat)}

theorem place_eq (h : d.Records t) (n : Network α) (v : Nat) : d.place n lists v =
    (t.familyOf n v).map fun c => (lists.1.push (some c), file lists.2 (c, v)) := by
  have hcandidates : ((d.containingOf v).filter fun c =>
      (n.family v).all (d.cliques[c]?.getD []).contains) = t.covering (n.family v) v := by
    rw [h.containing, h.cliques]
    rfl
  rw [place, hcandidates, h.cliques, first?_eq_smallest? (t.increasing_covering _ v), familyOf]
  cases t.smallest? (t.covering (n.family v) v) <;> rfl

theorem foldlM_place (h : d.Records t) (n : Network α) (l : List Nat) :
    ∀ lists, l.foldlM (d.place n) lists = (l.mapM (t.familyOf n)).map fun cs =>
      (lists.1 ++ (cs.map some).toArray, (cs.zip l).foldl file lists.2) := by
  induction l with
  | nil =>
    intro lists
    simp [pure, Except.pure, Except.map]
  | cons v l ih =>
    intro lists
    rw [List.foldlM_cons, List.mapM_cons, h.place_eq]
    cases hv : t.familyOf n v with
    | error e => rfl
    | ok c =>
      change l.foldlM (d.place n) (lists.1.push (some c), file lists.2 (c, v)) = _
      rw [ih]
      cases hl : l.mapM (t.familyOf n) with
      | error e => rfl
      | ok cs => simp [bind, Except.bind, pure, Except.pure, Except.map]

/-- Assigning families in place leaves the lists of the tree that assigning them gives, and nothing is
changed when there is none. -/
theorem settleInPlace_eq (h : d.Records t) (n : Network α) :
    (∃ t' d', t.settleFamilies n = .ok t' ∧ settleInPlace n d = .ok () d' ∧ d'.Records t') ∨
      ∃ e, t.settleFamilies n = .error e ∧ settleInPlace n d = .error e d := by
  have hlists := h.foldlM_place n n.ids (#[], Array.replicate d.cliques.size [])
  rw [settleFamilies]
  simp only [settleInPlace, Call.check, Call.write, bind, EStateM.bind, hlists]
  cases hfamilies : n.ids.mapM (t.familyOf n) with
  | error e => exact Or.inr ⟨e, rfl, rfl⟩
  | ok cs =>
    have hsome := mapM_eq_ok _ _ hfamilies
    have hlength : cs.length = n.size := by simpa [Network.ids] using hsome.length_eq.symm
    refine Or.inl ⟨_, _, rfl, rfl, ⟨h.cliques, h.containing, h.homes, fun v => ?_, fun c => ?_⟩⟩
    · simp only [Directory.family?, JunctionTree.family?]
      simp only [Array.empty_append, List.getElem?_toArray, List.getElem?_map]
      cases cs[v]? <;> rfl
    · have hids : cs.zip n.ids = cs.zipIdx := by
        rw [Network.ids, ← hlength, List.range_eq_range', List.zipIdx_eq_zip_range']
      have hlt : ∀ b ∈ cs, b < d.cliques.size := by
        intro b hb
        obtain ⟨i, hi, rfl⟩ := List.getElem_of_mem hb
        have hown := hsome.get (by simpa [Network.ids, ← hlength] using hi) hi
        exact h.cliques ▸ (familyOf_eq_ok_iff.1 hown).1
      rw [assigned_withFamilies, ← getD_filed hlt c, ← hids]
      rfl

end Directory.Records

/-! Any assignments -/

theorem build_families {cliques : List (List Nat)} (h : build (α := α) cliques = .ok t) :
    t.families = [] := by
  rw [build] at h
  cases hv : (rooted (arranged cliques) (spanning (arranged cliques))).violation? with
  | some v => simp [hv] at h
  | none =>
    simp only [hv] at h
    cases h
    rfl

def settled (n : Network α) (t : JunctionTree) : JunctionTree :=
  match t.settleFamilies n with
  | .ok t' => t'
  | .error _ => t

/-- The trees that are built, after any assignments, with the lists that they keep. -/
inductive Reached : Directory → JunctionTree → Prop
  | built {cliques : List (List Nat)} {t : JunctionTree} (h : build (α := α) cliques = .ok t) :
      Reached (.ofCliques t.cliques) t
  | call {d : Directory} {t : JunctionTree} (h : Reached d t) (n : Network α) :
      Reached ((settleInPlace n).after d) (settled n t)

theorem Reached.records {d : Directory} (h : Reached (α := α) d t) : d.Records t := by
  induction h with
  | @built cliques t h =>
    have hcliques := (build_spec h).2
    refine records_ofCliques (fun c => ?_) (build_families h)
    rw [clique, hcliques]
    exact ((arranged_spec cliques).2 c).nodup
  | @call d t h n ih =>
    rw [settled, Call.after]
    obtain ⟨t', d', ht, hd, hrecords⟩ | ⟨e, ht, hd⟩ := ih.settleInPlace_eq n
    · simp only [ht, hd]
      exact hrecords
    · simp only [ht, hd]
      exact ih

/-- Every variable of the network belongs to one clique, the first that has room for its table. -/
structure Settles (t : JunctionTree) (n : Network α) (t' : JunctionTree) : Prop where
  same : t' = { t with families := t'.families }
  family : ∀ v < n.size, ∃ c, t'.family? v = some c ∧ t.IsFirst (t.Covers n v) c
  beyond : ∀ v, n.size ≤ v → t'.family? v = none
  mem_assigned : ∀ c v, v ∈ t'.assigned c ↔ t'.family? v = some c
  increasing : ∀ c, Scope.Increasing (t'.assigned c)

theorem settles_of_ok (h : t.settleFamilies n = .ok t') : t.Settles n t' := by
  obtain ⟨families, rfl, hlength, hall⟩ := settleFamilies_eq_ok h
  refine ⟨rfl, fun v hv => ?_, fun v hv => ?_, fun c v => ?_, fun c => ?_⟩
  · obtain ⟨c, hget, hc⟩ := hall v hv
    exact ⟨c, hget, familyOf_eq_ok_iff.1 hc⟩
  · exact List.getElem?_eq_none (hlength ▸ hv)
  · rw [JunctionTree.mem_assigned]
    exact and_iff_right_of_imp fun hv => (List.getElem?_eq_some_iff.1 hv).1
  · exact Scope.Increasing.filter List.pairwise_lt_range _

/-- Homes and families are the first of the smallest cliques that can be, and families are assigned to
all variables or not at all. -/
theorem Reached.assigns_families {d : Directory} (h : Reached (α := α) d t) :
    d.Records t ∧
    (∀ v, Scope.Increasing (t.containing v) ∧
      ∀ c, c ∈ t.containing v ↔ c < t.size ∧ v ∈ t.clique c) ∧
    (∀ v c, t.home? v = some c ↔ t.IsFirst (v ∈ t.clique ·) c) ∧
    (∀ v, t.home? v = none ↔ ∀ c < t.size, v ∉ t.clique c) ∧
    ∀ n : Network α,
      ((∃ t', t.settleFamilies n = .ok t') ↔ ∀ v < n.size, ∃ c < t.size, t.Covers n v c) ∧
      (∀ t', t.settleFamilies n = .ok t' → t.Settles n t' ∧
        ∃ d', settleInPlace n d = .ok () d' ∧ d'.Records t') ∧
      ∀ e, t.settleFamilies n = .error e → settleInPlace n d = .error e d := by
  refine ⟨h.records, fun v => ⟨t.increasing_containing v, fun c => mem_containing⟩,
    fun v c => home?_eq_some_iff, fun v => home?_eq_none_iff, fun n =>
    ⟨settleFamilies_isOk, fun t' ht => ⟨settles_of_ok ht, ?_⟩, fun e ht => ?_⟩⟩
  · obtain ⟨t'', d', ht', hd, hrecords⟩ | ⟨e, he, -⟩ := h.records.settleInPlace_eq n
    · obtain rfl := Except.ok.inj (ht.symm.trans ht')
      exact ⟨d', hd, hrecords⟩
    · simp [ht] at he
  · obtain ⟨t', -, ht', -⟩ | ⟨e', he, hd⟩ := h.records.settleInPlace_eq n
    · simp [ht] at ht'
    · obtain rfl := Except.error.inj (ht.symm.trans he)
      exact hd

def weather : Network Float :=
  ⟨#[⟨⟨"rain", ["no", "yes"]⟩, [], [1], Network.uniform [2]⟩,
    ⟨⟨"grass", ["dry", "wet"]⟩, [0], [], Network.uniform [2, 2]⟩,
    ⟨⟨"sun", ["no", "yes"]⟩, [], [], Network.uniform [2]⟩]⟩

def windy : Network Float :=
  ⟨weather.nodes.push ⟨⟨"wind", ["no", "yes"]⟩, [], [], Network.uniform [2]⟩⟩

def nested : JunctionTree :=
  ⟨#[[0, 1, 2], [1, 2]], [⟨0, 1, [1, 2]⟩], [⟨0, none, [], 0⟩, ⟨1, some 0, [1, 2], 1⟩], []⟩

theorem build_nested : build (α := Float) [[0, 1, 2], [2, 1]] = .ok nested := by cbv

/-- The second assignment fails and leaves the first. -/
theorem Reached.assigns_families_of_weather :
    Reached (α := Float) (.ofCliques nested.cliques) nested ∧
    nested.containing 1 = [0, 1] ∧ nested.home? 1 = some 1 ∧
    ∃ d, settleInPlace weather (.ofCliques nested.cliques) = .ok () d ∧
      d.family? 1 = some 0 ∧ d.assignedTo 0 = [0, 1] ∧ d.assignedTo 1 = [2] ∧
      settleInPlace windy d = .error (.notChordal "no clique covers the family of `wind`") d := by
  have hnested : Reached (α := Float) (.ofCliques nested.cliques) nested := .built build_nested
  have hsettled : nested.settleFamilies weather = .ok { nested with families := [0, 0, 1] } := rfl
  obtain ⟨-, -, -, -, hfamilies⟩ := hnested.assigns_families
  obtain ⟨-, d, hd, hrecords⟩ := (hfamilies weather).2.1 _ hsettled
  have hlater := hnested.call weather
  simp only [Call.after, hd, settled, hsettled] at hlater
  obtain ⟨-, -, -, -, hfamilies⟩ := hlater.assigns_families
  refine ⟨hnested, rfl, rfl, d, hd, ?_, ?_, ?_, (hfamilies windy).2.2 _ rfl⟩
  · rw [hrecords.families]
    rfl
  · rw [hrecords.assigned]
    rfl
  · rw [hrecords.assigned]
    rfl

end Bayes.JunctionTree
