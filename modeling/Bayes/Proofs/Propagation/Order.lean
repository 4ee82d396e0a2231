import Bayes.Proofs.Propagation.Distribute
/-!
The order of the visits does not matter. Collecting leaves the same behind in every order that visits
children before their parents, and distributing in every order that visits parents before their children:
what a clique sends depends on what it has got, and it has got everything when its turn comes.
-/
namespace Bayes

/-- Every member of a list comes after all that it waits for. -/
def InOrder (waits : Nat → Nat → Prop) (order : List Nat) : Prop :=
  ∀ done c rest, order = done ++ c :: rest → ∀ d, waits c d → d ∈ done

namespace InOrder

variable {waits : Nat → Nat → Prop} {order : List Nat} {c d : Nat}

theorem nil : InOrder waits [] := fun _ _ _ hl => by simp at hl

theorem concat (h : InOrder waits order) (hc : ∀ d, waits c d → d ∈ order) :
    InOrder waits (order ++ [c]) := by
  intro done e rest hl d hd
  obtain rfl | ⟨rest, x, rfl⟩ := List.eq_nil_or_concat rest
  · obtain ⟨rfl, heq⟩ := List.append_inj' hl rfl
    obtain rfl : c = e := by simpa using heq
    exact hc d hd
  · have hl : order ++ [c] = (done ++ e :: rest) ++ [x] := by simpa using hl
    exact h done e rest (List.append_inj' hl rfl).1 d hd

theorem mem (h : InOrder waits order) (hc : c ∈ order) (hd : waits c d) : d ∈ order := by
  obtain ⟨done, rest, hl⟩ := List.append_of_mem hc
  rw [hl]
  exact List.mem_append_left _ (h done c rest hl d hd)

theorem induction {P : Nat → Prop} (h : InOrder waits order)
    (hstep : ∀ c ∈ order, (∀ d, waits c d → P d) → P c) : ∀ c ∈ order, P c := by
  suffices hdone : ∀ rest done, order = done ++ rest → (∀ c ∈ done, P c) → ∀ c ∈ order, P c from
    hdone order [] rfl (by simp)
  intro rest
  induction rest with
  | nil =>
    intro done hl hdone
    rwa [hl, List.append_nil]
  | cons c rest ih =>
    intro done hl hdone
    refine ih (done ++ [c]) (by simp [hl]) fun d hd => ?_
    obtain hd | hd := List.mem_append.1 hd
    · exact hdone d hd
    · rw [List.mem_singleton.1 hd]
      exact hstep c (by simp [hl]) fun e he => hdone e (h done c rest hl e he)

end InOrder

theorem mem_of_waits_concat {waits : Nat → Nat → Prop} {done : List Nat} {c : Nat}
    (hdone : ∀ e ∈ done, ∀ d, waits e d → d ∈ done) (hc : ∀ d, waits c d → d ∈ done) :
    ∀ e ∈ done ++ [c], ∀ d, waits e d → d ∈ done := by
  intro e he d hd
  obtain he | he := List.mem_append.1 he
  · exact hdone e he d hd
  · exact hc d (List.mem_singleton.1 he ▸ hd)

/-- Different members below a bound, each of which comes after all that it waits for. -/
structure Scheduled (waits : Nat → Nat → Prop) (n : Nat) (order : List Nat) : Prop where
  nodup : order.Nodup
  lt : ∀ c ∈ order, c < n
  inOrder : InOrder waits order

namespace Scheduled

variable {waits : Nat → Nat → Prop} {n : Nat} {order done rest : List Nat} {c : Nat}

theorem nil : Scheduled waits n [] := ⟨List.nodup_nil, by simp, .nil⟩

theorem concat (h : Scheduled waits n order) (hlt : c < n) (hnew : c ∉ order)
    (hc : ∀ d, waits c d → d ∈ order) : Scheduled waits n (order ++ [c]) where
  nodup := by
    refine List.nodup_append.2 ⟨h.nodup, List.nodup_singleton c, fun d hd e he hde => hnew ?_⟩
    exact List.mem_singleton.1 he ▸ hde ▸ hd
  lt d hd := by
    obtain hd | hd := List.mem_append.1 hd
    · exact h.lt d hd
    · exact List.mem_singleton.1 hd ▸ hlt
  inOrder := h.inOrder.concat hc

theorem of_perm (hperm : order.Perm (List.range n)) (h : InOrder waits order) :
    Scheduled waits n order :=
  ⟨hperm.nodup_iff.2 List.nodup_range, fun _ hc => List.mem_range.1 (hperm.mem_iff.1 hc), h⟩

theorem not_mem (h : Scheduled waits n (done ++ c :: rest)) : c ∉ done := fun hc =>
  (List.nodup_append.1 h.nodup).2.2 c hc c List.mem_cons_self rfl

theorem length_le (h : Scheduled waits n order) : order.length ≤ n := by
  have hsub : order ⊆ List.range n := fun c hc => List.mem_range.2 (h.lt c hc)
  simpa using (h.nodup.subperm hsub).length_le

/-- A schedule to which nothing can be added is complete, if there is a complete one at all. -/
theorem perm (h : Scheduled waits n order) {all : List Nat} (hall : InOrder waits all)
    (hperm : all.Perm (List.range n))
    (hfull : ∀ c < n, c ∉ order → ¬ ∀ d, waits c d → d ∈ order) : order.Perm (List.range n) := by
  have hmem : ∀ c ∈ all, c ∈ order := hall.induction fun c hc hwaits => by
    by_contra hnot
    exact hfull c (List.mem_range.1 (hperm.mem_iff.1 hc)) hnot hwaits
  refine (List.perm_ext_iff_of_nodup h.nodup List.nodup_range).2 fun c => ⟨fun hc => ?_, fun hc => ?_⟩
  · exact List.mem_range.2 (h.lt c hc)
  · exact hmem c (hperm.mem_iff.2 hc)

end Scheduled

namespace JunctionTree

def AwaitsChild (t : JunctionTree) (c d : Nat) : Prop := t.parent? d = some c

def AwaitsParent (t : JunctionTree) (c q : Nat) : Prop := t.parent? c = some q

variable {t : JunctionTree}

theorem Rooted.inOrder_postorder (h : t.Rooted) : InOrder t.AwaitsChild t.postorder :=
  fun _ _ _ hl => (h.postorder_visit hl).2.2

theorem Rooted.inOrder_preorder (h : t.Rooted) : InOrder t.AwaitsParent t.preorder :=
  fun _ _ _ hl => (h.preorder_visit hl).2.2

theorem Rooted.perm_preorder (h : t.Rooted) : t.preorder.Perm (List.range t.size) :=
  (List.perm_ext_iff_of_nodup h.nodup List.nodup_range).2 fun c => by
    rw [h.mem_preorder, List.mem_range]

theorem Rooted.perm_postorder (h : t.Rooted) : t.postorder.Perm (List.range t.size) :=
  (List.reverse_perm _).trans h.perm_preorder

end JunctionTree

namespace Propagator

variable {α : Type} [Scalar α] {p : Propagator α} {how : Reduction} {done order : List Nat} {c d : Nat}

omit [Scalar α] in
theorem at?_noMail (p : Propagator α) (c : Nat) : (p.noMail : Mail α).at? c = none := by
  by_cases hc : c < p.tree.size <;> simp [noMail, Mail.at?, Array.getD_eq_getD_getElem?, hc]

/-! Collecting -/

/-- What the children sent is all that matters to a visit. -/
theorem product_congr {s s' : Collected α}
    (h : ∀ d ∈ p.tree.children c, s.upward.at? d = s'.upward.at? d) :
    p.product s c = p.product s' c :=
  List.foldl_ext _ _ _ fun m d hd => by rw [h d hd]

/-- What some cliques and no others have left behind, each with everything that it got. -/
structure Gathered (p : Propagator α) (how : Reduction) (done : List Nat) (s : Collected α) : Prop where
  how_eq : s.how = how
  size_upward : s.upward.size = p.tree.size
  size_gathered : s.gathered.size = p.tree.size
  upward : ∀ c, s.upward.at? c = if c ∈ done then
    (p.tree.parent? c).map fun _ => (p.product s c).onto (p.tree.separatorAbove c) how else none
  gathered : ∀ c, s.gathered.at? c = if c ∈ done then some (p.product s c) else none
  mem_of_child : ∀ c ∈ done, ∀ d, p.tree.parent? d = some c → d ∈ done

theorem gathered_start (p : Propagator α) (how : Reduction) :
    p.Gathered how [] ⟨how, p.noMail, p.noMail⟩ := by
  exact ⟨rfl, by simp [noMail], by simp [noMail], p.at?_noMail, p.at?_noMail, by simp⟩

theorem at?_upward_gather {s : Collected α} (hsize : s.upward.size = p.tree.size)
    (hc : c < p.tree.size) (hnew : s.upward.at? c = none) (d : Nat) :
    (p.gather s c).upward.at? d = if d = c then
      (p.tree.parent? c).map fun _ => (p.product s c).onto (p.tree.separatorAbove c) s.how
      else s.upward.at? d := by
  rw [gather]
  cases p.tree.parent? c with
  | none =>
    by_cases hdc : d = c
    · rw [if_pos hdc, hdc, hnew]
      rfl
    · rw [if_neg hdc]
  | some q =>
    by_cases hdc : d = c
    · rw [if_pos hdc, hdc, Mail.at?_put_same (hsize ▸ hc)]
      rfl
    · rw [if_neg hdc, Mail.at?_put_ne hdc]

theorem gathered_gather (ht : p.tree.Rooted) {s : Collected α} (hs : p.Gathered how done s)
    (hc : c < p.tree.size) (hnew : c ∉ done) (hchildren : ∀ d, p.tree.parent? d = some c → d ∈ done) :
    p.Gathered how (done ++ [c]) (p.gather s c) := by
  have hupward := at?_upward_gather hs.size_upward hc (by rw [hs.upward, if_neg hnew])
  rw [hs.how_eq] at hupward
  have hbefore := mem_of_waits_concat hs.mem_of_child hchildren
  -- no clique that is done, nor this one, looks at what this one sends
  have hkept (d : Nat) (hd : d ∈ done ++ [c]) : p.product (p.gather s c) d = p.product s d := by
    refine product_congr fun e he => ?_
    have hec : e ≠ c := fun hec => hnew (hec ▸ hbefore d hd e (ht.mem_children.1 he))
    rw [hupward, if_neg hec]
  refine ⟨hs.how_eq, ?_, Mail.size_put.trans hs.size_gathered, fun d => ?_, fun d => ?_,
    fun d hd e he => List.mem_append_left _ (hbefore d hd e he)⟩
  · rw [gather]
    cases p.tree.parent? c with
    | none => exact hs.size_upward
    | some q => exact Mail.size_put.trans hs.size_upward
  · rw [hupward]
    by_cases hdc : d = c
    · subst hdc
      rw [if_pos rfl, if_pos (by simp), hkept d (by simp)]
    · rw [if_neg hdc, hs.upward]
      by_cases hd : d ∈ done
      · rw [if_pos hd, if_pos (by simp [hd]), hkept d (by simp [hd])]
      · rw [if_neg hd, if_neg (by simp [hd, hdc])]
  · by_cases hdc : d = c
    · subst hdc
      rw [if_pos (by simp), hkept d (by simp), gather, Mail.at?_put_same (hs.size_gathered ▸ hc)]
    · rw [gather, Mail.at?_put_ne hdc, hs.gathered]
      by_cases hd : d ∈ done
      · rw [if_pos hd, if_pos (by simp [hd])]
        exact congrArg some (hkept d (by simp [hd])).symm
      · rw [if_neg hd, if_neg (by simp [hd, hdc])]

theorem gathered_foldl (ht : p.tree.Rooted) (how : Reduction)
    (h : Scheduled p.tree.AwaitsChild p.tree.size order) :
    p.Gathered how order (order.foldl p.gather ⟨how, p.noMail, p.noMail⟩) := by
  refine foldl_invariant (fun done s => p.Gathered how done s) (p.gathered_start how)
    fun done c rest s hl hs => ?_
  subst hl
  exact gathered_gather ht hs (h.lt c (by simp)) h.not_mem (h.inOrder done c rest rfl)

theorem Gathered.unique (ht : p.tree.Rooted) {s s' : Collected α} {done' : List Nat}
    (hs : p.Gathered how done s) (hs' : p.Gathered how done' s') (hdone : ∀ c, c ∈ done ↔ c ∈ done')
    (horder : InOrder p.tree.AwaitsChild done) : s = s' := by
  have hproduct : ∀ c ∈ done, p.product s c = p.product s' c := by
    refine horder.induction fun c hc hchildren => product_congr fun d hd => ?_
    have hd := ht.mem_children.1 hd
    rw [hs.upward, hs'.upward, hchildren d hd]
    simp only [hdone]
  have hupward : s.upward = s'.upward := by
    refine Mail.ext_at? (hs.size_upward.trans hs'.size_upward.symm) fun c => ?_
    simp only [hs.upward, hs'.upward, ← hdone]
    split
    · next hc => rw [hproduct c hc]
    · rfl
  have hgathered : s.gathered = s'.gathered := by
    refine Mail.ext_at? (hs.size_gathered.trans hs'.size_gathered.symm) fun c => ?_
    simp only [hs.gathered, hs'.gathered, ← hdone]
    split
    · next hc => rw [hproduct c hc]
    · rfl
  obtain ⟨how, upward, gathered⟩ := s
  obtain ⟨how', upward', gathered'⟩ := s'
  obtain rfl : how = how' := hs.how_eq.trans hs'.how_eq.symm
  obtain rfl : upward = upward' := hupward
  obtain rfl : gathered = gathered' := hgathered
  rfl

/-- Every order with children before their parents leaves the same behind. -/
theorem foldl_gather_eq (ht : p.tree.Rooted) (how : Reduction)
    (hperm : order.Perm (List.range p.tree.size)) (horder : InOrder p.tree.AwaitsChild order) :
    order.foldl p.gather ⟨how, p.noMail, p.noMail⟩ = p.collectAll how := by
  have hs := gathered_foldl ht how (.of_perm hperm horder)
  have hs' := gathered_foldl ht how (.of_perm ht.perm_postorder ht.inOrder_postorder)
  exact hs.unique ht hs' (fun c => (hperm.trans ht.perm_postorder.symm).mem_iff) horder

/-! Distributing -/

def sentDown (p : Propagator α) (collected : Collected α) (above : Option (Message α)) (c d : Nat) :
    Option (Message α) :=
  let upward := (p.tree.children c).map collected.upward.at?
  let rests := leaveOneOut ((p.own c).absorb above) upward (suffixes upward).tail
  (((p.tree.children c).zip rests).lookup d).map (·.onto (p.tree.separatorAbove d) .sum)

omit [Scalar α] in
theorem at?_foldl_put {f : Nat × Message α → Message α} {l : List (Nat × Message α)}
    (hnodup : (l.map (·.1)).Nodup) {mail : Mail α} (hlt : ∀ e ∈ l, e.1 < mail.size) (d : Nat) :
    (l.foldl (fun mail e => mail.put e.1 (f e)) mail).at? d =
      ((l.lookup d).map fun m => f (d, m)).or (mail.at? d) := by
  obtain ⟨-, hother, hput⟩ := foldl_put l hnodup mail hlt
  cases hd : l.lookup d with
  | none =>
    refine hother d fun hmem => ?_
    obtain ⟨e, he, rfl⟩ := List.mem_map.1 hmem
    simpa using List.lookup_eq_none_iff.1 hd e he
  | some m =>
    obtain ⟨l₁, l₂, rfl, -⟩ := List.lookup_eq_some_iff.1 hd
    exact hput (d, m) (by simp)

theorem at?_spread (ht : p.tree.Rooted) (collected : Collected α) {s : Spread α}
    (hsize : s.downward.size = p.tree.size) (c d : Nat) :
    (p.spread collected s c).downward.size = p.tree.size ∧
    (p.spread collected s c).downward.at? d =
      (p.sentDown collected (s.downward.at? c) c d).or (s.downward.at? d) := by
  have hnodup := p.map_fst_zip_rests collected (s.downward.at? c) c ▸
    JunctionTree.nodup_children ht.nodup c
  refine ⟨(spread_sends ht collected hsize c).1, at?_foldl_put hnodup (fun e he => ?_) d⟩
  rw [hsize]
  exact (ht.parent?_some (ht.mem_children.1 (List.of_mem_zip he).1)).1

theorem sentDown_eq_none (ht : p.tree.Rooted) {collected : Collected α} {above : Option (Message α)}
    (hd : p.tree.parent? d ≠ some c) : p.sentDown collected above c d = none := by
  refine Option.map_eq_none_iff.2 (List.lookup_eq_none_iff.2 fun e he => ?_)
  have hchild := ht.mem_children.1 (List.of_mem_zip he).1
  simpa using fun hde : d = e.1 => hd (hde ▸ hchild)

structure SpreadBy (p : Propagator α) (collected : Collected α) (done : List Nat) (s : Spread α) :
    Prop where
  size_downward : s.downward.size = p.tree.size
  size_beliefs : s.beliefs.size = p.tree.size
  downward : ∀ d, s.downward.at? d = (p.tree.parent? d).bind fun q =>
    if q ∈ done then p.sentDown collected (s.downward.at? q) q d else none
  beliefs : ∀ c, s.beliefs.at? c = if c ∈ done then
    some ((collected.gathered.got c).absorb (s.downward.at? c)) else none
  mem_of_parent : ∀ c ∈ done, ∀ q, p.tree.parent? c = some q → q ∈ done

theorem spreadBy_start (p : Propagator α) (collected : Collected α) :
    p.SpreadBy collected [] ⟨p.noMail, p.noMail⟩ := by
  refine ⟨by simp [noMail], by simp [noMail], fun d => ?_, p.at?_noMail, by simp⟩
  cases p.tree.parent? d <;> simp [at?_noMail]

theorem spreadBy_spread (ht : p.tree.Rooted) {collected : Collected α} {s : Spread α}
    (hs : p.SpreadBy collected done s) (hc : c < p.tree.size) (hnew : c ∉ done)
    (hparent : ∀ q, p.tree.parent? c = some q → q ∈ done) :
    p.SpreadBy collected (done ++ [c]) (p.spread collected s c) := by
  have hat (d : Nat) := (at?_spread ht collected hs.size_downward c d).2
  have hbefore := mem_of_waits_concat hs.mem_of_parent hparent
  -- the mail of a clique that is done, or of this one, is not changed
  have hkept (q : Nat) (hq : q ∈ done ++ [c]) :
      (p.spread collected s c).downward.at? q = s.downward.at? q := by
    have hqc : p.tree.parent? q ≠ some c := fun hqc => hnew (hbefore q hq c hqc)
    rw [hat, sentDown_eq_none ht hqc, Option.none_or]
  refine ⟨(at?_spread ht collected hs.size_downward c 0).1, Mail.size_put.trans hs.size_beliefs,
    fun d => ?_, fun d => ?_, fun d hd q hq => List.mem_append_left _ (hbefore d hd q hq)⟩
  · by_cases hdc : p.tree.parent? d = some c
    · have hnone : s.downward.at? d = none := by
        rw [hs.downward, hdc, Option.bind_some, if_neg hnew]
      rw [hat, hnone, Option.or_none, hdc, Option.bind_some, if_pos (by simp), hkept c (by simp)]
    · rw [hat, sentDown_eq_none ht hdc, Option.none_or, hs.downward]
      cases hq : p.tree.parent? d with
      | none => rfl
      | some q =>
        have hqc : q ≠ c := fun hqc => hdc (hqc ▸ hq)
        simp only [Option.bind_some, List.mem_append, List.mem_singleton, hqc, or_false]
        split
        · next hmem => rw [hkept q (by simp [hmem])]
        · rfl
  · by_cases hdc : d = c
    · subst hdc
      rw [if_pos (by simp), hkept d (by simp)]
      exact Mail.at?_put_same (hs.size_beliefs ▸ hc)
    · have hput : (p.spread collected s c).beliefs.at? d = s.beliefs.at? d := Mail.at?_put_ne hdc
      rw [hput, hs.beliefs]
      by_cases hd : d ∈ done
      · rw [if_pos hd, if_pos (by simp [hd]), hkept d (by simp [hd])]
      · rw [if_neg hd, if_neg (by simp [hd, hdc])]

theorem spreadBy_foldl (ht : p.tree.Rooted) (collected : Collected α)
    (h : Scheduled p.tree.AwaitsParent p.tree.size order) :
    p.SpreadBy collected order (order.foldl (p.spread collected) ⟨p.noMail, p.noMail⟩) := by
  refine foldl_invariant (fun done s => p.SpreadBy collected done s) (p.spreadBy_start collected)
    fun done c rest s hl hs => ?_
  subst hl
  exact spreadBy_spread ht hs (h.lt c (by simp)) h.not_mem (h.inOrder done c rest rfl)

theorem SpreadBy.unique {collected : Collected α} {s s' : Spread α} {done' : List Nat}
    (hs : p.SpreadBy collected done s) (hs' : p.SpreadBy collected done' s')
    (hdone : ∀ c, c ∈ done ↔ c ∈ done') (horder : InOrder p.tree.AwaitsParent done) : s = s' := by
  have hmail : ∀ c ∈ done, s.downward.at? c = s'.downward.at? c := by
    refine horder.induction fun c hc hparent => ?_
    rw [hs.downward, hs'.downward]
    cases hq : p.tree.parent? c with
    | none => rfl
    | some q => simp only [Option.bind_some, hparent q hq, hdone]
  have hdownward : s.downward = s'.downward := by
    refine Mail.ext_at? (hs.size_downward.trans hs'.size_downward.symm) fun d => ?_
    rw [hs.downward, hs'.downward]
    cases p.tree.parent? d with
    | none => rfl
    | some q =>
      simp only [Option.bind_some, ← hdone]
      split
      · next hq => rw [hmail q hq]
      · rfl
  have hbeliefs : s.beliefs = s'.beliefs := by
    refine Mail.ext_at? (hs.size_beliefs.trans hs'.size_beliefs.symm) fun c => ?_
    rw [hs.beliefs, hs'.beliefs, hdownward]
    simp only [hdone]
  obtain ⟨downward, beliefs⟩ := s
  obtain ⟨downward', beliefs'⟩ := s'
  obtain rfl : downward = downward' := hdownward
  obtain rfl : beliefs = beliefs' := hbeliefs
  rfl

/-- Every order with parents before their children sends the same down. -/
theorem foldl_spread_eq (ht : p.tree.Rooted) (collected : Collected α)
    (hperm : order.Perm (List.range p.tree.size)) (horder : InOrder p.tree.AwaitsParent order) :
    order.foldl (p.spread collected) ⟨p.noMail, p.noMail⟩ =
      p.tree.preorder.foldl (p.spread collected) ⟨p.noMail, p.noMail⟩ := by
  have hs := spreadBy_foldl ht collected (.of_perm hperm horder)
  have hs' := spreadBy_foldl ht collected (.of_perm ht.perm_preorder ht.inOrder_preorder)
  exact hs.unique hs' (fun c => (hperm.trans ht.perm_preorder.symm).mem_iff) horder

end Propagator
end Bayes
