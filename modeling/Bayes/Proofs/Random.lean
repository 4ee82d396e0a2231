import Bayes.Proofs.Network.Insertion
import Bayes.Proofs.Network.Order
import Bayes.Proofs.Network.Rounds
import Bayes.Random.Words
/-!
Random networks are valid, whatever is drawn. Every draw leaves a network that edits lead to: a new
variable has a new name and at least two different states, an edge leads to a higher number and so closes
no cycle, and a row of positive numbers that is divided by its sum is a distribution.
-/
namespace Bayes.Random
open Network (Reachable)

variable {σ : Type} {d e : Draws σ ℝ} {shape : Shape ℝ} {n : Network ℝ} {i p c v : Nat}

/-- Numbers that are drawn are between their bounds, or positive. -/
structure Draws.Sound (d : Draws σ ℝ) : Prop where
  between : ∀ lo hi s, lo ≤ hi → lo ≤ (d.between lo hi s).1 ∧ (d.between lo hi s).1 ≤ hi
  exponential : ∀ s, 0 < (d.exponential s).1

/-- The same draws between bounds that are in order, and of events that have a probability. What else is
asked for may be answered in another way, or not at all. -/
structure Draws.Agrees (d e : Draws σ ℝ) : Prop where
  between : ∀ lo hi s, lo ≤ hi → d.between lo hi s = e.between lo hi s
  event : ∀ p s, 0 ≤ p → p ≤ 1 → d.event p s = e.event p s
  exponential : ∀ s, d.exponential s = e.exponential s

noncomputable def Draws.guarded (d : Draws σ ℝ) : Draws σ ℝ where
  between lo hi s := if lo ≤ hi then d.between lo hi s else (0, s)
  event p s := if Scalar.lt p 0 || Scalar.lt 1 p then (false, s) else d.event p s
  exponential := d.exponential

theorem agrees_guarded (d : Draws σ ℝ) : d.Agrees d.guarded where
  between lo hi s hle := (if_pos hle).symm
  event p s hnonneg hle := by simp [Draws.guarded, Scalar.lt, hnonneg.not_gt, hle.not_gt]
  exponential _ := rfl

/-! What is asked for -/

theorem clamped_mem (p : ℝ) : 0 ≤ clamped p ∧ clamped p ≤ 1 := by
  simp only [clamped, Scalar.lt_iff]
  split
  · norm_num
  · split
    · norm_num
    · constructor <;> linarith

theorem drawVariable_congr (h : d.Agrees e) : drawVariable d shape = drawVariable e shape := by
  funext drawn i
  simp only [drawVariable, h.between _ _ _ (Nat.le_max_right _ _)]

theorem drawEdge_congr (h : d.Agrees e) : drawEdge d shape = drawEdge e shape := by
  obtain ⟨hnonneg, hle⟩ := clamped_mem shape.edgeProbability
  funext drawn edge
  simp only [drawEdge, h.event _ _ hnonneg hle]

theorem drawMany_congr (h : d.Agrees e) (count : Nat) (s : σ) :
    drawMany d count s = drawMany e count s := by
  induction count generalizing s with
  | zero => rfl
  | succ count ih => simp only [drawMany, h.exponential, ih]

theorem drawTable_congr (h : d.Agrees e) : drawTable d = drawTable e := by
  funext drawn v
  simp only [drawTable, drawMany_congr h]

theorem network_congr (h : d.Agrees e) (shape : Shape ℝ) (s : σ) :
    network d shape s = network e shape s := by
  simp only [network, drawVariable_congr h, drawEdge_congr h, drawTable_congr h]

/-! Rows -/

structure Stochastic (t : Table ℝ) : Prop where
  pos : ∀ x ∈ t.toList, 0 < x
  sum : ∀ row ∈ t.rows, row.sum = 1

theorem entry_pos {t : Table ℝ} (hpos : ∀ x ∈ t.toList, 0 < x) {index : List Nat}
    (h : Table.fits t.shape index = true) : 0 < t.entry index := by
  refine hpos _ ?_
  rw [Table.toList_eq_map_entry]
  exact List.mem_map_of_mem (Table.mem_indices.2 h)

theorem stochastic_rowsNormalized {t : Table ℝ} {outer : List Nat} {k : Nat} (hk : 0 < k)
    (hshape : t.shape = outer ++ [k]) (hpos : ∀ x ∈ t.toList, 0 < x) :
    Stochastic (rowsNormalized t) := by
  let total (index : List Nat) : ℝ := ((List.range k).map fun i => t.entry (index ++ [i])).sum
  have htotal (index : List Nat) (h : Table.fits outer index = true) : 0 < total index := by
    refine List.sum_pos _ (fun x hx => ?_) (by simp [hk.ne'])
    obtain ⟨i, hi, rfl⟩ := List.mem_map.1 hx
    exact entry_pos hpos (hshape ▸ Table.fits_concat.2 ⟨h, List.mem_range.1 hi⟩)
  have heq : rowsNormalized t =
      Table.ofFn (outer ++ [k]) fun index => t.entry index / total index.dropLast := by
    simp only [rowsNormalized, hshape, List.getLast?_concat, Option.getD_some, total]
  rw [heq]
  constructor
  · intro x hx
    obtain ⟨index, hindex, rfl⟩ := List.mem_map.1 hx
    have hfits := Table.mem_indices.1 hindex
    obtain ⟨init, i, rfl, houter, -⟩ := Table.exists_of_fits_concat hfits
    rw [List.dropLast_concat]
    exact div_pos (entry_pos hpos (hshape ▸ hfits)) (htotal init houter)
  · intro row hrow
    rw [Table.rows_ofFn] at hrow
    obtain ⟨index, hindex, rfl⟩ := List.mem_map.1 hrow
    simp only [List.dropLast_concat, div_eq_mul_inv]
    rw [List.sum_map_mul_right]
    exact mul_inv_cancel₀ (htotal index (Table.mem_indices.1 hindex)).ne'

/-! Draws -/

theorem drawMany_spec (hd : d.Sound) (count : Nat) (s : σ) :
    (drawMany d count s).1.length = count ∧ ∀ x ∈ (drawMany d count s).1, 0 < x := by
  induction count generalizing s with
  | zero => simp [drawMany]
  | succ count ih =>
    obtain ⟨hlength, hpos⟩ := ih (d.exponential s).2
    exact ⟨congrArg Nat.succ hlength, List.forall_mem_cons.2 ⟨hd.exponential s, hpos⟩⟩

def Shape.cardinalities (shape : Shape ℝ) : Set Nat :=
  Set.Icc (max shape.minCardinality 2) (max shape.maxCardinality (max shape.minCardinality 2))

/-- A network that is drawn, with its first variables. -/
structure Grown (shape : Shape ℝ) (count : Nat) (n : Network ℝ) : Prop where
  reachable : Reachable n
  names : n.names = (List.range count).map fun i => "v" ++ toString i
  cardinality : ∀ v < count, n.cardinality v ∈ shape.cardinalities
  upward : ∀ c, ∀ p ∈ n.parents c, p < c
  few : ∀ v, (n.parents v).length ≤ shape.maxParents

theorem grown_empty (shape : Shape ℝ) : Grown shape 0 .empty where
  reachable := .empty
  names := rfl
  cardinality v hv := absurd hv (Nat.not_lt_zero v)
  upward c p hp := by simp [Network.parents, Network.node?, Network.empty] at hp
  few v := by simp [Network.parents, Network.node?, Network.empty]

theorem Grown.size (h : Grown shape i n) : n.size = i := by
  rw [← n.length_names, h.names, List.length_map, List.length_range]

theorem numbered_injective (letter : String) :
    Function.Injective fun i : Nat => letter ++ toString i := by
  intro i j h
  have hdigits : Nat.toDigits 10 i = Nat.toDigits 10 j := by simpa using congrArg String.toList h
  rw [← Nat.ofDigitChars_ten_toDigits (n := i), hdigits, Nat.ofDigitChars_ten_toDigits]

theorem Grown.addVariableOfSize (h : Grown shape i n) {k : Nat} (hk : k ∈ shape.cardinalities) :
    ∃ n', n.addVariableOfSize ("v" ++ toString i) k = .ok n' ∧ Grown shape (i + 1) n' := by
  have htwo : 2 ≤ k := (Nat.le_max_right _ _).trans hk.1
  let states := (List.range k).map fun j => "s" ++ toString j
  have hlength : states.length = k := by simp [states]
  have hstates : states.Nodup := List.nodup_range.map (numbered_injective "s")
  have hname : n.idOf? ("v" ++ toString i) = none := by
    rw [Network.idOf?_eq_none, ← Network.names, h.names,
      List.mem_map_of_injective (numbered_injective "v"), List.mem_range]
    exact Nat.lt_irrefl i
  have hok : n.addVariableOfSize ("v" ++ toString i) k = .ok _ :=
    Network.addVariable_of_new hname (hlength.symm ▸ htwo) (length_eraseDups_eq_iff.2 hstates)
  refine ⟨_, hok, h.reachable.edit (.addVariableOfSize _ k) hok, ?_, fun v hv => ?_, fun c p hp => ?_,
    fun v => ?_⟩
  · rw [Network.names, Network.vars_push, List.map_append, ← Network.names, h.names,
      List.range_succ, List.map_append]
    rfl
  · rw [Network.cardinality_push, h.size]
    split
    · simpa [Variable.cardinality, hlength] using hk
    · exact h.cardinality v (by omega)
  · rw [Network.parents_push] at hp
    split at hp
    · cases hp
    · exact h.upward c p hp
  · rw [Network.parents_push]
    split
    · exact Nat.zero_le _
    · exact h.few v

theorem Grown.drawVariable (hd : d.Sound) (h : Grown shape i n) (s : σ) :
    ∃ drawn, drawVariable d shape (n, s) i = .ok drawn ∧ Grown shape (i + 1) drawn.1 := by
  let drawn := d.between (max shape.minCardinality 2)
    (max shape.maxCardinality (max shape.minCardinality 2)) s
  obtain ⟨n', hok, hn'⟩ := h.addVariableOfSize (k := drawn.1)
    (hd.between _ _ s (Nat.le_max_right _ _))
  exact ⟨(n', drawn.2), bind_eq_ok.2 ⟨n', hok, rfl⟩, hn'⟩

theorem Grown.le_of_leads (h : Grown shape i n) (hleads : n.Leads v p) : v ≤ p := by
  induction hleads with
  | refl => exact Nat.le_refl v
  | tail _ hedge ih => exact ih.trans (h.upward _ _ hedge).le

/-- Edges lead to higher numbers, so no path leads back. -/
theorem Grown.addEdge (h : Grown shape i n) (hpc : p < c) (hc : c < i)
    (hroom : (n.parents c).length < shape.maxParents) :
    ∃ n', n.addEdge p c = .ok n' ∧ Grown shape i n' := by
  have hp : p < n.size := h.size ▸ hpc.trans hc
  have hc : c < n.size := h.size ▸ hc
  by_cases hold : p ∈ n.parents c
  · exact ⟨n, Network.addEdge_of_mem hp hold, h⟩
  · have hnot : ¬ n.Leads c p := fun hleads => absurd (h.le_of_leads hleads) hpc.not_ge
    have hok := Network.addEdge_of_joins (h.reachable.coherent.linked.joins hp hc hold hnot)
    have hvars : (n.attach p c).vars = n.vars := Network.vars_attach n p c
    refine ⟨_, hok, h.reachable.edit (.addEdge p c) hok, ?_, ?_, fun w q hq => ?_, fun w => ?_⟩
    · rw [Network.names_of_vars_eq hvars, h.names]
    · rw [Network.cardinality_of_vars_eq hvars]
      exact h.cardinality
    · rw [Network.parents_attach hc] at hq
      split at hq
      · next hcw =>
        obtain hq | hq := List.mem_append.1 hq
        · exact h.upward w q hq
        · exact hcw ▸ List.mem_singleton.1 hq ▸ hpc
      · exact h.upward w q hq
    · rw [Network.parents_attach hc]
      split
      · next hcw => simpa [← hcw] using hroom
      · exact h.few w

theorem Grown.drawEdge (h : Grown shape i n) (hpc : p < c) (hc : c < i) (s : σ) :
    ∃ drawn, drawEdge d shape (n, s) (p, c) = .ok drawn ∧ Grown shape i drawn.1 := by
  rcases hdraw : d.event (clamped shape.edgeProbability) s with ⟨hit, s'⟩
  simp only [Random.drawEdge, hdraw]
  split
  · next hroom =>
    cases hit with
    | true =>
      obtain ⟨n', hok, hn'⟩ := h.addEdge hpc hc hroom
      exact ⟨(n', s'), bind_eq_ok.2 ⟨n', hok, rfl⟩, hn'⟩
    | false => exact ⟨(n, s'), rfl, h⟩
  · exact ⟨(n, s), rfl, h⟩

theorem Grown.setTable (h : Grown shape i n) (hv : v < i) {t : Table ℝ} (ht : Stochastic t)
    (hshape : t.shape = n.tableShape v) :
    n.setTable v t = .ok (n.withTable v t) ∧ Grown shape i (n.withTable v t) := by
  have hconditional : Network.Conditional t.toList t.rows := by
    refine Network.conditional_real.2 ⟨fun x hx => (ht.pos x hx).le, fun row hrow => ?_⟩
    rw [ht.sum row hrow]
    norm_num
  have hok : n.setTable v t = .ok (n.withTable v t) :=
    Network.setTable_of_takes (Network.takes_iff.2 ⟨h.size ▸ hv, hshape, hconditional⟩)
  refine ⟨hok, h.reachable.edit (.setTable v t) hok, ?_, ?_, ?_, ?_⟩
  · rw [Network.names_of_vars_eq (Network.vars_withTable n v t), h.names]
  · rw [Network.cardinality_withTable]
    exact h.cardinality
  · rw [Network.parents_withTable]
    exact h.upward
  · rw [Network.parents_withTable]
    exact h.few

theorem Grown.drawTable (hd : d.Sound) (h : Grown shape i n) (hv : v < i) (s : σ) :
    ∃ drawn t, Random.drawTable d (n, s) v = .ok drawn ∧ Stochastic t ∧ drawn.1 = n.withTable v t ∧
      Grown shape i drawn.1 := by
  have hlt : v < n.size := h.size ▸ hv
  obtain ⟨hlength, hpos⟩ := drawMany_spec hd (Table.size (n.tableShape v)) s
  let drawn := drawMany d (Table.size (n.tableShape v)) s
  obtain ⟨t, htable⟩ : ∃ t, Table.ofList? (n.tableShape v) drawn.1 = some t := ⟨_, dif_pos hlength⟩
  obtain ⟨hshape, hlist⟩ := Table.ofList?_eq_some.1 htable
  have houter : t.shape = (n.parents v).map n.cardinality ++ [n.cardinality v] := by
    rw [hshape, Network.tableShape_eq hlt, List.map_append, List.map_singleton]
  have hrows := stochastic_rowsNormalized (h.reachable.wellFormed.card_pos v hlt) houter
    (hlist ▸ hpos)
  obtain ⟨hok, hgrown⟩ := h.setTable hv hrows hshape
  refine ⟨(n.withTable v (rowsNormalized t), drawn.2), _, ?_, hrows, rfl, hgrown⟩
  simp only [Random.drawTable, htable, drawn]
  exact bind_eq_ok.2 ⟨_, hok, rfl⟩

/-! All draws -/

theorem grown_drawVariables (hd : d.Sound) (shape : Shape ℝ) (s : σ) :
    ∃ drawn, (List.range shape.count).foldlM (drawVariable d shape) (.empty, s) = .ok drawn ∧
      Grown shape shape.count drawn.1 :=
  foldlM_range_progress (fun i (drawn : Network ℝ × σ) => Grown shape i drawn.1)
    (fun _ _ drawn h => h.drawVariable hd drawn.2) (grown_empty shape)

theorem Grown.drawEdges {drawn : Network ℝ × σ} (h : Grown shape i drawn.1) {es : List (Nat × Nat)}
    (hes : ∀ e ∈ es, e.1 < e.2 ∧ e.2 < i) :
    ∃ drawn', es.foldlM (Random.drawEdge d shape) drawn = .ok drawn' ∧ Grown shape i drawn'.1 := by
  refine foldlM_progress (fun _ (drawn : Network ℝ × σ) => Grown shape i drawn.1) ?_ h
  intro j e drawn he h
  obtain ⟨hlt, hle⟩ := hes e (List.mem_of_getElem? he)
  exact h.drawEdge hlt hle drawn.2

theorem Grown.drawTables (hd : d.Sound) {drawn : Network ℝ × σ} (h : Grown shape i drawn.1) :
    ∃ drawn', (List.range i).foldlM (Random.drawTable d) drawn = .ok drawn' ∧
      Grown shape i drawn'.1 ∧ ∀ v < i, Stochastic (drawn'.1.table v) := by
  refine foldlM_range_progress
    (fun j (drawn : Network ℝ × σ) =>
      Grown shape i drawn.1 ∧ ∀ v < j, Stochastic (drawn.1.table v)) ?_
    ⟨h, fun v hv => absurd hv (Nat.not_lt_zero v)⟩
  rintro v hv drawn ⟨h, htables⟩
  obtain ⟨drawn', t, hok, ht, hset, hgrown⟩ := h.drawTable hd hv drawn.2
  refine ⟨drawn', hok, hgrown, fun w hw => ?_⟩
  rw [hset, Network.table_withTable _ (h.size ▸ hv)]
  split
  · exact ht
  · exact htables w (by omega)

structure Suits (shape : Shape ℝ) (n : Network ℝ) : Prop where
  reachable : Reachable n
  size : n.size = shape.count
  names : n.names = (List.range shape.count).map fun i => "v" ++ toString i
  cardinality : ∀ v < shape.count, n.cardinality v ∈ shape.cardinalities
  upward : ∀ c, ∀ p ∈ n.parents c, p < c
  few : ∀ v, (n.parents v).length ≤ shape.maxParents
  tables : ∀ v < shape.count, (n.table v).shape = n.tableShape v ∧ Stochastic (n.table v)
  ordered : n.topologicalOrder = List.range shape.count

theorem Grown.suits (h : Grown shape shape.count n)
    (htables : ∀ v < shape.count, Stochastic (n.table v)) : Suits shape n where
  reachable := h.reachable
  size := h.size
  names := h.names
  cardinality := h.cardinality
  upward := h.upward
  few := h.few
  tables v hv := ⟨(h.reachable.coherent.fills v (h.size.symm ▸ hv)).shape_eq, htables v hv⟩
  ordered := by rw [Network.topologicalOrder_eq_ids h.upward, Network.ids, h.size]

/-- Whatever is drawn, nothing is refused: the network has as many variables as asked for, with numbers
for names, edges to higher numbers only, no more parents and states than allowed, and rows of positive
numbers that sum to one. Nothing else than numbers between bounds that are in order and events that have
a probability is asked for on the way. -/
theorem network_suits (hd : d.Sound) (shape : Shape ℝ) (s : σ) :
    (∃ n, network d shape s = .ok n ∧ Suits shape n) ∧
      ∀ e : Draws σ ℝ, d.Agrees e → network e shape s = network d shape s := by
  let es := (List.range shape.count).flatMap fun child =>
    (List.range child).map fun parent => (parent, child)
  have hes (e : Nat × Nat) (he : e ∈ es) : e.1 < e.2 ∧ e.2 < shape.count := by
    simp only [es, List.mem_flatMap, List.mem_map, List.mem_range] at he
    obtain ⟨c, hc, p, hp, rfl⟩ := he
    exact ⟨hp, hc⟩
  refine ⟨?_, fun e he => (network_congr he shape s).symm⟩
  obtain ⟨drawn₁, h₁, hvars⟩ := grown_drawVariables hd shape s
  obtain ⟨drawn₂, h₂, hedges⟩ := hvars.drawEdges (d := d) hes
  obtain ⟨⟨n, s'⟩, h₃, hgrown, htables⟩ := hedges.drawTables hd
  have hok : network d shape s = .ok n :=
    bind_eq_ok.2 ⟨_, h₁, bind_eq_ok.2 ⟨_, h₂, bind_eq_ok.2 ⟨_, h₃, rfl⟩⟩⟩
  exact ⟨n, hok, hgrown.suits htables⟩

/-! Draws from words -/

theorem draw_mem (lo zone : Nat) {range : Nat} (hrange : 0 < range) (tries : Nat)
    (counter : UInt64) : lo ≤ (draw lo range zone tries counter).1 ∧
      (draw lo range zone tries counter).1 < lo + range := by
  induction tries generalizing counter with
  | zero => exact ⟨Nat.le_refl lo, Nat.lt_add_of_pos_right hrange⟩
  | succ tries ih =>
    rw [draw]
    have hword : (nextWord counter).1.toNat * range / wordCount < range := by
      refine Nat.div_lt_of_lt_mul (Nat.mul_lt_mul_of_pos_right ?_ hrange)
      exact (nextWord counter).1.toNat_lt
    simp only
    split
    · exact ⟨Nat.le_add_right _ _, Nat.add_lt_add_left hword lo⟩
    · exact ih _

theorem wordBetween_mem {lo hi : Nat} (hle : lo ≤ hi) (counter : UInt64) :
    lo ≤ (wordBetween lo hi counter).1 ∧ (wordBetween lo hi counter).1 ≤ hi := by
  obtain ⟨hlo, hhi⟩ := draw_mem lo _ (Nat.succ_pos (hi - lo)) 1000 counter
  exact ⟨hlo, Nat.le_of_lt_succ (hhi.trans_eq (by omega))⟩

noncomputable def place (word : UInt64) : ℝ := (word.toNat + 1) / (wordCount + 1)

theorem place_mem (word : UInt64) : 0 < place word ∧ place word < 1 := by
  have hlt : (word.toNat : ℝ) < wordCount := by exact_mod_cast word.toNat_lt
  have hcount : (0 : ℝ) < wordCount + 1 := by positivity
  refine ⟨by unfold place; positivity, ?_⟩
  rw [place, div_lt_one hcount]
  exact add_lt_add_left hlt 1

noncomputable def exactWords : Draws UInt64 ℝ where
  between := wordBetween
  event p counter :=
    if Scalar.lt p 1 then (Scalar.lt (place (nextWord counter).1) p, (nextWord counter).2)
    else (true, counter)
  exponential counter := (-Real.log (place (nextWord counter).1), (nextWord counter).2)

theorem sound_exactWords : exactWords.Sound where
  between _ _ counter hle := wordBetween_mem hle counter
  exponential counter := by
    obtain ⟨hpos, hlt⟩ := place_mem (nextWord counter).1
    exact neg_pos.2 (Real.log_neg hpos hlt)

theorem network_suits_of_words : exactWords.Sound ∧ exactWords.Agrees exactWords.guarded ∧
    ∃ n, network exactWords Shape.standard 7 = .ok n ∧
      network exactWords.guarded Shape.standard 7 = .ok n ∧
      n.names = ["v0", "v1", "v2", "v3", "v4"] ∧ n.topologicalOrder = [0, 1, 2, 3, 4] ∧
      (∀ v < 5, n.cardinality v = 2) ∧ ∀ v < 5, ∀ row ∈ (n.table v).rows, row.sum = 1 := by
  obtain ⟨⟨n, hok, hn⟩, hagrees⟩ := network_suits sound_exactWords Shape.standard 7
  have hguarded := (hagrees _ (agrees_guarded exactWords)).trans hok
  refine ⟨sound_exactWords, agrees_guarded exactWords, n, hok, hguarded, hn.names, hn.ordered,
    fun v hv => ?_, fun v hv => (hn.tables v hv).2.sum⟩
  obtain ⟨hlo, hhi⟩ := hn.cardinality v hv
  exact Nat.le_antisymm hhi hlo

end Bayes.Random
