/-!
Finite maps on variables, as lists with strictly increasing keys: a map is its list, so two maps with
the same values at every variable are equal.
-/
namespace Bayes

structure VarMap (β : Type) where
  entries : List (Nat × β)
  increasing : entries.Pairwise fun a b => a.1 < b.1

namespace VarMap

variable {β : Type}

def put (v : Nat) (x : β) : List (Nat × β) → List (Nat × β)
  | [] => [(v, x)]
  | e :: rest =>
    if v < e.1 then (v, x) :: e :: rest
    else if v = e.1 then (v, x) :: rest
    else e :: put v x rest

theorem mem_put {v : Nat} {x : β} {e : Nat × β} {l : List (Nat × β)} (h : e ∈ put v x l) :
    e = (v, x) ∨ e ∈ l := by
  fun_induction put v x l <;> grind

theorem increasing_put {v : Nat} {x : β} {l : List (Nat × β)}
    (h : l.Pairwise fun a b => a.1 < b.1) : (put v x l).Pairwise fun a b => a.1 < b.1 := by
  induction l with
  | nil => simp [put]
  | cons e l ih =>
    obtain ⟨he, hl⟩ := List.pairwise_cons.1 h
    simp only [put]
    split
    · exact List.pairwise_cons.2 ⟨by grind, h⟩
    · split
      · exact List.pairwise_cons.2 ⟨by grind, hl⟩
      · refine List.pairwise_cons.2 ⟨fun d hd => ?_, ih hl⟩
        rcases mem_put hd with rfl | hd
        · show e.1 < v; omega
        · exact he d hd

def empty : VarMap β := ⟨[], .nil⟩

def insert (m : VarMap β) (v : Nat) (x : β) : VarMap β := ⟨put v x m.entries, increasing_put m.increasing⟩

/-- Of several values for one variable the last one counts. -/
def ofList (l : List (Nat × β)) : VarMap β := l.foldl (fun m e => m.insert e.1 e.2) empty

def get? (m : VarMap β) (v : Nat) : Option β := m.entries.lookup v

def contains (m : VarMap β) (v : Nat) : Bool := (m.get? v).isSome

def keys (m : VarMap β) : List Nat := m.entries.map (·.1)

def size (m : VarMap β) : Nat := m.entries.length

def filter (m : VarMap β) (p : Nat → β → Bool) : VarMap β :=
  ⟨m.entries.filter fun e => p e.1 e.2, m.increasing.filter _⟩

def erase (m : VarMap β) (v : Nat) : VarMap β := m.filter fun w _ => w != v

def filterMap {γ : Type} (m : VarMap β) (f : β → Option γ) : VarMap γ where
  entries := m.entries.filterMap fun e => (f e.2).map fun y => (e.1, y)
  increasing := by
    refine List.Pairwise.filterMap _ (fun a b hab c hc d hd => ?_) m.increasing
    simp only [Option.map_eq_some_iff] at hc hd
    obtain ⟨_, _, rfl⟩ := hc
    obtain ⟨_, _, rfl⟩ := hd
    exact hab

def insertIfNew (m : VarMap β) (v : Nat) (x : β) : VarMap β := if m.contains v then m else m.insert v x

end VarMap
end Bayes
