/-!
A partition of 0, 1, ..., kept as a forest in which every class is a tree. The tree with the smaller
rank is hung below the other, and a search for the root shortens the path it walks by half.
-/
namespace Bayes

structure DisjointSets where
  parents : Array Nat
  ranks : Array Nat

namespace DisjointSets

def discrete (n : Nat) : DisjointSets := ⟨(List.range n).toArray, Array.replicate n 0⟩

variable (s : DisjointSets)

def parent (i : Nat) : Nat := s.parents[i]?.getD i

def rank (i : Nat) : Nat := s.ranks[i]?.getD 0

def hang (i j : Nat) : DisjointSets := { s with parents := s.parents.setIfInBounds i j }

def climb : Nat → DisjointSets → Nat → Nat × DisjointSets
  | 0, s, i => (i, s)
  | steps + 1, s, i =>
    if s.parent i = i then (i, s)
    else
      let above := s.parent (s.parent i)
      climb steps (s.hang i above) above

def find (i : Nat) : Nat × DisjointSets := climb s.parents.size s i

def link (i j : Nat) : Bool × DisjointSets :=
  if i = j then (false, s)
  else if s.rank i < s.rank j then (true, s.hang i j)
  else if s.rank j < s.rank i then (true, s.hang j i)
  else (true, { s.hang j i with ranks := s.ranks.modify i (· + 1) })

def union (i j : Nat) : Bool × DisjointSets :=
  let (i, s) := s.find i
  let (j, s) := s.find j
  s.link i j

end DisjointSets
end Bayes
