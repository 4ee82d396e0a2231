import Bayes.Proofs.Propagation.Workers.Collecting
import Bayes.Proofs.Propagation.Workers.Distributing
/-!
The workers never change a propagation. On every tree that can be built, with any factors and in any
arithmetic, sharing the passes gives what one worker gives, who visits the cliques one after another.
-/
namespace Bayes.Propagator

variable {α : Type} [Scalar α] {p : Propagator α}

/-- Workers may share both passes in any way. -/
theorem schedule_irrelevant {cliques : List (List Nat)} {t : JunctionTree} {families : List Nat}
    (ht : JunctionTree.build (α := α) cliques = .ok t) (hp : p.tree = { t with families })
    (hrun : p.cancelled = false) :
    (∀ how steps w, p.collectSteps? how steps = some w → p.CollectsRight how steps w) ∧
    (∀ collected turns w, p.distributeTurns? collected turns = some w →
      p.DistributesRight collected turns w) ∧
    ∀ collected (order : List Nat), order.Perm (List.range p.tree.size) →
      InOrder p.tree.AwaitsParent order → p.distribute collected =
        let s := order.foldl (p.spread collected) ⟨p.noMail, p.noMail⟩
        .ok ⟨collected.upward, s.downward, s.beliefs, collected.logTotal p.tree.root⟩ := by
  have hrooted : p.tree.Rooted := by
    rw [hp]
    exact (JunctionTree.build_spec ht).1.withFamilies families
  exact ⟨fun how steps w => collectsRight hrooted hrun,
    fun collected turns w => distributesRight hrooted hrun,
    fun collected order => distribute_of_order hrooted hrun collected⟩

def starTree : JunctionTree :=
  ⟨#[[0, 1], [1, 2], [1, 3]], [⟨0, 1, [1]⟩, ⟨0, 2, [1]⟩],
    [⟨0, none, [], 0⟩, ⟨1, some 0, [1], 1⟩, ⟨2, some 0, [1], 1⟩], []⟩

theorem build_star : JunctionTree.build [[0, 1], [1, 2], [1, 3]] =
    (.ok starTree : Except (Error ℝ) JunctionTree) := by cbv

noncomputable def star : Propagator ℝ := ⟨starTree, #[.unit, .unit, .unit], false⟩

/-- Both leaves are visited before one of them tells the root, the higher one first each time. -/
theorem schedule_irrelevant_of_star :
    JunctionTree.build [[0, 1], [1, 2], [1, 3]] = (.ok starTree : Except (Error ℝ) JunctionTree) ∧
    ∃ w, star.collectSteps? .sum [.visit 2, .visit 1, .notify 2, .notify 1, .visit 0, .notify 0] =
        some w ∧ star.collect .sum = .ok w.collected ∧
      ∃ w', star.distributeTurns? w.collected [0, 2, 1] = some w' ∧
        star.distribute w.collected = .ok ⟨w.collected.upward, w'.spread.downward, w'.spread.beliefs,
          w.collected.logTotal 0⟩ := by
  have htree : star.tree = { starTree with families := [] } := rfl
  obtain ⟨hcollect, hdistribute, -⟩ := schedule_irrelevant build_star htree rfl
  obtain ⟨w, hw, hready, hsilent⟩ : ∃ w, star.collectSteps? .sum
      [.visit 2, .visit 1, .notify 2, .notify 1, .visit 0, .notify 0] = some w ∧
        w.ready = [] ∧ w.silent = [] := ⟨_, rfl, rfl, rfl⟩
  obtain ⟨w', hw', hready'⟩ : ∃ w', star.distributeTurns? w.collected [0, 2, 1] = some w' ∧
      w'.ready = [] := ⟨_, rfl, rfl⟩
  exact ⟨build_star, w, hw, (hcollect _ _ _ hw).result ⟨hready, hsilent⟩, w', hw',
    (hdistribute _ _ _ hw').result hready'⟩

end Bayes.Propagator
