import Bayes.Scalar
import Bayes.Capacity
import Bayes.Error
import Bayes.Decimal.Binary
import Bayes.Decimal.Rounded
import Bayes.Decimal.Shortest
import Bayes.Document
import Bayes.Document.Reader
import Bayes.Config
import Bayes.Document.Config
import Bayes.Document.Error
import Bayes.Scope
import Bayes.Graph
import Bayes.Graph.Chordal
import Bayes.TableSize
import Bayes.Elimination
import Bayes.Triangulation
import Bayes.DisjointSets
import Bayes.JunctionTree
import Bayes.JunctionTree.Build
import Bayes.Table
import Bayes.VarMap
import Bayes.Potential
import Bayes.Potential.Defined
import Bayes.Message
import Bayes.Propagation
import Bayes.Propagation.MaxProduct
import Bayes.Propagation.Defined
import Bayes.Propagation.Workers
import Bayes.Network
import Bayes.Network.Order
import Bayes.Network.Edit
import Bayes.Network.Declaration
import Bayes.Network.Moral
import Bayes.JunctionTree.Families
import Bayes.Document.Network
import Bayes.Evidence
import Bayes.Marginal
import Bayes.Snapshot
import Bayes.Sensitivity
import Bayes.Engine
import Bayes.Engine.Session
import Bayes.Engine.Defined
import Bayes.Random.Network
import Bayes.Random.Words
import Bayes.Document.Random
import Bayes.Text.Blank
import Bayes.Report
import Bayes.Report.Arguments
import Bayes.Main
import Bayes.Proofs.Exact
import Bayes.Proofs.Assignment
import Bayes.Proofs.Table
import Bayes.Proofs.Table.Axes
import Bayes.Proofs.VarMap
import Bayes.Proofs.Scope
import Bayes.Proofs.Potential.Index
import Bayes.Proofs.Potential.Shaped
import Bayes.Proofs.Potential.Form
import Bayes.Proofs.Potential.Product
import Bayes.Proofs.Potential.Elimination
import Bayes.Proofs.Extended
import Bayes.Proofs.Potential.Distributive
import Bayes.Proofs.Potential
import Bayes.Proofs.Potential.Entries
import Bayes.Proofs.Potential.Mass
import Bayes.Proofs.Potential.Conditioning
import Bayes.Proofs.Message.Represented
import Bayes.Proofs.Message
import Bayes.Proofs.Message.Extended
import Bayes.Proofs.Message.Recipe
import Bayes.Proofs.DisjointSets
import Bayes.Proofs.DisjointSets.Run
import Bayes.Proofs.JunctionTree.Spanning
import Bayes.Proofs.JunctionTree.Walk
import Bayes.Proofs.JunctionTree.Rooted
import Bayes.Proofs.JunctionTree.Below
import Bayes.Proofs.Forest
import Bayes.Proofs.JunctionTree.Overlap
import Bayes.Proofs.JunctionTree.Heaviest
import Bayes.Proofs.JunctionTree.WellFormed
import Bayes.Proofs.JunctionTree.Ear
import Bayes.Proofs.Propagation
import Bayes.Proofs.Propagation.LeaveOneOut
import Bayes.Proofs.Propagation.Collect
import Bayes.Proofs.Propagation.Distribute
import Bayes.Proofs.Propagation.Calibrate
import Bayes.Proofs.Propagation.Order
import Bayes.Proofs.Propagation.Workers.Collecting
import Bayes.Proofs.Propagation.Workers.Distributing
import Bayes.Proofs.Propagation.Workers
import Bayes.Proofs.Propagation.Visit
import Bayes.Proofs.Potential.Best
import Bayes.Proofs.Propagation.MaxProduct
import Bayes.Proofs.Distinct
import Bayes.Proofs.Call
import Bayes.Proofs.Network.Parts
import Bayes.Proofs.Network.Edit
import Bayes.Proofs.Network.Path
import Bayes.Proofs.Network.Search
import Bayes.Proofs.Network.Consistent
import Bayes.Proofs.Network
import Bayes.Proofs.Network.InPlace
import Bayes.Proofs.Potential.AxisOrder
import Bayes.Proofs.Network.Edges
import Bayes.Proofs.Network.Insertion
import Bayes.Proofs.Network.Order
import Bayes.Proofs.Network.Countdown
import Bayes.Proofs.Network.Rounds
import Bayes.Proofs.Network.Declaration
import Bayes.Proofs.Random
import Bayes.Proofs.Network.Rebuild
import Bayes.Proofs.Elimination
import Bayes.Proofs.Elimination.MinFill
import Bayes.Proofs.Graph.Edges
import Bayes.Proofs.Graph.Induced
import Bayes.Proofs.Graph.Chordal
import Bayes.Proofs.Triangulation
import Bayes.Proofs.Triangulation.Maximal
import Bayes.Proofs.Triangulation.Filled
import Bayes.Proofs.Triangulation.Chordal
import Bayes.Proofs.Compiled
import Bayes.Proofs.JunctionTree.Families
import Bayes.Proofs.Compilation
import Bayes.Proofs.Network.Moral
import Bayes.Proofs.Evidence
import Bayes.Proofs.Evidence.Counting
import Bayes.Proofs.Evidence.Changes
import Bayes.Proofs.Evidence.InPlace
import Bayes.Proofs.Evidence.Frozen
import Bayes.Proofs.Evidence.Bulk
import Bayes.Proofs.Joint
import Bayes.Proofs.Network.Surgery
import Bayes.Proofs.Snapshot
import Bayes.Proofs.Inference
import Bayes.Proofs.Explanation
import Bayes.Proofs.Intervention
import Bayes.Proofs.Factorization
import Bayes.Proofs.Rows
import Bayes.Proofs.Upstream
import Bayes.Proofs.Tolerance
import Bayes.Proofs.Surroundings
import Bayes.Proofs.Sensitivity
import Bayes.Proofs.Serving
import Bayes.Proofs.Refusals
import Bayes.Proofs.Session
import Bayes.Proofs.Cancellation
import Bayes.Proofs.Posterior
import Bayes.Proofs.TableSize
