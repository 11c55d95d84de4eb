import FlowGraph.Main
import FlowGraph.Proofs.OrdMap
import FlowGraph.Proofs.Tables
import FlowGraph.Proofs.Wiring
import FlowGraph.Proofs.Meaning
import FlowGraph.Proofs.DepthFirst
import FlowGraph.Proofs.Routes
import FlowGraph.Proofs.TopDown
import FlowGraph.Proofs.DominatorTree
import FlowGraph.Proofs.Frontier
import FlowGraph.Proofs.Removal
import FlowGraph.Proofs.Outline
import FlowGraph.Proofs.Placement
import FlowGraph.Proofs.Renaming
import FlowGraph.Proofs.Conversion
import FlowGraph.Proofs.IteratedFrontier
import FlowGraph.Proofs.SingleAssignment
import FlowGraph.Proofs.ConversionMeaning
import FlowGraph.Proofs.Components
import FlowGraph.Proofs.Schedule
import FlowGraph.Proofs.Turns
import FlowGraph.Proofs.Splicing
import FlowGraph.Proofs.Leaving
import FlowGraph.Proofs.Behaviour
import FlowGraph.Proofs.Manners
import FlowGraph.Proofs.Building
import FlowGraph.Proofs.Bypass
import FlowGraph.Proofs.Tidying
import FlowGraph.Proofs.RoundTrip
import FlowGraph.Proofs.Labels
import FlowGraph.Proofs.LayingOut
import FlowGraph.Proofs.PassageBehaviour
import FlowGraph.Proofs.Dominators
import FlowGraph.Proofs.Outcomes
import FlowGraph.Proofs.Handles
import FlowGraph.Proofs.Actions
import FlowGraph.Proofs.Growth
import FlowGraph.Proofs.Rerouting
import FlowGraph.Proofs.Upkeep
import FlowGraph.Proofs.Chains
import FlowGraph.Proofs.ChainShape
import FlowGraph.Proofs.Conversions
import FlowGraph.Proofs.Batches
import FlowGraph.Proofs.Histories
import FlowGraph.Proofs.Freshness
import FlowGraph.Proofs.Completeness
import FlowGraph.Proofs.Construction
import FlowGraph.Proofs.PassageFaults
import FlowGraph.Proofs.Contraction
import FlowGraph.Proofs.Trimming
import FlowGraph.Proofs.Segments
import FlowGraph.Proofs.Rebuilding
import FlowGraph.Proofs.Paths
import FlowGraph.Proofs.LockStep
import FlowGraph.Proofs.Relabelling
import FlowGraph.Proofs.FixedPoint
import FlowGraph.Proofs.HandingOn
import FlowGraph.Proofs.SoloPhis
import FlowGraph.Proofs.DefinedOnce
import FlowGraph.Proofs.SteppingOver
import FlowGraph.Proofs.BypassMeaning
import FlowGraph.Proofs.CleanLayout
import FlowGraph.Proofs.Neatening
import FlowGraph.Proofs.NormalForm
import FlowGraph.Proofs.DefinitionsKept
import FlowGraph.Proofs.Renewal
import FlowGraph.Proofs.Incidents
import FlowGraph.Proofs.TidyMeaning
import FlowGraph.Proofs.BranchMeaning
import FlowGraph.Proofs.Inheritance
import FlowGraph.Proofs.BypassForm
import FlowGraph.Proofs.LeavingShape
import FlowGraph.Proofs.Keeping
import FlowGraph.Proofs.Erasure
import FlowGraph.Proofs.JsonText
import FlowGraph.Proofs.ProgramText
import FlowGraph.Proofs.StructuralCheck
import FlowGraph.Proofs.BatchAnswers
import FlowGraph.Proofs.DrawnText
import FlowGraph.Proofs.Replacing
import FlowGraph.Proofs.InverseOrder
import FlowGraph.Proofs.ComponentGraph
import FlowGraph.Proofs.DominanceLoops
