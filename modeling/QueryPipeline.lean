import QueryPipeline.Json.Pipeline
import QueryPipeline.Pipeline.Lowering
import QueryPipeline.Query.Draft
import QueryPipeline.Run.Pipeline
import QueryPipeline.Proofs.Computation
import QueryPipeline.Proofs.Eval
import QueryPipeline.Proofs.Reach
import QueryPipeline.Proofs.Assigned
import QueryPipeline.Proofs.Grounded
import QueryPipeline.Proofs.Paths
import QueryPipeline.Proofs.Chain
import QueryPipeline.Proofs.Scope
import QueryPipeline.Proofs.Lowering
import QueryPipeline.Proofs.Rejections
import QueryPipeline.Proofs.Policies
import QueryPipeline.Proofs.WellFormed
import QueryPipeline.Proofs.Plans
import QueryPipeline.Proofs.Dropping
import QueryPipeline.Proofs.StageByStage
import QueryPipeline.Proofs.Packing
import QueryPipeline.Proofs.Outcomes
import QueryPipeline.Proofs.Stages
import QueryPipeline.Proofs.Carried
import QueryPipeline.Proofs.ShapeSafety
import QueryPipeline.Proofs.BoundVariables
import QueryPipeline.Proofs.Isolation
import QueryPipeline.Proofs.NestedLoop
import QueryPipeline.Proofs.Refinement
import QueryPipeline.Proofs.HandedOn
import QueryPipeline.Proofs.Siblings
import QueryPipeline.Proofs.PatternTypes
import QueryPipeline.Proofs.Renaming
import QueryPipeline.Proofs.SameTree
import QueryPipeline.Proofs.Coupling
import QueryPipeline.Proofs.Noninterference
import QueryPipeline.Proofs.Interning
import QueryPipeline.Proofs.Sharing
import QueryPipeline.Proofs.RoundTrip
import QueryPipeline.Proofs.Ambiguity
import QueryPipeline.Proofs.EarlyUses
import QueryPipeline.Proofs.Grammar
import QueryPipeline.Proofs.BindingTable
import QueryPipeline.Proofs.Postordered
import QueryPipeline.Proofs.Traversals
import QueryPipeline.Proofs.SymbolTable
