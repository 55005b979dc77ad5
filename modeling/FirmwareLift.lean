import FirmwareLift.Main
import FirmwareLift.Proofs.FlowGraph.Refinement
import FirmwareLift.Proofs.Listing
import FirmwareLift.Proofs.Tiling
import FirmwareLift.Proofs.Dataflow.Relabel
import FirmwareLift.Proofs.Routine
import FirmwareLift.Proofs.Session.Operations
import FirmwareLift.Proofs.Session.Code
import FirmwareLift.Proofs.Session.History
import FirmwareLift.Proofs.Session.Coherence
import FirmwareLift.Proofs.FlowGraph.Reachable
import FirmwareLift.Proofs.Pseudocode.Ending
import FirmwareLift.Proofs.Pseudocode.Coverage
import FirmwareLift.Proofs.Pseudocode.Outline
import FirmwareLift.Proofs.Discovery
import FirmwareLift.Proofs.Session.Ranges
import FirmwareLift.Proofs.Dataflow.Problem
import FirmwareLift.Proofs.Dataflow.Liveness
import FirmwareLift.Proofs.Dataflow.Execution
import FirmwareLift.Proofs.FlowGraph.Dominance
import FirmwareLift.Proofs.FlowGraph.Dominators
import FirmwareLift.Proofs.FlowGraph.Derived
import FirmwareLift.Proofs.FlowGraph.Naming
import FirmwareLift.Proofs.Operand
import FirmwareLift.Proofs.Pseudocode.Effect
import FirmwareLift.Proofs.Pseudocode.Reading
import FirmwareLift.Proofs.Pseudocode.Substitution
import FirmwareLift.Proofs.Session.Gating
import FirmwareLift.Proofs.Session.Located
import FirmwareLift.Proofs.Session.Reanalysis
import FirmwareLift.Proofs.Calls
import FirmwareLift.Proofs.Session.Findings
import FirmwareLift.Proofs.Dataflow.Types
import FirmwareLift.Proofs.Dataflow.Reaching
import FirmwareLift.Proofs.Pseudocode.Returns
import FirmwareLift.Proofs.Declarations
import FirmwareLift.Proofs.Detection.Annotation
import FirmwareLift.Proofs.Detection.Usage
import FirmwareLift.Proofs.Table
import FirmwareLift.Proofs.Json.RoundTrip
import FirmwareLift.Proofs.Json.Record
import FirmwareLift.Proofs.Descriptor
import FirmwareLift.Proofs.FlowGraph.NaturalLoops
import FirmwareLift.Proofs.FlowGraph.DeadCode
import FirmwareLift.Proofs.Targets
import FirmwareLift.Proofs.Locality
import FirmwareLift.Proofs.Signature
import FirmwareLift.Proofs.PassCounts
import FirmwareLift.Proofs.Dataflow.Reruns
import FirmwareLift.Proofs.FlowGraph.Cycles
import FirmwareLift.Proofs.Grammar
import FirmwareLift.Proofs.Pseudocode.Idiom
import FirmwareLift.Proofs.Pseudocode.Partition
import FirmwareLift.Proofs.Pseudocode.Priority
import FirmwareLift.Proofs.Detection.Constants
import FirmwareLift.Proofs.Detection.Tasks
import FirmwareLift.Proofs.Detection.Values
import FirmwareLift.Proofs.Detection.Order
import FirmwareLift.Proofs.Detection.Footprint
import FirmwareLift.Proofs.Detection.Registers
import FirmwareLift.Proofs.Padding
import FirmwareLift.Proofs.Denotation
