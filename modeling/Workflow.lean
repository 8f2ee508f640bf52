import Workflow.Adjacency
import Workflow.Branch
import Workflow.Call
import Workflow.Catalog
import Workflow.Context.Basic
import Workflow.Context.Text
import Workflow.Decimal.Literal
import Workflow.Decimal.Shortest
import Workflow.Digraph.Search
import Workflow.Proofs.Search
import Workflow.Event
import Workflow.Graph
import Workflow.Join
import Workflow.Json.Basic
import Workflow.Json.Encode
import Workflow.Json.Printer
import Workflow.Json.Quoted
import Workflow.Json.Reader
import Workflow.Json.Shape
import Workflow.Link
import Workflow.Node
import Workflow.OrderedMap
import Workflow.Outcome
import Workflow.Plan
import Workflow.Program.Basic
import Workflow.Program.Script
import Workflow.Report
import Workflow.Run
import Workflow.Text.Hidden
import Workflow.Text.Quoted
import Workflow.Traversal
import Workflow.Validation
import Workflow.Proofs.Reachability
import Workflow.Proofs.Admission
import Workflow.Proofs.VisitOrder
import Workflow.Proofs.Perform
import Workflow.Proofs.Visits
import Workflow.Proofs.Alike
import Workflow.Proofs.Reordering
import Workflow.Proofs.Replay
import Workflow.Proofs.Phases
import Workflow.Proofs.Activation
import Workflow.Proofs.Execution
import Workflow.Proofs.Endings
import Workflow.Proofs.LivePaths
import Workflow.Proofs.FirstPath
import Workflow.Proofs.CycleReports
import Workflow.Proofs.Relabelling
import Workflow.Proofs.RenamedRuns
import Workflow.Proofs.SideBySide
import Workflow.Proofs.Batches
import Workflow.Proofs.RepeatedLinks
import Workflow.Proofs.IfElse
import Workflow.Proofs.Indexes
import Workflow.Proofs.DefectReports
import Workflow.Proofs.NestedVisits
import Workflow.Proofs.NestedSearch
import Workflow.Proofs.Logs
import Workflow.Proofs.RunLogs
import Workflow.Proofs.KeyOrder
import Workflow.Context.Change
import Workflow.Proofs.History
import Workflow.Proofs.Literals
import Workflow.Proofs.ReadBack
import Workflow.Proofs.Loading
import Workflow.Proofs.ReportText
import Workflow.Proofs.LookUps
import Workflow.Proofs.LookUps
