import Topiary.Adapter
import Topiary.ChildEdit
import Topiary.Children
import Topiary.Dependency.Graph
import Topiary.Dependency.Schedule
import Topiary.Dependency.Vertex
import Topiary.Edit
import Topiary.Fault
import Topiary.Identity
import Topiary.Inspect
import Topiary.Location
import Topiary.MultiZipper
import Topiary.Options
import Topiary.Parallel.Task
import Topiary.Parallel.Walk
import Topiary.Proofs.ChildEdit.Counted
import Topiary.Proofs.ChildEdit.Positional
import Topiary.Proofs.ChildEdit.Refusal
import Topiary.Proofs.ChildEdit.Stray
import Topiary.Proofs.ChildEdit.Words
import Topiary.Proofs.Children.Building
import Topiary.Proofs.Dependency.Books
import Topiary.Proofs.Dependency.Closure
import Topiary.Proofs.Dependency.Consistent
import Topiary.Proofs.Dependency.Cycle
import Topiary.Proofs.Dependency.Deeds
import Topiary.Proofs.Dependency.Delivery
import Topiary.Proofs.Dependency.Detection
import Topiary.Proofs.Dependency.Fixpoint
import Topiary.Proofs.Dependency.Height
import Topiary.Proofs.Dependency.Journal
import Topiary.Proofs.Dependency.Levels
import Topiary.Proofs.Dependency.Orderly
import Topiary.Proofs.Dependency.Outline
import Topiary.Proofs.Dependency.Passes
import Topiary.Proofs.Dependency.Storage
import Topiary.Proofs.Dependency.Tidy
import Topiary.Proofs.MultiZipper.Absorb
import Topiary.Proofs.MultiZipper.Fold
import Topiary.Proofs.MultiZipper.Grouping
import Topiary.Proofs.MultiZipper.SingleEdit
import Topiary.Proofs.MultiZipper.Standing
import Topiary.Proofs.MultiZipper.ToRoot
import Topiary.Proofs.MultiZipper.Trail
import Topiary.Proofs.Parallel.Interleaving
import Topiary.Proofs.Parallel.Schedules
import Topiary.Proofs.Parallel.Task
import Topiary.Proofs.Transform.Account
import Topiary.Proofs.Transform.Accounting
import Topiary.Proofs.Transform.Agreement
import Topiary.Proofs.Transform.Callback
import Topiary.Proofs.Transform.Editor
import Topiary.Proofs.Transform.Leaving
import Topiary.Proofs.Transform.Local
import Topiary.Proofs.Transform.Mirror
import Topiary.Proofs.Transform.Notes
import Topiary.Proofs.Transform.Plan
import Topiary.Proofs.Transform.Planning
import Topiary.Proofs.Transform.Quit
import Topiary.Proofs.Transform.Recursion
import Topiary.Proofs.Transform.Safety
import Topiary.Proofs.Transform.Sharing
import Topiary.Proofs.Transform.Shelf
import Topiary.Proofs.Transform.Signing
import Topiary.Proofs.Transform.Slots
import Topiary.Proofs.Tree
import Topiary.Proofs.Walk.Agenda
import Topiary.Proofs.Walk.Alike
import Topiary.Proofs.Walk.Breadcrumbs
import Topiary.Proofs.Walk.Cells
import Topiary.Proofs.Walk.DepthFirst
import Topiary.Proofs.Walk.Errands
import Topiary.Proofs.Walk.Exploration
import Topiary.Proofs.Walk.ForkJoin
import Topiary.Proofs.Walk.Lineage
import Topiary.Proofs.Walk.Nesting
import Topiary.Proofs.Walk.Reach
import Topiary.Proofs.Walk.Recursive
import Topiary.Proofs.Walk.SimplePath
import Topiary.Proofs.Walk.Tour
import Topiary.Proofs.Walk.Turn
import Topiary.Proofs.Zipper.Graft
import Topiary.Reckoning
import Topiary.Record
import Topiary.Script.Event
import Topiary.Script.NodeExpr
import Topiary.Script.Rule
import Topiary.Script.Visitor
import Topiary.Text.CodeRange
import Topiary.Text.Extending
import Topiary.Text.Ignorable
import Topiary.Text.Line
import Topiary.Text.Quoted
import Topiary.Text.Unprintable
import Topiary.Transform
import Topiary.Tree
import Topiary.Vars
import Topiary.Walk.Context
import Topiary.Walk.Run
import Topiary.Walk.Worklist
import Topiary.Workbench
import Topiary.Zipper
import Topiary.Proofs.Parallel.Breadcrumbs
import Topiary.Proofs.Walk.BreadthFirst
