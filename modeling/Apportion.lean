import Apportion.Apply
import Apportion.Artifact
import Apportion.Build
import Apportion.BuildError
import Apportion.Builtin
import Apportion.Change
import Apportion.CommandLine.Arguments
import Apportion.CommandLine.LogFilter
import Apportion.CommandLine.Report
import Apportion.CommandLine.Run
import Apportion.Discovery
import Apportion.Edit
import Apportion.Edit.Trace
import Apportion.EmitReport
import Apportion.FileTree
import Apportion.IgnoreList
import Apportion.Json
import Apportion.Json.Decode
import Apportion.Json.Printer
import Apportion.Json.Reader
import Apportion.Main
import Apportion.Package
import Apportion.Path
import Apportion.Path.Relative
import Apportion.PathMap
import Apportion.Plan
import Apportion.PositionMap.Compose
import Apportion.PositionMap.Document
import Apportion.PositionMap.Mappings
import Apportion.Resolve
import Apportion.Settings
import Apportion.Settings.Load
import Apportion.Text.Character
import Apportion.Text.Offsets
import Apportion.Text.Pattern
import Apportion.Text.Split
import Apportion.Toml
import Apportion.Toml.Reader
import Apportion.Toml.Scalar
import Apportion.Toml.Table
import Apportion.Workspace
import Apportion.Workspace.Disk
import Apportion.Workspace.Memory
import Apportion.Proofs.Path.Components
import Apportion.Proofs.Path.Normal
import Apportion.Proofs.Path.Extension
import Apportion.Proofs.PathMap
import Apportion.Proofs.Plan.Changes
import Apportion.Proofs.FileTree
import Apportion.Proofs.Workspace.Calls
import Apportion.Proofs.Discovery
import Apportion.Proofs.Plan.Roots
import Apportion.Proofs.Plan.Destinations
import Apportion.Proofs.Plan.Writers
import Apportion.Proofs.Build.Prepare
import Apportion.Proofs.Workspace.Keeping
import Apportion.Proofs.Build.Apply
import Apportion.Proofs.Build.Rollback
import Apportion.Proofs.Build.EmittedTree
import Apportion.Proofs.PositionMap.Mappings
import Apportion.Proofs.Edit.Buffer
import Apportion.Proofs.Edit.Places
import Apportion.Proofs.Edit.Trace
import Apportion.Proofs.PositionMap.Compose
import Apportion.Proofs.Edit.Positions
import Apportion.Proofs.Edit.Marks
import Apportion.Proofs.Edit.Calls
import Apportion.Proofs.Path.Relative
import Apportion.Proofs.Plan.Revisions
import Apportion.Proofs.Plan.Sources
import Apportion.Proofs.Build.Effect
import Apportion.Proofs.Build.Written
import Apportion.Proofs.Path.Appended
import Apportion.Proofs.Path.Tidy
import Apportion.Proofs.Path.Order
import Apportion.Proofs.Path.Siblings
import Apportion.Proofs.Path.Stems
import Apportion.Proofs.Plan.Lookup
import Apportion.Proofs.Plan.Accounting
import Apportion.Proofs.Build.Work
import Apportion.Proofs.Build.Outcome
import Apportion.Proofs.Edit.Composable
import Apportion.Proofs.Build.Acceptance
import Apportion.Proofs.PositionMap.RoundTrip
import Apportion.Proofs.PositionMap.Tables
import Apportion.Proofs.PositionMap.Join
import Apportion.Proofs.PositionMap.Nearest
import Apportion.Proofs.PositionMap.Stages
import Apportion.Proofs.Plan.References
import Apportion.Proofs.Build.Success
import Apportion.Proofs.Edit.Standing
import Apportion.Proofs.Build.Matching
import Apportion.Proofs.Build.Alike
import Apportion.Proofs.Resolve
import Apportion.Proofs.Plan.Targets
import Apportion.Proofs.Build.Emission
import Apportion.Proofs.Build.Resolution
import Apportion.Proofs.Build.Rebuild
import Apportion.Proofs.Build.Granted
import Apportion.Proofs.Build.Orders
import Apportion.Proofs.Build.Leftover
import Apportion.Proofs.Build.Manifests
import Apportion.Proofs.Plan.Maps
import Apportion.Proofs.Plan.Discovered
import Apportion.Proofs.Json.Compact
import Apportion.Proofs.PositionMap.Document
import Apportion.Proofs.PositionMap.Exact
import Apportion.Proofs.Plan.Overlaps
import Apportion.Proofs.IgnoreList
import Apportion.Proofs.Path.Arithmetic
import Apportion.Proofs.Build.Exports
import Apportion.Proofs.IgnoreList.Kept
import Apportion.Proofs.PathMap.Pairs
import Apportion.Proofs.Settings.EditDistance
import Apportion.Proofs.Text.Lines
import Apportion.Proofs.Toml.Scalar
import Apportion.Proofs.Toml.Quoted
import Apportion.Proofs.Toml.Value
import Apportion.Proofs.Toml.Document
import Apportion.Proofs.Settings.Warnings
