import AuditHours.CommandLine.Arguments
import AuditHours.CommandLine.Execution
import AuditHours.CommandLine.Options
import AuditHours.CommandLine.Token
import AuditHours.Compiler.Bridge
import AuditHours.Compiler.Diagnostic
import AuditHours.Compiler.Inventory
import AuditHours.Compiler.Job
import AuditHours.Compiler.Toolchain
import AuditHours.Estimate.Pipeline
import AuditHours.Estimate.Score
import AuditHours.Failure
import AuditHours.Files.Path
import AuditHours.Files.TextFile
import AuditHours.Files.Tree
import AuditHours.Http.Address
import AuditHours.Http.Client
import AuditHours.Http.Host
import AuditHours.Http.Network
import AuditHours.Import.Closure
import AuditHours.Import.Resolver
import AuditHours.Json.Plain
import AuditHours.Json.Printer
import AuditHours.Json.Reader
import AuditHours.Json.Value
import AuditHours.Log.Layout
import AuditHours.Log.Logger
import AuditHours.Log.Moment
import AuditHours.Log.Pattern
import AuditHours.Log.Record
import AuditHours.Log.Setup
import AuditHours.Main
import AuditHours.Number.Amount
import AuditHours.Number.Binary64
import AuditHours.Number.Exponent
import AuditHours.Number.Literal
import AuditHours.Number.Rounding
import AuditHours.Number.Shortest
import AuditHours.Number.Text
import AuditHours.Report.Delivery
import AuditHours.Report.Hours
import AuditHours.Report.Layout
import AuditHours.Report.Template
import AuditHours.Settings.Dotenv
import AuditHours.Settings.Reading
import AuditHours.Source.Comments
import AuditHours.Source.Imports
import AuditHours.Source.Pragma
import AuditHours.Source.Signals
import AuditHours.Text.Character
import AuditHours.Text.LowerCase
import AuditHours.Text.Printable
import AuditHours.Text.Quoted
import AuditHours.Text.Utf8
import AuditHours.Validation.Checked
import AuditHours.Validation.Scalar
import AuditHours.Version.Build
import AuditHours.Version.Cache
import AuditHours.Version.Resolver
import AuditHours.Version.Sharing
import AuditHours.Weights.File
import AuditHours.Weights.Overlay
import AuditHours.Weights.Reading
import AuditHours.Weights.Table
import AuditHours.World
import AuditHours.Proofs.Basic
import AuditHours.Proofs.Sharing.Run
import AuditHours.Proofs.Sharing.Coherence
import AuditHours.Proofs.Sharing.SingleFlight
import AuditHours.Proofs.Sharing.Progress
import AuditHours.Proofs.Compiler.Outcome
import AuditHours.Proofs.Compiler.UnreadableImports
import AuditHours.Proofs.Compiler.Course
import AuditHours.Proofs.Estimate.Asking
import AuditHours.Proofs.Estimate.ContractImports
import AuditHours.Proofs.Sharing.SharedFailures
import AuditHours.Proofs.Import.Exploration
import AuditHours.Proofs.Import.ImportClosure
import AuditHours.Proofs.Validation.Acceptance
import AuditHours.Proofs.Weights.Laying
import AuditHours.Proofs.Weights.LeafByLeaf
import AuditHours.Proofs.Weights.Composition
import AuditHours.Proofs.Version.Memo
import AuditHours.Proofs.Staging
import AuditHours.Proofs.Compiler.Staging
import AuditHours.Proofs.Estimate.Staging
import AuditHours.Proofs.Compiler.StandardOutput
import AuditHours.Proofs.Json.Scalars
import AuditHours.Proofs.Json.RoundTrip
import AuditHours.Proofs.Files.Writing
import AuditHours.Proofs.Report.RoundTrip
import AuditHours.Proofs.Compiler.Failing
import AuditHours.Proofs.Import.Termination
import AuditHours.Proofs.Files.Making
import AuditHours.Proofs.Report.Delivery
import AuditHours.Proofs.CommandLine.Outcome
import AuditHours.Proofs.Report.Rendering
import AuditHours.Proofs.CommandLine.Delivering
import AuditHours.Proofs.Source.Layout
import AuditHours.Proofs.Source.Declarations
import AuditHours.Proofs.Source.Restripping
import AuditHours.Proofs.Import.Answering
import AuditHours.Proofs.Weights.OverlayFile
import AuditHours.Proofs.Weights.DocumentForm
import AuditHours.Proofs.Weights.Violated
import AuditHours.Proofs.Weights.Reports
import AuditHours.Proofs.Weights.Correcting
import AuditHours.Proofs.Weights.Violations
import AuditHours.Proofs.Version.CatalogShapes
import AuditHours.Proofs.Import.Packages
import AuditHours.Proofs.Files.Canonical
import AuditHours.Proofs.Import.Spelling
import AuditHours.Proofs.Source.Embedding
import AuditHours.Proofs.Weights.Exact
import AuditHours.Proofs.Estimate.Monotone
import AuditHours.Proofs.Estimate.ClosedForm
import AuditHours.Proofs.Number.Packing
import AuditHours.Proofs.Number.Rounding
import AuditHours.Proofs.Number.Amounts
import AuditHours.Proofs.Estimate.Numbers
import AuditHours.Proofs.Import.Vendored
import AuditHours.Proofs.Source.LineSignals
import AuditHours.Proofs.Source.LineEnds
import AuditHours.Proofs.Estimate.FileInput
import AuditHours.Proofs.Number.HalfEven
import AuditHours.Proofs.Report.HoursText
import AuditHours.Proofs.Compiler.Loading
import AuditHours.Proofs.Compiler.Installing
import AuditHours.Proofs.Version.FileNames
import AuditHours.Proofs.Log.Hierarchy
import AuditHours.Proofs.Log.Handling
