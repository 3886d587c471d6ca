import Bundler.Build.Harness
import Bundler.Build.Installer
import Bundler.Build.Missing
import Bundler.Build.Result
import Bundler.Build.Run
import Bundler.Build.Script
import Bundler.Build.StyleOutcome
import Bundler.Build.Styling
import Bundler.Build.Workplace
import Bundler.Cache.Manifest
import Bundler.Cache.Store
import Bundler.Command.Line
import Bundler.Command.Perform
import Bundler.Decimal.Grid
import Bundler.Decimal.Layout
import Bundler.Disk.Change
import Bundler.Disk.Locking
import Bundler.Disk.Path
import Bundler.Disk.Tree
import Bundler.Host.Call
import Bundler.Host.Description
import Bundler.Host.Limits
import Bundler.Host.Run
import Bundler.Host.Spawn
import Bundler.Host.State
import Bundler.Json.Basic
import Bundler.Json.Bounds
import Bundler.Json.Display
import Bundler.Json.Quantity
import Bundler.Json.Reader
import Bundler.Json.Writer
import Bundler.Main
import Bundler.Package.Name
import Bundler.Package.Offender
import Bundler.Program.Answer
import Bundler.Program.Pass
import Bundler.Program.Text
import Bundler.Proofs.Absence
import Bundler.Proofs.Answering
import Bundler.Proofs.Arguments
import Bundler.Proofs.Blaming
import Bundler.Proofs.Bounding
import Bundler.Proofs.Calling
import Bundler.Proofs.Canonical
import Bundler.Proofs.Comparing
import Bundler.Proofs.Complaints
import Bundler.Proofs.Deferring
import Bundler.Proofs.Delivering
import Bundler.Proofs.Discovering
import Bundler.Proofs.Embedding
import Bundler.Proofs.Emitting
import Bundler.Proofs.Following
import Bundler.Proofs.Growing
import Bundler.Proofs.Injecting
import Bundler.Proofs.Inscribing
import Bundler.Proofs.Installing
import Bundler.Proofs.Keeping
import Bundler.Proofs.Lodging
import Bundler.Proofs.Mounting
import Bundler.Proofs.Names
import Bundler.Proofs.Pairing
import Bundler.Proofs.Parsing
import Bundler.Proofs.Picking
import Bundler.Proofs.Places
import Bundler.Proofs.Quiet
import Bundler.Proofs.Reading
import Bundler.Proofs.Refusals
import Bundler.Proofs.Relaying
import Bundler.Proofs.Repeating
import Bundler.Proofs.Reporting
import Bundler.Proofs.Running
import Bundler.Proofs.Sharing
import Bundler.Proofs.Spelling
import Bundler.Proofs.Step
import Bundler.Proofs.Telling
import Bundler.Proofs.Watching
import Bundler.Proofs.Weighing
import Bundler.Proofs.Wording
import Bundler.Proofs.Writing
import Bundler.Report.Diagnostic
import Bundler.Report.Envelope
import Bundler.Report.ErrorType
import Bundler.Report.Failure
import Bundler.Report.Mismatch
import Bundler.Report.Rule
import Bundler.Settings
import Bundler.Text.Ansi
import Bundler.Text.Blank
import Bundler.Text.Digit
import Bundler.Text.Hex
import Bundler.Text.Line
import Bundler.Text.Numeral
import Bundler.Text.Percent
import Bundler.Text.Printable
import Bundler.Text.Quoted
import Bundler.Text.Search
import Bundler.Text.Template
import Bundler.Text.Utf8
import Bundler.Tools.Toolchain
import Bundler.Tools.Version
import Bundler.Watch
