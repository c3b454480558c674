import Sketch.CommandLine.LogLevel
import Sketch.CommandLine.OutputKind
import Sketch.Main
import Sketch.Proofs.Accounts
import Sketch.Proofs.Appearance
import Sketch.Proofs.ArgumentGroups
import Sketch.Proofs.Atomicity
import Sketch.Proofs.Circles
import Sketch.Proofs.ColorNames
import Sketch.Proofs.Descriptions
import Sketch.Proofs.Diagnosis
import Sketch.Proofs.Documents
import Sketch.Proofs.Ellipses
import Sketch.Proofs.Extents
import Sketch.Proofs.Faults
import Sketch.Proofs.Floor
import Sketch.Proofs.Grid
import Sketch.Proofs.Lines
import Sketch.Proofs.Lookahead
import Sketch.Proofs.Marker
import Sketch.Proofs.Numerals
import Sketch.Proofs.OutputPaths
import Sketch.Proofs.Render
import Sketch.Proofs.ResultLines
import Sketch.Proofs.SignedZeros
import Sketch.Proofs.Styling
import Sketch.Proofs.Subcommands
import Sketch.Proofs.Views
import Sketch.Proofs.Writing
