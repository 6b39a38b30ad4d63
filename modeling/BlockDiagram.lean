import BlockDiagram.Completion
import BlockDiagram.Defect
import BlockDiagram.Schedule
import BlockDiagram.Scalar.Double
import BlockDiagram.Digits
import BlockDiagram.Json.Reader
import BlockDiagram.Document.Lowering
import BlockDiagram.Document.Validity
import BlockDiagram.Document.Encoding
import BlockDiagram.Document.Decoding
import BlockDiagram.Storage
import BlockDiagram.Yaml.Cursor
import BlockDiagram.Yaml.Scalar
import BlockDiagram.Yaml.Lexer
import BlockDiagram.Command
import BlockDiagram.Command.Arguments
import BlockDiagram.Command.Report
import BlockDiagram.Main
import BlockDiagram.Proofs.Model.Agreement
import BlockDiagram.Proofs.Model.Settled
import BlockDiagram.Proofs.Grid.Interpolation
import BlockDiagram.Proofs.Model.Scheduling
import BlockDiagram.Proofs.Model.Passes
import BlockDiagram.Proofs.Model.Sound
import BlockDiagram.Proofs.Scalar.Limits
import BlockDiagram.Proofs.Document.Meaning
import BlockDiagram.Proofs.Draft.Growth
import BlockDiagram.Proofs.Model.Holder
import BlockDiagram.Proofs.Draft.Production
import BlockDiagram.Proofs.Document.Formulas
import BlockDiagram.Proofs.Document.Lowered
import BlockDiagram.Proofs.Model.Operation
import BlockDiagram.Proofs.Draft.Realization
import BlockDiagram.Proofs.Draft.Solution
import BlockDiagram.Proofs.Document.Agreement
import BlockDiagram.Proofs.Document.Compilation
import BlockDiagram.Proofs.Model.Caching
import BlockDiagram.Proofs.Model.Transparency
import BlockDiagram.Proofs.Model.Integrity
import BlockDiagram.Proofs.Command.Validation
import BlockDiagram.Proofs.Draft.Closed
import BlockDiagram.Proofs.Draft.Progress
import BlockDiagram.Proofs.Document.Progress
import BlockDiagram.Proofs.Draft.Wirable
import BlockDiagram.Proofs.Document.Declaration
import BlockDiagram.Proofs.Document.Outcome
import BlockDiagram.Proofs.Model.Names
import BlockDiagram.Proofs.Model.Loading
import BlockDiagram.Proofs.Model.Driving
import BlockDiagram.Proofs.Document.Dependence
import BlockDiagram.Proofs.Draft.Needs
import BlockDiagram.Proofs.Document.Layout
import BlockDiagram.Proofs.Document.Arena
import BlockDiagram.Proofs.Document.Feedback
import BlockDiagram.Proofs.Document.Misfits
import BlockDiagram.Proofs.Document.Diagnosis
import BlockDiagram.Proofs.Grid.Multilinear
import BlockDiagram.Proofs.Document.RoundTrip
import BlockDiagram.Proofs.Model.Bounds
import BlockDiagram.Proofs.Document.Saving
import BlockDiagram.Proofs.Grid.Location
import BlockDiagram.Proofs.Draft.Registration
import BlockDiagram.Proofs.Model.Idempotence
import BlockDiagram.Proofs.Draft.Atomicity
import BlockDiagram.Proofs.Draft.Binding
import BlockDiagram.Proofs.Draft.Resolution
import BlockDiagram.Proofs.Model.Rounds
import BlockDiagram.Proofs.Model.Deadlock
import BlockDiagram.Proofs.Model.Results
import BlockDiagram.Proofs.Model.Coordinates
import BlockDiagram.Proofs.Document.Interface
import BlockDiagram.Proofs.Draft.Redeclaration
import BlockDiagram.Proofs.Grid.Numbering
import BlockDiagram.Proofs.Document.Search
import BlockDiagram.Proofs.Document.Census
