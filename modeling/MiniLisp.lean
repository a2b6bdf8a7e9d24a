import MiniLisp.Heap
import MiniLisp.Main
import MiniLisp.Proofs.Datum
import MiniLisp.Proofs.Reading
import MiniLisp.Proofs.RoundTrip
import MiniLisp.Proofs.Region
import MiniLisp.Proofs.Safety
import MiniLisp.Proofs.Primitives
import MiniLisp.Proofs.Printing
import MiniLisp.Proofs.Literals
import MiniLisp.Proofs.DataNatives
import MiniLisp.Proofs.EffectNatives
import MiniLisp.Proofs.Evaluation
import MiniLisp.Proofs.Agreements
import MiniLisp.Proofs.Sessions
import MiniLisp.Proofs.Scoping
import MiniLisp.Proofs.Retention
import MiniLisp.Proofs.Turns
import MiniLisp.Proofs.Completeness
import MiniLisp.Proofs.Adequacy
import MiniLisp.Proofs.Marking
import MiniLisp.Proofs.Collection
import MiniLisp.Proofs.Interaction
import MiniLisp.Proofs.Lines
import MiniLisp.Proofs.Grammar
import MiniLisp.Proofs.Parsing
import MiniLisp.Proofs.Conclusions
import MiniLisp.Proofs.Pasting
import MiniLisp.Proofs.Loading
import MiniLisp.Proofs.Scripts
import MiniLisp.Proofs.Requests
import MiniLisp.Proofs.Tracing
import MiniLisp.Proofs.Echoes
import MiniLisp.Proofs.Layout
import MiniLisp.Proofs.Renaming
import MiniLisp.Proofs.RenamedData
import MiniLisp.Proofs.RenamedRuns
import MiniLisp.Proofs.RenamedEvaluation
import MiniLisp.Proofs.Bounds
import MiniLisp.Proofs.LoadedFiles
import MiniLisp.Proofs.Histories
import MiniLisp.Proofs.Equivalence
import MiniLisp.Proofs.CallPaths
import MiniLisp.Proofs.References
import MiniLisp.Proofs.Unfinished
import MiniLisp.Proofs.Handles
import MiniLisp.Proofs.Normalization
import MiniLisp.Proofs.CyclicPrinting
import MiniLisp.Proofs.MapLaws
import MiniLisp.Proofs.Congruence
import MiniLisp.Proofs.ExactArithmetic
import MiniLisp.Proofs.Shadowing
import MiniLisp.Proofs.Accounting
import MiniLisp.Proofs.MoreSteps
import MiniLisp.Proofs.CellUpdates
import MiniLisp.Proofs.MapConcat
import MiniLisp.Proofs.TailLoops
import MiniLisp.Proofs.LogWindows
import MiniLisp.Proofs.LiteralData
import MiniLisp.Proofs.Descent
import MiniLisp.Proofs.Progress
import MiniLisp.Proofs.Brackets
import MiniLisp.Proofs.Underway
import MiniLisp.Proofs.Narration
import MiniLisp.Proofs.NarratedEvaluation
import MiniLisp.Proofs.CallTraces
