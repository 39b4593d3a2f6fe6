import Promela.Main
import Promela.Footprint
import Promela.Proofs.Operation
import Promela.Proofs.Independence
import Promela.Proofs.Target.Grammar
import Promela.Proofs.Target.Spelling
import Promela.Proofs.Places
import Promela.Proofs.Target.Evaluation
import Promela.Proofs.Code
import Promela.Proofs.Resolution
import Promela.Proofs.Progress
import Promela.Proofs.Mentions
import Promela.Proofs.Scoping
import Promela.Proofs.Declarations.History
import Promela.Proofs.Handles
import Promela.Proofs.SharedQueues
import Promela.Proofs.Surface.Completeness
import Promela.Proofs.Weakening
import Promela.Proofs.Unread
import Promela.Proofs.Token.Accounting
import Promela.Proofs.Namespace
import Promela.Proofs.Expansion
import Promela.Proofs.Transparency
import Promela.Proofs.Surface.Sources
import Promela.Proofs.Token.Lexing
import Promela.Proofs.Surface.Spans
import Promela.Proofs.Positions
import Promela.Proofs.Results
import Promela.Proofs.Folding
import Promela.Proofs.Mtypes
import Promela.Proofs.Occurrences
import Promela.Proofs.Bounds
import Promela.Proofs.Overlap
import Promela.Proofs.WellTyped
import Promela.Proofs.Unspanned
import Promela.Proofs.Equality
import Promela.Proofs.AccessText
import Promela.Proofs.Locations
import Promela.Proofs.Notices
import Promela.Proofs.Target.Calls
import Promela.Proofs.Wildcards
import Promela.Proofs.Token.LineEndings
import Promela.Proofs.OutputFile
import Promela.Proofs.Semilattice
import Promela.Proofs.Token.Layouts
import Promela.Proofs.Surface.Advance
import Promela.Proofs.Rejections
import Promela.Proofs.Skipping
import Promela.Proofs.AccessOrder
