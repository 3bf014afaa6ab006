import Pseudocode.Main
import Pseudocode.Trace
import Pseudocode.Proofs.Machine.Correctness
import Pseudocode.Proofs.Expr.Grammar
import Pseudocode.Proofs.Token.Scanning
import Pseudocode.Proofs.Expr.Soundness
import Pseudocode.Proofs.Expr.Recognition
import Pseudocode.Proofs.Heap.Interning
import Pseudocode.Proofs.Heap.TableSet
import Pseudocode.Proofs.Image.RoundTrip
import Pseudocode.Proofs.Machine.Totality
import Pseudocode.Proofs.Machine.Likeness
import Pseudocode.Proofs.Bytecode.Likeness
import Pseudocode.Proofs.Session.Independence
import Pseudocode.Proofs.Image.Transport
import Pseudocode.Proofs.Bytecode.PostOrder
import Pseudocode.Proofs.Machine.Lockstep
import Pseudocode.Proofs.Text.Encoding
import Pseudocode.Proofs.Token.ByteLexeme
import Pseudocode.Proofs.Token.Tiling
import Pseudocode.Proofs.Machine.Fitting
import Pseudocode.Proofs.Machine.Resources
import Pseudocode.Proofs.Machine.StackBound
import Pseudocode.Proofs.Bytecode.LineTable
import Pseudocode.Proofs.Bytecode.Assembly
import Pseudocode.Proofs.Image.Truncation
import Pseudocode.Proofs.Image.Shortest
import Pseudocode.Proofs.Expr.Nesting
import Pseudocode.Proofs.Number.SixPlaces
import Pseudocode.Proofs.Token.Rereading
import Pseudocode.Proofs.Expr.Printing
import Pseudocode.Proofs.Bytecode.Reprinting
import Pseudocode.Proofs.Expr.Viability
import Pseudocode.Proofs.Expr.FirstProblem
import Pseudocode.Proofs.Heap.TextSearch
import Pseudocode.Proofs.Heap.Copying
import Pseudocode.Proofs.Image.Loading
import Pseudocode.Proofs.Expr.FaultLine
import Pseudocode.Proofs.Heap.TableGrowth
import Pseudocode.Proofs.Heap.Thresholds
import Pseudocode.Proofs.Expr.Bookkeeping
import Pseudocode.Proofs.Bytecode.Failing
import Pseudocode.Proofs.Token.Rescanning
import Pseudocode.Proofs.Machine.Limits
import Pseudocode.Proofs.Machine.Integers
import Pseudocode.Proofs.Expr.Unread
import Pseudocode.Proofs.Number.SixDigits
import Pseudocode.Proofs.Machine.Reals
import Pseudocode.Proofs.Bytecode.Rows
import Pseudocode.Proofs.Bytecode.LineColumn
import Pseudocode.Proofs.Bytecode.RowText
import Pseudocode.Proofs.Session.Equality
import Pseudocode.Proofs.Expr.Identifiers
