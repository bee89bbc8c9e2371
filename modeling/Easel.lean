import Easel.Main
import Easel.Proofs.Evaluation.Hygiene
import Easel.Proofs.Evaluation.Limits
import Easel.Proofs.Evaluation.Termination
import Easel.Proofs.Evaluation.Unmentioned
import Easel.Proofs.Interpreter.Pieces
import Easel.Proofs.Interpreter.Truncation
import Easel.Proofs.Parser.Diagnosis
import Easel.Proofs.Parser.Exactness
import Easel.Proofs.Parser.Layout
import Easel.Proofs.Printer.RoundTrip
import Easel.Session
import Easel.Syntax.Printer
import Easel.Text.Cut
import Easel.Value.Equality
import Easel.Proofs.Evaluation.Resources
import Easel.Proofs.Evaluation.Inclusion
import Easel.Proofs.Interpreter.Quoting
import Easel.Proofs.Lexemes.Bytes
import Easel.Proofs.Lexemes.Places
import Easel.Proofs.Interpreter.Crashes
import Easel.Proofs.Evaluation.Placement
import Easel.Proofs.Evaluation.Abbreviation
import Easel.Proofs.Parser.Pointing
import Easel.Proofs.Source.Closing
import Easel.Proofs.Interpreter.Nesting
import Easel.Proofs.Builtin.Conversion
import Easel.Proofs.Builtin.Formatting
import Easel.Proofs.Scoping
import Easel.Proofs.Parser.Progress
import Easel.Proofs.Interpreter.Defenses
