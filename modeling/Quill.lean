import Quill.Main
import Quill.Proofs.Diagnostic.Marks
import Quill.Proofs.Ir.Consistency
import Quill.Proofs.Lexer.Longest
import Quill.Proofs.Lexer.Whole
import Quill.Proofs.Lowering.Context
import Quill.Proofs.Lowering.ControlFlow
import Quill.Proofs.Lowering.Dominance
import Quill.Proofs.Lowering.Legible
import Quill.Proofs.Machine.Reuse
import Quill.Proofs.Machine.Slots
import Quill.Proofs.Meaning.Exact
import Quill.Proofs.Meaning.Folding
import Quill.Proofs.Meaning.MissedReads
import Quill.Proofs.Meaning.Order
import Quill.Proofs.Meaning.Program
import Quill.Proofs.Outline.Tree
import Quill.Proofs.Syntax.Acceptance
import Quill.Proofs.Syntax.FailedReads
import Quill.Proofs.Syntax.Nodes
import Quill.Proofs.Syntax.Precedence
import Quill.Proofs.Typing.Program
