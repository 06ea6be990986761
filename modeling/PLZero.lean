import PLZero.Cli.Memory
import PLZero.Main
import PLZero.Proofs.Code.Codec
import PLZero.Proofs.Compile.Correctness
import PLZero.Proofs.Compile.Faults
import PLZero.Proofs.Compile.LexicalScope
import PLZero.Proofs.Compile.StackDiscipline
import PLZero.Proofs.Compile.StaticScope
import PLZero.Proofs.Compile.WordSizes
import PLZero.Proofs.Token.Lexemes
import PLZero.Proofs.Token.Reading
import PLZero.Proofs.Tree.Grammar
import PLZero.Proofs.Tree.Soundness
import PLZero.Proofs.Tree.Completeness
import PLZero.Proofs.Token.Writing
import PLZero.Proofs.Token.Lines
import PLZero.Proofs.Token.Spacing
import PLZero.Proofs.Scope.Handles
import PLZero.Proofs.Tree.Matching
import PLZero.Proofs.Tree.Printing
import PLZero.Proofs.Compile.RoundTrip
import PLZero.Proofs.Tree.Renaming
import PLZero.Proofs.Scope.Renaming
import PLZero.Proofs.Typing.Matching
import PLZero.Proofs.Code.Renaming
import PLZero.Proofs.Compile.Renaming
import PLZero.Proofs.Typing.Growth
import PLZero.Proofs.Compile.Idempotence
import PLZero.Proofs.Compile.ExpressionCode
import PLZero.Proofs.Code.Jumps
import PLZero.Proofs.Code.Truncation
import PLZero.Proofs.Code.Blocks
import PLZero.Proofs.Compile.StorageLayout
import PLZero.Proofs.Tree.Lookahead
import PLZero.Proofs.Tree.Viability
import PLZero.Proofs.Compile.SyntaxErrors
import PLZero.Proofs.Machine.Streams
import PLZero.Proofs.Scope.Closing
import PLZero.Proofs.Code.Listing
import PLZero.Proofs.Tree.SourceOrder
import PLZero.Proofs.Token.Automaton
