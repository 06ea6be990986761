import PLZero.Code.Generate
import PLZero.Scope.Resolve
import PLZero.Token.Lexer
import PLZero.Tree.Parser
import PLZero.Typing.Inference

/-!
# Compilation

* `Program.ofSource` — the tree of a source text.
* `Program.analyze` — binds names, then finds types.
* `compile` — the code unit of a source text, or the first fault.
-/

namespace PLZero

inductive CompileFault where
  | scan (fault : ScanFault)
  | parse (fault : ParseFault)
  | scope (fault : ScopeFault)
  | type (fault : TypeFault)
  | code (fault : CodeFault)
  deriving DecidableEq, Repr

def CompileFault.diagnostic : CompileFault → Diagnostic
  | scan fault => fault.diagnostic
  | parse fault => fault.diagnostic
  | scope fault => fault.diagnostic
  | type fault => fault.diagnostic
  | code fault => fault.diagnostic

namespace Program

def ofSource (source : String) : Except CompileFault Program := do
  let tokens ← (scan source).mapError .scan
  (ofTokens tokens).mapError .parse

/-- The program as the analysis leaves it, and the number of passes that inference took. -/
def analyze (p : Program) : Program × Except CompileFault Nat :=
  let bound := p.resolve
  match bound.fault with
  | some fault => (bound.tree, .error (.scope fault))
  | none =>
    let (typed, passes) := bound.tree.inferTypes
    (typed, passes.mapError .type)

end Program

def compile (source unitName : String) : Except CompileFault CodeUnit := do
  let (program, passes) := (← Program.ofSource source).analyze
  let _ ← passes
  (program.generate unitName).mapError .code

end PLZero
