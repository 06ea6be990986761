import PLZero.Diagnostic
import PLZero.Operator
import PLZero.Tree.Basic

/-!
# Type slots and the operator table

* `settle` — the rule for filling a type slot: an empty slot takes the type, a full one must hold
  it already.
* `Op.resultTy?` — the type of an operation on two operands of one type, where it has one.
* `TypeFault` — why a program has no types.
-/

namespace PLZero

/-- What a statement wants to do with the name it starts from. -/
inductive TargetUse where
  | assign
  | call
  | read
  deriving DecidableEq, Repr

inductive TypeFault where
  | unbound (token : Token)
  | mismatch (expected found : Ty) (name : String) (place : Place)
  | operands (op : Op) (left right : Ty) (place : Place)
  | inapplicable (op : Op) (operand : Ty) (place : Place)
  | badTarget (use : TargetUse) (kind : DeclKind) (token : Token)
  | procedureAsValue (token : Token)
  | outputOf (ty : Ty) (place : Place)
  | unknownVariable (token : Token)
  | unknownInput (token : Token)
  | unknownExpr (text : String) (place : Place)
  deriving DecidableEq, Repr

namespace TargetUse

def phrase : TargetUse → String
  | assign => "assign to"
  | call => "call"
  | read => "read into"

/-- The kind of declaration the use asks for. -/
def kind : TargetUse → DeclKind
  | assign => .var
  | call => .procedure
  | read => .var

end TargetUse

namespace TypeFault

def diagnostic : TypeFault → Diagnostic
  | unbound token => .undefinedSymbol token.name token.place
  | mismatch expected found name place => .typeMismatch expected.name found.name name place
  | operands op left right place =>
    .typeMismatch left.name right.name s!"operands of '{op.symbol}'" place
  | inapplicable op operand place =>
    .type s!"Operator '{op.symbol}' cannot be applied to {operand.name}" place
  | badTarget use kind token =>
    .type s!"Cannot {use.phrase} {kind.name} '{token.name}'" token.place
  | procedureAsValue token => .type s!"Procedure '{token.name}' cannot be used as a value" token.place
  | outputOf ty place => .type s!"Cannot output a value of type {ty.name}" place
  | unknownVariable token =>
    .type s!"Type of variable '{token.name}' cannot be determined" token.place
  | unknownInput token => .type s!"Type of '{token.name}' cannot be determined" token.place
  | unknownExpr text place => .type s!"Type of expression '{text}' cannot be determined" place

end TypeFault

/-- Fills a slot: `true` if it was empty, `false` if it holds the type already.  A slot that holds
another type refuses, and gives what it holds. -/
def settle (slot : Option Ty) (ty : Ty) : Except Ty Bool :=
  match slot with
  | none => .ok true
  | some current => if current = ty then .ok false else .error current

/-- The type of `a op b` when `a` and `b` are of type `operand`. -/
def Op.resultTy? (op : Op) (operand : Ty) : Option Ty :=
  match op, operand with
  | _, .procedure => none
  | .compare _, _ => some .boolean
  | .arith .add, ty => some ty
  | .arith .mul, .number => some .number
  | .arith .mul, .boolean => some .boolean
  | .arith .sub, .number => some .number
  | .arith .div, .number => some .number
  | .arith .rem, .number => some .number
  | _, _ => none

end PLZero
