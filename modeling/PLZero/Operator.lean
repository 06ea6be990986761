/-!
# Operators

An operator is arithmetic or a comparison.  The symbols serve all types of operands: `+` is also
"or" on booleans and joining on strings, `*` is also "and".
-/

namespace PLZero

inductive Arith where
  | add
  | sub
  | mul
  | div
  | rem
  deriving DecidableEq, Repr

inductive Cond where
  | eq
  | ne
  | lt
  | le
  | gt
  | ge
  deriving DecidableEq, Repr

inductive Op where
  | arith (op : Arith)
  | compare (cond : Cond)
  deriving DecidableEq, Repr

namespace Arith

def symbol : Arith → String
  | add => "+"
  | sub => "-"
  | mul => "*"
  | div => "/"
  | rem => "%"

end Arith

namespace Cond

def symbol : Cond → String
  | eq => "="
  | ne => "#"
  | lt => "<"
  | le => "<="
  | gt => ">"
  | ge => ">="

def mnemonic : Cond → String
  | eq => "eq"
  | ne => "ne"
  | lt => "lt"
  | le => "le"
  | gt => "gt"
  | ge => "ge"

/-- The condition that holds exactly when this one does not. -/
def negate : Cond → Cond
  | eq => ne
  | ne => eq
  | lt => ge
  | le => gt
  | gt => le
  | ge => lt

/-- Whether the condition holds of two values that compare so. -/
def holds : Cond → Ordering → Bool
  | eq, o => o.isEq
  | ne, o => o.isNe
  | lt, o => o.isLT
  | le, o => o.isLE
  | gt, o => o.isGT
  | ge, o => o.isGE

theorem holds_negate (c : Cond) (o : Ordering) : c.negate.holds o = !c.holds o := by
  cases c <;> cases o <;> rfl

end Cond

namespace Op

def symbol : Op → String
  | arith op => op.symbol
  | compare cond => cond.symbol

def isRelational : Op → Bool
  | arith _ => false
  | compare _ => true

/-- The comparison that holds exactly when this one does not. -/
def negated? : Op → Option Op
  | arith _ => none
  | compare cond => some (compare cond.negate)

end Op

end PLZero
