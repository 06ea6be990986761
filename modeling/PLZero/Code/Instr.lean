import PLZero.Operator
import PLZero.Value

/-!
# Instructions

The code of a routine is a list of stack machine instructions.  An operation takes its right operand
from the top of the stack and its left operand from below it.  A jump names a label of the routine it
stands in.  Variables are reached by the number of static links to follow up from the current
activation, and a slot there.
-/

namespace PLZero

abbrev Label := UInt32

inductive Instr where
  | push (value : Value)
  | load (up slot : Nat)
  | store (up slot : Nat)
  | arith (op : Arith)
  | and
  | or
  | concat
  | pop
  | swap
  /-- `a b` becomes `a b a b`. -/
  | dup2
  /-- `c b a` becomes `a c b a`. -/
  | dupX2
  | strEquals
  /-- Whether the lower string starts with the upper one. -/
  | startsWith
  /-- Whether the lower string ends with the upper one. -/
  | endsWith
  | not
  /-- Jumps if the condition holds of the two numbers or booleans on top. -/
  | ifCmp (cond : Cond) (target : Label)
  /-- Jumps if the equality of the two strings on top is as given. -/
  | ifStr (equal : Bool) (target : Label)
  /-- Jumps if the boolean on top is as given. -/
  | ifBool (value : Bool) (target : Label)
  | goto (target : Label)
  | label (label : Label)
  | call (routine up : Nat)
  | print (ty : Ty)
  | read (ty : Ty)
  | ret
  deriving DecidableEq, Repr

def Label.text (l : Label) : String := s!"L{l.toNat}"

def Arith.mnemonic : Arith → String
  | add => "add"
  | sub => "sub"
  | mul => "mul"
  | div => "div"
  | rem => "rem"

/-- The name of the routine that prints values of a type. -/
def Ty.printerName : Ty → String
  | .boolean => "print_boolean"
  | .string => "print_string"
  | .number => "print_number"
  | .procedure => "print_number"

/-- The name of the routine that negates a boolean. -/
def negationName : String := "boolean_not"

namespace Instr

def isLabel : Instr → Bool
  | label _ => true
  | _ => false

/-- Where the instruction may jump to. -/
def target? : Instr → Option Label
  | ifCmp _ target => some target
  | ifStr _ target => some target
  | ifBool _ target => some target
  | goto target => some target
  | _ => none

def text : Instr → String
  | push value => s!"push {value.source}"
  | load up slot => s!"load {slot} up-{up}"
  | store up slot => s!"store {slot} up-{up}"
  | arith op => op.mnemonic
  | and => "and"
  | or => "or"
  | concat => "concat"
  | pop => "pop"
  | swap => "swap"
  | dup2 => "dup2"
  | dupX2 => "dup_x2"
  | strEquals => "str_equals"
  | startsWith => "starts_with"
  | endsWith => "ends_with"
  | not => s!"invoke {negationName}"
  | ifCmp cond target => s!"if_cmp{cond.mnemonic} {Label.text target}"
  | ifStr true target => s!"if_str_eq {Label.text target}"
  | ifStr false target => s!"if_str_ne {Label.text target}"
  | ifBool false target => s!"if_false {Label.text target}"
  | ifBool true target => s!"if_true {Label.text target}"
  | goto target => s!"goto {Label.text target}"
  | label l => s!"{Label.text l}:"
  | call routine up => s!"call {routine} up-{up}"
  | print ty => s!"invoke {ty.printerName}"
  | read ty => s!"read {ty.name}"
  | ret => "return"

end Instr

end PLZero
