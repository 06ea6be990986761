import PLZero.Code.Instr
import PLZero.Diagnostic
import PLZero.Text.Utf8

/-!
# Machine faults

Why a run stops before its end.
-/

namespace PLZero

inductive MachineFault where
  | duplicateLabel (label : Label) (routine : String)
  | noEntry
  | callDepth
  | noRoutine (index : Nat)
  | noActivation
  | shortChain
  | noSlot (slot : Nat)
  | stackOverflow
  | stackUnderflow
  | operandKind (expected : Ty) (found : Value)
  | incomparable (left right : Value)
  | divisionByZero
  | unknownLabel (label : Label)
  | fellOff
  /-- A routine of the machine got a value it cannot work on. -/
  | argumentKind (routine : String) (expected : Ty) (found : Value)
  | endOfInput
  | malformedNumber (text : String)
  | malformedBoolean (text : String)
  | readsProcedure
  /-- A line of input is not UTF-8. -/
  | inputNotUtf8
  deriving DecidableEq, Repr

namespace MachineFault

def reason : MachineFault → String
  | duplicateLabel label routine =>
    s!"label {Label.text label} defined twice in routine {routine}"
  | noEntry => "unit has no entry routine"
  | callDepth => "call depth exceeded"
  | noRoutine index => s!"no routine {index}"
  | noActivation => "no active routine"
  | shortChain => "static link chain too short"
  | noSlot slot => s!"no slot {slot} in frame"
  | stackOverflow => "operand stack overflow"
  | stackUnderflow => "operand stack underflow"
  | operandKind expected found =>
    s!"expected a {expected.word} on the stack, found a {found.kindName}"
  | incomparable left right => s!"cannot compare {left.kindName} with {right.kindName}"
  | divisionByZero => "division by zero"
  | unknownLabel label => s!"unknown label {Label.text label}"
  | fellOff => "fell off the end of a routine"
  | argumentKind routine expected found =>
    s!"{routine} expects a {expected.word} but got a {found.kindName}"
  | endOfInput => "unexpected end of input"
  | malformedNumber text => s!"malformed number input '{text}'"
  | malformedBoolean text => s!"malformed boolean input '{text}'"
  | readsProcedure => "cannot read a procedure"
  | inputNotUtf8 => Utf8.streamMessage

def diagnostic (f : MachineFault) : Diagnostic :=
  match f with
  | inputNotUtf8 => .io f.reason
  | _ => .machine f.reason

end MachineFault

end PLZero
