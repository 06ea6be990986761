import PLZero.Code.Instr

/-!
# Code units

A unit is a named list of routines; routine 0 is where a run begins.  The listing shows a unit as
text, one instruction a line, labels at the margin and all else indented.
-/

namespace PLZero

structure Routine where
  name : String
  /-- The types of the slots of an activation. -/
  locals : List Ty
  code : List Instr
  deriving DecidableEq, Repr

structure CodeUnit where
  name : String
  routines : List Routine
  deriving DecidableEq, Repr

namespace Listing

/-- The listing with one more line. -/
def line (listing text : String) : String := listing ++ text ++ "\n"

def instr (listing : String) (i : Instr) : String :=
  line listing (if i.isLabel then i.text else "    " ++ i.text)

def routine (listing : String) (index : Nat) (r : Routine) : String :=
  let locals := ", ".intercalate (r.locals.map Ty.name)
  r.code.foldl instr (line listing s!"\nroutine {index} {r.name} [{locals}]")

def routines (listing : String) : (index : Nat) → List Routine → String
  | _, [] => listing
  | index, r :: rs => routines (routine listing index r) (index + 1) rs

end Listing

namespace CodeUnit

def entry? (u : CodeUnit) : Option Routine := u.routines.head?

def instructionCount (u : CodeUnit) : Nat := (u.routines.flatMap Routine.code).length

def listing (u : CodeUnit) : String :=
  Listing.routines (Listing.line "" s!"unit {u.name}") 0 u.routines

end CodeUnit

end PLZero
