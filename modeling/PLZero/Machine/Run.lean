import PLZero.Machine.Step

/-!
# Runs

A run begins with an activation of routine 0 and ends when that returns, or at the first fault.
-/

namespace PLZero

/-- How a run ended, with the console as the run left it. -/
structure Report where
  console : Console
  fault : Option MachineFault
  deriving DecidableEq, Repr

namespace Machine

/-- Runs from a state for at most the given number of steps; `none` if that is not enough. -/
def runFrom (image : Image) : (steps : Nat) → State → Option Report
  | 0, s => if s.isFinal then some ⟨s.console, none⟩ else none
  | n + 1, s =>
    if s.isFinal then some ⟨s.console, none⟩
    else match step image s with
      | .ok _ s => runFrom image n s
      | .error fault s => some ⟨s.console, some fault⟩

/-- Begins the run of a unit: its image and the state in which routine 0 has been entered. -/
def begin (u : CodeUnit) (input : List UInt8) : Except MachineFault (Image × State) := do
  let image ← u.load
  if u.entry?.isNone then throw .noEntry
  match enter image 0 none (.start input) with
  | .ok _ s => return (image, s)
  | .error fault _ => throw fault

end Machine

/-- Runs a unit for at most the given number of steps. -/
def CodeUnit.run (steps : Nat) (u : CodeUnit) (input : List UInt8) : Option Report :=
  match Machine.begin u input with
  | .error fault => some ⟨⟨input, ""⟩, some fault⟩
  | .ok (image, s) => Machine.runFrom image steps s

end PLZero
