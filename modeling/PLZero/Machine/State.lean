import PLZero.Code.Unit
import PLZero.Machine.Console

/-!
# Machine states

* `Image` — a unit made ready to run: code by position, labels by name.
* `State` — the operand stack, the live activations and the console.

The last activation is the current one.  Each activation has a static link: the index of the
activation of the block around the one it runs, which lies below it.
-/

namespace PLZero

structure LoadedRoutine where
  locals : List Ty
  code : Array Instr
  /-- Where the labels of the code stand. -/
  labels : List (Label × Nat)
  deriving DecidableEq, Repr

abbrev Image := Array LoadedRoutine

structure Activation where
  routine : Nat
  pc : Nat
  locals : Array Value
  link : Option Nat
  deriving DecidableEq, Repr

structure State where
  stack : Array Value
  frames : Array Activation
  console : Console
  deriving DecidableEq, Repr

/-- Live activations at most. -/
def maxCallDepth : Nat := 4096

/-- Values on the operand stack at most. -/
def maxOperandStack : Nat := 65536

/-- The labels of `code`, which starts at position `pc`, added to `table`. -/
def labelTable (name : String) :
    (pc : Nat) → List Instr → (table : List (Label × Nat)) → Except MachineFault (List (Label × Nat))
  | _, [], table => .ok table
  | pc, .label l :: code, table =>
    if (table.lookup l).isSome then .error (.duplicateLabel l name)
    else labelTable name (pc + 1) code ((l, pc) :: table)
  | pc, _ :: code, table => labelTable name (pc + 1) code table

def Routine.load (r : Routine) : Except MachineFault LoadedRoutine := do
  return ⟨r.locals, r.code.toArray, ← labelTable r.name 0 r.code []⟩

/-- Makes a unit ready to run; no label may stand twice in a routine. -/
def CodeUnit.load (u : CodeUnit) : Except MachineFault Image := do
  return (← u.routines.mapM Routine.load).toArray

namespace State

/-- The state before the first activation. -/
def start (input : List UInt8) : State := ⟨#[], #[], ⟨input, ""⟩⟩

/-- The run has ended: the last activation has returned. -/
def isFinal (s : State) : Bool := s.frames.isEmpty

end State

/-- The activation that lies `up` static links above the one at `index`. -/
def follow (frames : Array Activation) : (up : Nat) → (index : Nat) → Option Nat
  | 0, index => some index
  | up + 1, index => do
    let frame ← frames[index]?
    follow frames up (← frame.link)

end PLZero
