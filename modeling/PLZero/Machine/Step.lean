import PLZero.Machine.State

/-!
# Steps of the machine

`step` fetches the next instruction of the current activation and carries it out.  An action that
fails leaves the state as far as it got, so what was printed and read before a fault is known.
-/

namespace PLZero

/-- An action of the machine. -/
abbrev Act := EStateM MachineFault State

namespace Machine

/-! ## Operand stack -/

@[inline] def push (v : Value) : Act Unit := fun s =>
  if s.stack.size < maxOperandStack then .ok () { s with stack := s.stack.push v }
  else .error .stackOverflow s

@[inline] def pop : Act Value := fun s =>
  match s.stack.back? with
  | some v => .ok v { s with stack := s.stack.pop }
  | none => .error .stackUnderflow s

@[inline] def popInt : Act Int32 := do
  match ← pop with
  | .int n => return n
  | v => throw (.operandKind .number v)

@[inline] def popBool : Act Bool := do
  match ← pop with
  | .bool b => return b
  | v => throw (.operandKind .boolean v)

@[inline] def popStr : Act String := do
  match ← pop with
  | .str s => return s
  | v => throw (.operandKind .string v)

@[inline] def liftExcept {α : Type} : Except MachineFault α → Act α
  | .ok a => return a
  | .error fault => throw fault

/-! ## Activations -/

@[inline] def current : Act Activation := fun s =>
  match s.frames.back? with
  | some frame => .ok frame s
  | none => .error .noActivation s

@[inline] def setPc (pc : Nat) : Act Unit := modify fun s =>
  { s with frames := s.frames.modify (s.frames.size - 1) fun frame => { frame with pc := pc } }

/-- The activation `up` static links above the current one. -/
@[inline] def walk (up : Nat) : Act Nat := fun s =>
  if s.frames.isEmpty then .error .noActivation s
  else match follow s.frames up (s.frames.size - 1) with
    | some index => .ok index s
    | none => .error .shortChain s

@[inline] def loadSlot (up slot : Nat) : Act Value := do
  let index ← walk up
  match (← get).frames[index]?.bind fun frame => frame.locals[slot]? with
  | some v => return v
  | none => throw (.noSlot slot)

@[inline] def storeSlot (up slot : Nat) (v : Value) : Act Unit := do
  let index ← walk up
  match (← get).frames[index]?.bind fun frame => frame.locals[slot]? with
  | some _ =>
    modify fun s => { s with
      frames := s.frames.modify index fun frame =>
        { frame with locals := frame.locals.setIfInBounds slot v } }
  | none => throw (.noSlot slot)

/-- Begins an activation of a routine, with fresh variables. -/
def enter (image : Image) (routine : Nat) (link : Option Nat) : Act Unit := do
  if maxCallDepth ≤ (← get).frames.size then throw .callDepth
  match image[routine]? with
  | none => throw (.noRoutine routine)
  | some r =>
    modify fun s => { s with
      frames := s.frames.push ⟨routine, 0, (r.locals.map Ty.default).toArray, link⟩ }

def leave : Act Unit := modify fun s => { s with frames := s.frames.pop }

/-- Goes to a label of the routine. -/
@[inline] def jump (image : Image) (routine : Nat) (l : Label) : Act Unit := do
  match image[routine]?.bind fun r => r.labels.lookup l with
  | some pc => setPc pc
  | none => throw (.unknownLabel l)

/-! ## Operations -/

/-- Arithmetic wraps around; division goes toward zero. -/
def arith : Arith → Int32 → Int32 → Except MachineFault Int32
  | .add, a, b => .ok (a + b)
  | .sub, a, b => .ok (a - b)
  | .mul, a, b => .ok (a * b)
  | .div, a, b => if b = 0 then .error .divisionByZero else .ok (a / b)
  | .rem, a, b => if b = 0 then .error .divisionByZero else .ok (a % b)

/-- The order of two values of one kind; `false` comes before `true`. -/
def order? : Value → Value → Option Ordering
  | .int a, .int b => some (compare a.toInt b.toInt)
  | .bool a, .bool b => some (compare a b)
  | _, _ => none

def isStart (a b : String) : Bool := a.toList.isPrefixOf b.toList

def isEnd (a b : String) : Bool := a.toList.isSuffixOf b.toList

/-- Carries out an instruction of the given routine. -/
def exec (image : Image) (routine : Nat) : Instr → Act Unit
  | .push v => push v
  | .load up slot => do push (← loadSlot up slot)
  | .store up slot => do storeSlot up slot (← pop)
  | .arith op => do
    let b ← popInt
    let a ← popInt
    push (.int (← liftExcept (arith op a b)))
  | .and => do
    let b ← popBool
    let a ← popBool
    push (.bool (a && b))
  | .or => do
    let b ← popBool
    let a ← popBool
    push (.bool (a || b))
  | .concat => do
    let b ← popStr
    let a ← popStr
    push (.str (a ++ b))
  | .pop => do
    let _ ← pop
  | .swap => do
    let b ← pop
    let a ← pop
    push b
    push a
  | .dup2 => do
    let b ← pop
    let a ← pop
    push a
    push b
    push a
    push b
  | .dupX2 => do
    let a ← pop
    let b ← pop
    let c ← pop
    push a
    push c
    push b
    push a
  | .strEquals => do
    let b ← popStr
    let a ← popStr
    push (.bool (a = b))
  | .startsWith => do
    let b ← popStr
    let a ← popStr
    push (.bool (isStart b a))
  | .endsWith => do
    let b ← popStr
    let a ← popStr
    push (.bool (isEnd b a))
  | .not => do push (← liftExcept (← pop).negate)
  | .ifCmp cond target => do
    let b ← pop
    let a ← pop
    match order? a b with
    | some o => if cond.holds o then jump image routine target
    | none => throw (.incomparable a b)
  | .ifStr equal target => do
    let b ← popStr
    let a ← popStr
    if decide (a = b) = equal then jump image routine target
  | .ifBool value target => do
    if (← popBool) = value then jump image routine target
  | .goto target => jump image routine target
  | .label _ => pure ()
  | .call callee up => do enter image callee (some (← walk up))
  | .print ty => do
    let text ← liftExcept ((← pop).print ty)
    modify fun s => { s with console := s.console.write text }
  | .read ty => do
    let (result, console) := (← get).console.read ty
    modify fun s => { s with console := console }
    push (← liftExcept result)
  | .ret => leave

/-- One step: the next instruction of the current activation. -/
def step (image : Image) : Act Unit := do
  let frame ← current
  match image[frame.routine]?.bind fun r => r.code[frame.pc]? with
  | none => throw .fellOff
  | some i =>
    setPc (frame.pc + 1)
    exec image frame.routine i

end Machine

end PLZero
