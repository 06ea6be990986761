import PLZero.Diagnostic
import PLZero.Tree.Basic

/-!
# Where declarations live

A layout gives every declaration of a program its place in the code: a constant stands inline, a
variable has a slot in the frame of the routine that declares it, and a procedure has a routine.

Routine 0 is the program itself.  The procedures of a block get the next numbers in source order,
before any procedure nested in them, and the name of a nested one is dotted with that of the one
around it.
-/

namespace PLZero

/-- Why no code can be made for a tree; the trees that inference accepts have none of these. -/
inductive CodeFault where
  | invalidUnitName (name : String)
  | noDepth (decl : Token)
  | untypedVariable (decl : Token)
  | unresolved (use : Token)
  | noUseDepth (use : Token)
  | noStorage (use : Token)
  | outOfScope (use : Token)
  | procedureAsValue (use : Token)
  | notStorable (use : Token)
  | notCallable (use : Token)
  | notReadable (use stmt : Token)
  | untypedExpr (text : String) (line : Nat)
  | guardType (text : String) (ty : Ty) (line : Nat)
  | noLowering (op : Op) (operand : Ty) (line : Nat)
  | noRoutine (decl : Token)
  | noFrame (index : Nat)
  | indexOutOfRange (index : Nat)
  | neverGenerated (index : Nat)
  deriving DecidableEq, Repr

namespace CodeFault

def reason : CodeFault → String
  | invalidUnitName name => s!"Invalid unit name '{name}'"
  | noDepth decl => s!"'{decl.name}' has no nesting depth"
  | untypedVariable decl => s!"variable '{decl.name}' has no type"
  | unresolved use => s!"Unresolved identifier: {use.name}"
  | noUseDepth use => s!"No nesting depth for use of {use.name}"
  | noStorage use => s!"No storage for {use.name}"
  | outOfScope use => s!"{use.name} used outside the scope it is declared in"
  | procedureAsValue use => s!"Procedure {use.name} used as a value"
  | notStorable use => s!"Cannot store to {use.name}"
  | notCallable use => s!"{use.name} is not a procedure"
  | notReadable use _ => s!"Cannot read into {use.name}"
  | untypedExpr text _ => s!"Untyped expression {text}"
  | guardType text ty _ => s!"Guard {text} has type {ty.name}"
  | noLowering op operand _ => s!"No lowering for {op.symbol} on {operand.name}"
  | noRoutine decl => s!"Procedure {decl.name} has no routine"
  | noFrame index => s!"No frame for routine {index}"
  | indexOutOfRange index => s!"Routine index {index} out of range"
  | neverGenerated index => s!"Routine {index} was never generated"

def line? : CodeFault → Option Nat
  | invalidUnitName _ => none
  | noFrame _ | indexOutOfRange _ | neverGenerated _ => none
  | untypedExpr _ line => some line
  | guardType _ _ line => some line
  | noLowering _ _ line => some line
  | notReadable _ stmt => some stmt.place.line
  | noDepth token | untypedVariable token | unresolved token | noUseDepth token | noStorage token
  | outOfScope token | procedureAsValue token | notStorable token | notCallable token
  | noRoutine token => some token.place.line

def diagnostic (f : CodeFault) : Diagnostic := .code f.reason f.line?

end CodeFault

inductive Storage where
  | constant (value : Value)
  | variable (slot nest : Nat) (ty : Ty)
  | routine (index nest : Nat)
  deriving DecidableEq, Repr

/-- The name of a routine and the types of its slots. -/
structure Frame where
  name : String
  locals : List Ty
  deriving DecidableEq, Repr

structure Layout where
  /-- By the number of the declaration; of two entries the one in front counts. -/
  entries : List (Nat × Storage)
  frames : Array Frame
  deriving DecidableEq, Repr

namespace Layout

def empty : Layout := ⟨[], #[⟨"main", []⟩]⟩

def get? (l : Layout) (id : Nat) : Option Storage := l.entries.lookup id

def routineCount (l : Layout) : Nat := l.frames.size

/-- The name of a procedure declared in the routine with the given index. -/
def routineName (l : Layout) (index : Nat) (name : String) : String :=
  if index = 0 then name
  else match l.frames[index]? with
    | some frame => s!"{frame.name}.{name}"
    | none => name

def addVariable (l : Layout) (index : Nat) (id nest : Nat) (ty : Ty) : Layout :=
  let slot := (l.frames[index]?.map fun f => f.locals.length).getD 0
  ⟨(id, .variable slot nest ty) :: l.entries,
    l.frames.modify index fun f => { f with locals := f.locals ++ [ty] }⟩

def addProcedure (l : Layout) (index : Nat) (id nest : Nat) (name : String) : Layout :=
  ⟨(id, .routine l.frames.size nest) :: l.entries,
    l.frames.push ⟨l.routineName index name, []⟩⟩

/-- Adds a declaration of the block of routine `index`. -/
def add (index : Nat) (l : Layout) (d : Decl) : Except CodeFault Layout :=
  match d.head.nest with
  | none => .error (.noDepth d.head.token)
  | some nest =>
    match d with
    | .const head value => .ok { l with entries := (head.id, .constant value) :: l.entries }
    | .var head =>
      match head.ty with
      | none => .error (.untypedVariable head.token)
      | some ty => .ok (l.addVariable index head.id nest ty)
    | .procedure head _ _ => .ok (l.addProcedure index head.id nest head.name)

end Layout

mutual

/-- Adds what is declared inside a procedure. -/
def Decl.layOut (l : Layout) : Decl → Except CodeFault Layout
  | .procedure head decls _ =>
    match l.get? head.id with
    | some (.routine index _) => do
      Decl.layOutList (← decls.foldlM (Layout.add index) l) decls
    | _ => .ok l
  | _ => .ok l

def Decl.layOutList (l : Layout) : List Decl → Except CodeFault Layout
  | [] => .ok l
  | d :: ds => do Decl.layOutList (← d.layOut l) ds

end

def Program.layout (p : Program) : Except CodeFault Layout := do
  Decl.layOutList (← p.block.decls.foldlM (Layout.add 0) Layout.empty) p.block.decls

end PLZero
