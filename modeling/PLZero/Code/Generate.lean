import PLZero.Code.Layout
import PLZero.Code.Unit
import PLZero.Code.UnitName
import PLZero.Tree.Printer

/-!
# From trees to code

* `Expr.code` — leaves the value of the expression on the stack.
* `Stmt.code` — leaves the stack as it was.
* `place` — puts the code of a routine where the layout says, if there is a place for it.
* `Program.generate` — the unit of a program: a routine for the program and one for each procedure.

The pieces of code are lists that are joined in the order in which they run.  Labels are numbered
through the whole unit; the routines of the procedures of a block come before the statement of the
block.

The schemes of the structured forms:

```text
if g then s        g; if_false j; s; j:
while g do s       goto t; b: s; t: g; if_true b
a < b              a; b; if_cmpge f; push true; goto j; f: push false; j:
```

Strings have no order of their own: `a <= b` holds if `a` is a start of `b`, `a >= b` if `a` is an
end of `b`, and the strict forms also ask that the two differ.
-/

namespace PLZero

/-- Code is made with the number of the next label at hand. -/
abbrev Emit := StateT Nat (Except CodeFault)

def freshLabel : Emit Label := modifyGet fun n => (UInt32.ofNat n, n + 1)

/-! ## Names -/

namespace Layout

/-- Where the declaration of a name lives, and the depth of the use. -/
def find (l : Layout) (ident : Ident) : Except CodeFault (Storage × Nat) :=
  match ident.decl, ident.nest with
  | none, _ => .error (.unresolved ident.token)
  | _, none => .error (.noUseDepth ident.token)
  | some decl, some nest =>
    match l.get? decl with
    | none => .error (.noStorage ident.token)
    | some storage => .ok (storage, nest)

/-- The number of static links from a use up to the declaration. -/
def distance (ident : Ident) (useNest declNest : Nat) : Except CodeFault Nat :=
  if declNest ≤ useNest then .ok (useNest - declNest) else .error (.outOfScope ident.token)

def loadInstr (l : Layout) (ident : Ident) : Except CodeFault Instr := do
  match ← l.find ident with
  | (.constant value, _) => return .push value
  | (.variable slot declNest _, nest) => return .load (← distance ident nest declNest) slot
  | (.routine .., _) => throw (.procedureAsValue ident.token)

def storeInstr (l : Layout) (ident : Ident) : Except CodeFault Instr := do
  match ← l.find ident with
  | (.variable slot declNest _, nest) => return .store (← distance ident nest declNest) slot
  | _ => throw (.notStorable ident.token)

def callInstr (l : Layout) (ident : Ident) : Except CodeFault Instr := do
  match ← l.find ident with
  | (.routine index declNest, nest) => return .call index (← distance ident nest declNest)
  | _ => throw (.notCallable ident.token)

/-- The type of the variable that `stmt` reads into. -/
def readTy (l : Layout) (ident : Ident) (stmt : Token) : Except CodeFault Ty := do
  match ← l.find ident with
  | (.variable _ _ ty, _) => return ty
  | _ => throw (.notReadable ident.token stmt)

end Layout

/-! ## Operations -/

/-- The instruction for an arithmetic operator on operands of a type. -/
def Arith.instr? : Arith → Ty → Option Instr
  | op, .number => some (.arith op)
  | .add, .boolean => some .or
  | .mul, .boolean => some .and
  | .add, .string => some .concat
  | _, _ => none

/-- Leaves `false` if the branch is taken and `true` if it is not. -/
def branchCode (branch : Label → Instr) : Emit (List Instr) := do
  let falsy ← freshLabel
  let join ← freshLabel
  return [branch falsy, .push (.bool true), .goto join, .label falsy, .push (.bool false),
    .label join]

/-- Tests two different strings for being a start or an end: with `a b` on the stack, `b a` is
tested, and the result joined with their inequality. -/
def strictCode (test : Instr) : List Instr :=
  [.swap, .dup2, .strEquals, .not, .dupX2, .pop, test, .and]

def Cond.stringCode : Cond → Emit (List Instr)
  | eq => branchCode (.ifStr false)
  | ne => branchCode (.ifStr true)
  | lt => return strictCode .startsWith
  | le => return [.swap, .startsWith]
  | gt => return strictCode .endsWith
  | ge => return [.swap, .endsWith]

/-- Code for an operator on operands of a type; `line` is where it stands. -/
def Op.code (op : Op) (operand : Ty) (line : Nat) : Emit (List Instr) :=
  match op, operand with
  | .compare _, .procedure => throw (.noLowering op operand line)
  | .compare cond, .string => cond.stringCode
  | .compare cond, _ => branchCode (.ifCmp cond.negate)
  | .arith a, _ =>
    match a.instr? operand with
    | some i => return [i]
    | none => throw (.noLowering op operand line)

/-! ## Expressions and statements -/

namespace Expr

def line (e : Expr) : Nat := e.token.place.line

def demandTy (e : Expr) : Except CodeFault Ty :=
  match e.ty with
  | some ty => .ok ty
  | none => .error (.untypedExpr e.text e.line)

def code (l : Layout) : Expr → Emit (List Instr)
  | .literal token ty value => do
    let _ ← demandTy (.literal token ty value)
    return [.push value]
  | .use ident ty => do
    let _ ← demandTy (.use ident ty)
    return [← l.loadInstr ident]
  | .binary token ty op lhs rhs => do
    let _ ← demandTy (.binary token ty op lhs rhs)
    let left ← lhs.code l
    let right ← rhs.code l
    let operation ← op.code (← lhs.demandTy) token.place.line
    return left ++ (right ++ operation)

def guardCode (l : Layout) (e : Expr) : Emit (List Instr) := do
  let code ← e.code l
  match ← e.demandTy with
  | .boolean => return code
  | ty => throw (.guardType e.text ty e.line)

end Expr

mutual

def Stmt.code (l : Layout) : Stmt → Emit (List Instr)
  | .assign target expr => do
    let value ← expr.code l
    return value ++ [← l.storeInstr target]
  | .call _ target => return [← l.callInstr target]
  | .input token target => do
    let ty ← l.readTy target token
    return [.read ty, ← l.storeInstr target]
  | .output _ expr => do
    let value ← expr.code l
    return value ++ [.print (← expr.demandTy)]
  | .begin _ stmts => Stmt.codeList l stmts
  | .if _ guard body => do
    let join ← freshLabel
    let test ← guard.guardCode l
    let run ← body.code l
    return test ++ [.ifBool false join] ++ run ++ [.label join]
  | .while _ guard body => do
    let start ← freshLabel
    let check ← freshLabel
    let run ← body.code l
    let test ← guard.guardCode l
    return [.goto check, .label start] ++ run ++ [.label check] ++ test ++ [.ifBool true start]
  | .empty _ => return []

def Stmt.codeList (l : Layout) : List Stmt → Emit (List Instr)
  | [] => return []
  | s :: ss => do
    let first ← s.code l
    return first ++ (← Stmt.codeList l ss)

end

/-! ## Routines -/

/-- Code is made while the routines are put in their places. -/
abbrev Build := StateT (Array (Option Routine)) Emit

/-- Puts code in its place, with the frame of that index. -/
def place (l : Layout) (index : Nat) (code : List Instr) : Build Unit := do
  match l.frames[index]? with
  | none => throw (.noFrame index)
  | some frame =>
    let built ← get
    if index < built.size then
      set (built.set! index (some ⟨frame.name, frame.locals, code⟩))
    else throw (.indexOutOfRange index)

mutual

/-- Makes the routine of a procedure, those nested in it first. -/
def Decl.build (l : Layout) : Decl → Build Unit
  | .procedure head decls stmt =>
    match l.get? head.id with
    | some (.routine index _) => do
      Decl.buildList l decls
      place l index ((← stmt.code l) ++ [.ret])
    | _ => throw (.noRoutine head.token)
  | _ => return

def Decl.buildList (l : Layout) : List Decl → Build Unit
  | [] => return
  | d :: ds => do
    d.build l
    Decl.buildList l ds

end

/-- The routines, all of which must have been made. -/
def collect : (index : Nat) → List (Option Routine) → Except CodeFault (List Routine)
  | _, [] => .ok []
  | index, none :: _ => .error (.neverGenerated index)
  | index, some routine :: rest => do return routine :: (← collect (index + 1) rest)

namespace Program

/-- Makes all routines, that of the program last. -/
def build (p : Program) (l : Layout) : Build Unit := do
  Decl.buildList l p.block.decls
  place l 0 ((← p.block.stmt.code l) ++ [.ret])

/-- What has been made in the places for the routines. -/
def routines (p : Program) (l : Layout) : Emit (Array (Option Routine)) := do
  let (_, built) ← (p.build l).run (Array.replicate l.routineCount none)
  return built

def generate (p : Program) (name : String) : Except CodeFault CodeUnit := do
  if !UnitName.isValid name then throw (.invalidUnitName name)
  let l ← p.layout
  let built ← (p.routines l).run' 0
  return ⟨name, ← collect 0 built.toList⟩

end Program

end PLZero
