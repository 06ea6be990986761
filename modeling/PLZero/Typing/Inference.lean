import PLZero.Tree.Printer
import PLZero.Tree.Traverse
import PLZero.Tree.Walk
import PLZero.Typing.Slot

/-!
# Type inference

Types are found by passes over the whole program.  An `Engine` holds what is known of each
declaration by its number; expressions carry their types themselves.  A pass takes types from
literals and constants up through expressions, across from one operand to the other, from an
assigned expression to its target and back, and from a guard down to its parts.  Every slot is
filled by `settle`, so a type that is known never changes.

* `Engine.ofProgram` — what the declarations of a program say at the start.
* `Engine.pass` — one pass.  A pass that fails keeps what it has found in the engine and in the
  expressions; only a pass that succeeds writes the types of declarations back.
* `Engine.infer` — passes until one finds nothing new, at least two, and then one strict pass in
  which a type still unknown is a fault.
-/

namespace PLZero

structure EngineEntry where
  kind : DeclKind
  name : String
  ty : Option Ty
  deriving DecidableEq, Repr

structure Engine where
  entries : Array EngineEntry
  /-- Whether a slot was filled since the pass began. -/
  changed : Bool
  deriving DecidableEq, Repr

abbrev Inferring := Walk TypeFault Engine

namespace Engine

/-! ## Declarations -/

/-- Notes a declaration under its number; a number out of range is ignored. -/
def note (s : Engine) (d : Decl) : Engine :=
  { s with entries := s.entries.setIfInBounds d.head.id ⟨d.kind, d.name, d.head.ty⟩ }

def ofProgram (p : Program) : Engine :=
  p.declarations.foldl note ⟨Array.replicate p.declCount ⟨.var, "", none⟩, false⟩

def typeOf (s : Engine) (id : Nat) : Option Ty := s.entries[id]?.bind EngineEntry.ty

/-- Remembers that a slot was filled, if one was. -/
def mark (s : Engine) (filled : Bool) : Engine := { s with changed := s.changed || filled }

/-- Settles the type of a declaration, because of the token `cause`. -/
def settleDecl (s : Engine) (id : Nat) (ty : Ty) (cause : Token) : Except TypeFault Engine :=
  match s.entries[id]? with
  | none => .error (.unbound cause)
  | some entry =>
    match settle entry.ty ty with
    | .ok filled =>
      .ok ({ s with entries := s.entries.setIfInBounds id { entry with ty := some ty } }.mark filled)
    | .error current => .error (.mismatch current ty entry.name cause.place)

/-- The declaration a use is bound to, with its kind. -/
def entryOf (s : Engine) (ident : Ident) : Except TypeFault (Nat × DeclKind) :=
  match ident.decl with
  | none => .error (.unbound ident.token)
  | some id =>
    match s.entries[id]? with
    | none => .error (.unbound ident.token)
    | some entry => .ok (id, entry.kind)

/-- The declaration of a statement's target, which must be of the kind the statement asks for. -/
def target (s : Engine) (ident : Ident) (use : TargetUse) : Except TypeFault Nat := do
  let (id, kind) ← s.entryOf ident
  if kind = use.kind then return id else throw (.badTarget use kind ident.token)

/-- The declaration of a name in an expression, which must be a constant or a variable. -/
def valueDecl (s : Engine) (ident : Ident) : Except TypeFault Nat := do
  let (id, kind) ← s.entryOf ident
  if kind = .procedure then throw (.procedureAsValue ident.token) else return id

end Engine

/-! ## Expressions -/

namespace Expr

/-- Goes on with the engine that `r` gives, or stops. -/
def afterDecl (e : Expr) (s : Engine) (r : Except TypeFault Engine) : Inferring Expr :=
  match r with
  | .ok s => .done e s
  | .error fault => .stop e s fault

def settleTy (e : Expr) (ty : Ty) (s : Engine) : Inferring Expr :=
  match settle e.ty ty with
  | .ok filled => .done (e.setTy (some ty)) (s.mark filled)
  | .error current => .stop e s (.mismatch current ty e.token.name e.token.place)

/-- Pushes a type known from the context down into an expression, through arithmetic to the
operands whose types are not known. -/
def push (ty : Ty) : Expr → Engine → Inferring Expr
  | .literal token slot value, s => settleTy (.literal token slot value) ty s
  | .use ident slot, s =>
    (settleTy (.use ident slot) ty s).onward fun e s =>
      match s.valueDecl ident with
      | .ok id => e.afterDecl s (s.settleDecl id ty ident.token)
      | .error fault => .stop e s fault
  | .binary token slot op lhs rhs, s =>
    match settle slot ty with
    | .error current =>
      .stop (.binary token slot op lhs rhs) s (.mismatch current ty token.name token.place)
    | .ok filled =>
      let s := s.mark filled
      if op.isRelational then .done (.binary token (some ty) op lhs rhs) s
      else
        let left := if lhs.ty.isNone then lhs.push ty s else .done lhs s
        left.andThen rhs (fun s => if rhs.ty.isNone then rhs.push ty s else .done rhs s)
          (.binary token (some ty) op)

/-- Passes a type that one operand has, or that the context wants of arithmetic, on to the operands
that have none. -/
def balance (token : Token) (ty : Option Ty) (op : Op) (lhs rhs : Expr) (s : Engine) :
    Inferring Expr :=
  match lhs.ty, rhs.ty, op, ty with
  | some t, none, _, _ => (rhs.push t s).map (.binary token ty op lhs)
  | none, some t, _, _ => (lhs.push t s).map (.binary token ty op · rhs)
  | none, none, .arith _, some t =>
    (lhs.push t s).andThen rhs (rhs.push t) (.binary token ty op)
  | _, _, _, _ => .done (.binary token ty op lhs rhs) s

/-- Settles the type of an operation from its operator and the types of its operands. -/
def combine (op : Op) (left right : Option Ty) (e : Expr) (s : Engine) : Inferring Expr :=
  let relational := if op.isRelational then e.settleTy .boolean s else .done e s
  relational.onward fun e s =>
    match left, right with
    | some l, some r =>
      if l = r then
        match op.resultTy? l with
        | some ty => e.settleTy ty s
        | none => .stop e s (.inapplicable op l e.token.place)
      else .stop e s (.operands op l r e.token.place)
    | _, _ => .done e s

def operandTys : Expr → Option Ty × Option Ty
  | .binary _ _ _ lhs rhs => (lhs.ty, rhs.ty)
  | _ => (none, none)

/-- In a strict pass an expression must have a type. -/
def demand (strict : Bool) (e : Expr) (s : Engine) : Inferring Expr :=
  if strict && e.ty.isNone then .stop e s (.unknownExpr e.text e.token.place) else .done e s

/-- Brings the slot of a name and that of its declaration together. -/
def meetDecl (ident : Ident) (slot : Option Ty) (s : Engine) : Inferring Expr :=
  match s.valueDecl ident with
  | .error fault => .stop (.use ident slot) s fault
  | .ok id =>
    match s.typeOf id, slot with
    | some ty, _ => settleTy (.use ident slot) ty s
    | none, some ty => (Expr.use ident slot).afterDecl s (s.settleDecl id ty ident.token)
    | none, none => .done (.use ident slot) s

/-- Settles an operation whose operands have been visited: first they are balanced, then the
operation gets its type from them. -/
def meetOperands : Expr → Engine → Inferring Expr
  | .binary token ty op lhs rhs, s =>
    (balance token ty op lhs rhs s).onward fun e s =>
      combine op e.operandTys.1 e.operandTys.2 e s
  | e, s => .done e s

/-- Infers the type of an expression from its parts. -/
def infer (strict : Bool) : Expr → Engine → Inferring Expr
  | .literal token slot value, s =>
    (settleTy (.literal token slot value) value.ty s).onward (demand strict)
  | .use ident slot, s => (meetDecl ident slot s).onward (demand strict)
  | .binary token ty op lhs rhs, s =>
    let operands :=
      (lhs.infer strict s).andThen rhs (fun s => rhs.infer strict s) (.binary token ty op)
    (operands.onward meetOperands).onward (demand strict)

/-- Infers the type of a guard, which must be boolean. -/
def inferGuard (strict : Bool) (e : Expr) (s : Engine) : Inferring Expr :=
  (e.infer strict s).onward fun e s =>
    match e.ty with
    | none => e.push .boolean s
    | some .boolean => .done e s
    | some ty => .stop e s (.mismatch .boolean ty e.text e.token.place)

end Expr

/-! ## Statements -/

mutual

def Stmt.infer (strict : Bool) : Stmt → Engine → Inferring Stmt
  | .assign target expr, s =>
    match s.target target .assign with
    | .error fault => .stop (.assign target expr) s fault
    | .ok id =>
      ((expr.infer strict s).onward fun e s =>
        match s.typeOf id, e.ty with
        | some ty, none => e.push ty s
        | _, some ty => e.afterDecl s (s.settleDecl id ty target.token)
        | none, none => .done e s).map (.assign target)
  | .call token target, s =>
    match s.target target .call with
    | .error fault => .stop (.call token target) s fault
    | .ok _ => .done (.call token target) s
  | .input token target, s =>
    match s.target target .read with
    | .error fault => .stop (.input token target) s fault
    | .ok id =>
      if strict && (s.typeOf id).isNone then
        .stop (.input token target) s (.unknownInput target.token)
      else .done (.input token target) s
  | .output token expr, s =>
    ((expr.infer strict s).onward fun e s =>
      match e.ty with
      | some ty => if ty.isValue then .done e s else .stop e s (.outputOf ty token.place)
      | none => .done e s).map (.output token)
  | .begin token stmts, s => (Stmt.inferList strict stmts s).map (.begin token)
  | .if token guard body, s =>
    (guard.inferGuard strict s).andThen body (fun s => body.infer strict s) (.if token)
  | .while token guard body, s =>
    (guard.inferGuard strict s).andThen body (fun s => body.infer strict s) (.while token)
  | .empty token, s => .done (.empty token) s

def Stmt.inferList (strict : Bool) : List Stmt → Engine → Inferring (List Stmt)
  | [], s => .done [] s
  | stmt :: stmts, s =>
    (stmt.infer strict s).andThen stmts (fun s => Stmt.inferList strict stmts s) List.cons

end

/-! ## Blocks -/

/-- The type a declaration has by its form. -/
def Decl.formTy? : Decl → Option Ty
  | .const _ value => some value.ty
  | .procedure .. => some .procedure
  | .var _ => none

namespace Engine

/-- Settles the types the declarations have by their form. -/
def declare (strict : Bool) (s : Engine) : List Decl → Engine × Option TypeFault
  | [] => (s, none)
  | d :: ds =>
    match d.formTy? with
    | some ty =>
      match s.settleDecl d.head.id ty d.head.token with
      | .ok s => s.declare strict ds
      | .error fault => (s, some fault)
    | none =>
      if strict && (s.typeOf d.head.id).isNone then (s, some (.unknownVariable d.head.token))
      else s.declare strict ds

/-- Visits a block: its declarations, the procedure bodies, which `bodies` visits, and its
statement. -/
def inferBlock (strict : Bool) (s : Engine) (decls : List Decl) (stmt : Stmt)
    (bodies : Engine → Inferring (List Decl)) : Inferring Block :=
  match s.declare strict decls with
  | (s, some fault) => .stop ⟨decls, stmt⟩ s fault
  | (s, none) => (bodies s).andThen stmt (stmt.infer strict) Block.mk

end Engine

mutual

def Decl.infer (strict : Bool) : Decl → Engine → Inferring Decl
  | .procedure head decls stmt, s =>
    (s.inferBlock strict decls stmt fun s => Decl.inferList strict decls s).map fun b =>
      .procedure head b.decls b.stmt
  | d, s => .done d s

def Decl.inferList (strict : Bool) : List Decl → Engine → Inferring (List Decl)
  | [], s => .done [] s
  | d :: ds, s =>
    (d.infer strict s).andThen ds (fun s => Decl.inferList strict ds s) List.cons

end

mutual

/-- Writes the types of the engine back onto the declarations. -/
def Decl.writeBack (s : Engine) : Decl → Decl
  | .const head value => .const { head with ty := s.typeOf head.id } value
  | .var head => .var { head with ty := s.typeOf head.id }
  | .procedure head decls stmt =>
    .procedure { head with ty := s.typeOf head.id } (Decl.writeBackList s decls) stmt

def Decl.writeBackList (s : Engine) : List Decl → List Decl
  | [] => []
  | d :: ds => d.writeBack s :: Decl.writeBackList s ds

end

/-! ## Passes -/

namespace Engine

/-- One pass over the program; `changed` of the engine says whether it filled a slot. -/
def pass (strict : Bool) (s : Engine) (p : Program) : Inferring Program :=
  let visited := ({ s with changed := false }).inferBlock strict p.block.decls p.block.stmt
    fun s => Decl.inferList strict p.block.decls s
  (visited.map fun b => { p with block := b }).onward fun p s =>
    .done { p with block.decls := Decl.writeBackList s p.block.decls } s

/-- Passes that always run before the types may be taken as final. -/
def minPasses : Nat := 2

/-- Passes until one fills no slot, with `done` of them behind.  Gives the number of passes.  Each
pass but the last two at most fills a slot, so a budget above the number of slots suffices. -/
def fixpoint : (budget : Nat) → (done : Nat) → Engine → Program → Inferring Program × Nat
  | 0, done, s, p => (.done p s, done)
  | n + 1, done, s, p =>
    let w := s.pass false p
    match w.fault with
    | some _ => (w, done)
    | none =>
      if minPasses ≤ done + 1 ∧ ¬w.state.changed then (w, done + 1)
      else fixpoint n (done + 1) w.state w.tree

/-- Infers all types: the program as it is left, and the number of passes it took. -/
def infer (s : Engine) (p : Program) : Program × Except TypeFault Nat :=
  let (w, passes) := fixpoint (p.declCount + p.expressions.length + minPasses) 0 s p
  let w := w.onward fun p s => s.pass true p
  match w.fault with
  | some fault => (w.tree, .error fault)
  | none => (w.tree, .ok passes)

end Engine

def Program.inferTypes (p : Program) : Program × Except TypeFault Nat :=
  (Engine.ofProgram p).infer p

end PLZero
