import PLZero.Tree.Basic

/-!
# The parts of a tree in order

* `Program.declarations` — all declarations in source order, nested ones after the procedure that
  holds them.
* `Program.expressions` — all expressions: procedure bodies before the statement of their block,
  an expression before its operands.
* `Program.modifyDecl`, `Program.modifyExpr`, `Program.modifyIdent` — change the `n`-th
  declaration, expression or use of a name, counted in that order.  The target of a statement
  counts just before its expression.
-/

namespace PLZero

/-! ## Listing -/

mutual

def Decl.subtree : Decl → List Decl
  | .procedure head decls stmt => .procedure head decls stmt :: Decl.subtrees decls
  | d => [d]

def Decl.subtrees : List Decl → List Decl
  | [] => []
  | d :: ds => d.subtree ++ Decl.subtrees ds

end

def Expr.subexprs : Expr → List Expr
  | .binary token ty op lhs rhs => .binary token ty op lhs rhs :: lhs.subexprs ++ rhs.subexprs
  | e => [e]

mutual

def Stmt.exprs : Stmt → List Expr
  | .assign _ expr => expr.subexprs
  | .output _ expr => expr.subexprs
  | .begin _ stmts => Stmt.exprsList stmts
  | .if _ guard body => guard.subexprs ++ body.exprs
  | .while _ guard body => guard.subexprs ++ body.exprs
  | .call .. => []
  | .input .. => []
  | .empty _ => []

def Stmt.exprsList : List Stmt → List Expr
  | [] => []
  | s :: ss => s.exprs ++ Stmt.exprsList ss

end

mutual

def Decl.exprs : Decl → List Expr
  | .procedure _ decls stmt => Decl.exprsList decls ++ stmt.exprs
  | _ => []

def Decl.exprsList : List Decl → List Expr
  | [] => []
  | d :: ds => d.exprs ++ Decl.exprsList ds

end

namespace Program

def declarations (p : Program) : List Decl := Decl.subtrees p.block.decls

def expressions (p : Program) : List Expr := Decl.exprsList p.block.decls ++ p.block.stmt.exprs

end Program

/-! ## Changing one part

An editor goes through the parts of a kind in order.  It counts down to the part it is to change;
once that is done the count is gone and the rest is left alone. -/

/-- Changes the part if the count has come down to it. -/
def touch {α : Type} (f : α → α) (a : α) : StateM (Option Nat) α := do
  match ← get with
  | none => return a
  | some 0 => set (none : Option Nat); return f a
  | some (n + 1) => set (some n); return a

/-- Changes the `n`-th part that `walk` touches, and says whether there is one. -/
def editNth {α β : Type} (walk : (α → StateM (Option Nat) α) → β → StateM (Option Nat) β)
    (n : Nat) (f : α → α) (b : β) : β × Bool :=
  let (b, left) := (walk (touch f) b).run (some n)
  (b, left.isNone)

section Visitors

variable {m : Type → Type} [Monad m]

mutual

def Decl.visitDecls (f : Decl → m Decl) (d : Decl) : m Decl := do
  match d with
  | .procedure head decls stmt =>
    match ← f (.procedure head decls stmt) with
    | .procedure head _ stmt => return .procedure head (← Decl.visitDeclsList f decls) stmt
    | d => return d
  | d => f d

def Decl.visitDeclsList (f : Decl → m Decl) : List Decl → m (List Decl)
  | [] => return []
  | d :: ds => return (← d.visitDecls f) :: (← Decl.visitDeclsList f ds)

end

/-- Visits an expression, then its operands.  The visit may change the slots of an expression but
not its shape. -/
def Expr.visitExprs (f : Expr → m Expr) (e : Expr) : m Expr := do
  match e with
  | .binary token ty op lhs rhs =>
    let e ← f (.binary token ty op lhs rhs)
    return .binary token e.ty op (← lhs.visitExprs f) (← rhs.visitExprs f)
  | e => f e

def Expr.visitIdents (f : Ident → m Ident) : Expr → m Expr
  | .binary token ty op lhs rhs =>
    return .binary token ty op (← lhs.visitIdents f) (← rhs.visitIdents f)
  | .use ident ty => return .use (← f ident) ty
  | .literal token ty value => return .literal token ty value

mutual

/-- Visits the targets and the expressions of a statement, in order. -/
def Stmt.visit (onIdent : Ident → m Ident) (onExpr : Expr → m Expr) : Stmt → m Stmt
  | .assign target expr => return .assign (← onIdent target) (← onExpr expr)
  | .call token target => return .call token (← onIdent target)
  | .input token target => return .input token (← onIdent target)
  | .output token expr => return .output token (← onExpr expr)
  | .begin token stmts => return .begin token (← Stmt.visitList onIdent onExpr stmts)
  | .if token guard body => return .if token (← onExpr guard) (← body.visit onIdent onExpr)
  | .while token guard body => return .while token (← onExpr guard) (← body.visit onIdent onExpr)
  | .empty token => return .empty token

def Stmt.visitList (onIdent : Ident → m Ident) (onExpr : Expr → m Expr) :
    List Stmt → m (List Stmt)
  | [] => return []
  | s :: ss => return (← s.visit onIdent onExpr) :: (← Stmt.visitList onIdent onExpr ss)

end

mutual

def Decl.visitStmts (f : Stmt → m Stmt) : Decl → m Decl
  | .procedure head decls stmt =>
    return .procedure head (← Decl.visitStmtsList f decls) (← f stmt)
  | d => return d

def Decl.visitStmtsList (f : Stmt → m Stmt) : List Decl → m (List Decl)
  | [] => return []
  | d :: ds => return (← d.visitStmts f) :: (← Decl.visitStmtsList f ds)

end

/-- Visits the statements of all blocks, those of procedures before that of their block. -/
def Block.visitStmts (f : Stmt → m Stmt) (b : Block) : m Block :=
  return ⟨← Decl.visitStmtsList f b.decls, ← f b.stmt⟩

end Visitors

namespace Program

def modifyDecl (p : Program) (n : Nat) (f : Decl → Decl) : Program × Bool :=
  let (decls, found) := editNth Decl.visitDeclsList n f p.block.decls
  ({ p with block.decls := decls }, found)

def modifyExpr (p : Program) (n : Nat) (f : Expr → Expr) : Program × Bool :=
  let (block, found) :=
    editNth (fun f => Block.visitStmts (Stmt.visit pure (Expr.visitExprs f))) n f p.block
  ({ p with block := block }, found)

def modifyIdent (p : Program) (n : Nat) (f : Ident → Ident) : Program × Bool :=
  let (block, found) :=
    editNth (fun f => Block.visitStmts (Stmt.visit f (Expr.visitIdents f))) n f p.block
  ({ p with block := block }, found)

end Program

end PLZero
