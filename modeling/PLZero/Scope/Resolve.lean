import PLZero.Scope.Table
import PLZero.Tree.Walk

/-!
# Binding names to declarations

`Program.resolve` binds every use of a name to the declaration of that name in the innermost block
around it, and notes the depth of declarations and uses.

All declarations of a block are entered before any procedure body is visited, so a procedure may
use itself, the declarations after it, and whatever the blocks around it declare.  Procedure bodies
come before the statement of their block, and the target of an assignment before its expression.
The first use without a declaration stops the walk; what was bound before stays bound.

There is one table.  A scope is opened for the body of a procedure and dropped after it, and so the
table goes through the walk over the declarations of a block.
-/

namespace PLZero

/-- A walk that only looks names up. -/
abbrev Binding := Walk ScopeFault Unit

/-- A walk that changes the table. -/
abbrev Scoping := Walk ScopeFault Table

def Ident.resolve (t : Table) (ident : Ident) : Binding Ident :=
  match t.get? ident.name with
  | some symbol => .done { ident with decl := some symbol.decl, nest := some t.depth } ()
  | none => .stop ident () (.undefined ident.token)

def Expr.resolve (t : Table) : Expr → Binding Expr
  | .literal token ty value => .done (.literal token ty value) ()
  | .use ident ty => (ident.resolve t).map (.use · ty)
  | .binary token ty op lhs rhs =>
    (lhs.resolve t).andThen rhs (fun _ => rhs.resolve t) (.binary token ty op)

mutual

def Stmt.resolve (t : Table) : Stmt → Binding Stmt
  | .assign target expr => (target.resolve t).andThen expr (fun _ => expr.resolve t) .assign
  | .call token target => (target.resolve t).map (.call token)
  | .input token target => (target.resolve t).map (.input token)
  | .output token expr => (expr.resolve t).map (.output token)
  | .begin token stmts => (Stmt.resolveList t stmts).map (.begin token)
  | .if token guard body =>
    (guard.resolve t).andThen body (fun _ => body.resolve t) (.if token)
  | .while token guard body =>
    (guard.resolve t).andThen body (fun _ => body.resolve t) (.while token)
  | .empty token => .done (.empty token) ()

def Stmt.resolveList (t : Table) : List Stmt → Binding (List Stmt)
  | [] => .done [] ()
  | s :: ss => (s.resolve t).andThen ss (fun _ => Stmt.resolveList t ss) List.cons

end

/-- The declaration with its depth noted. -/
def Decl.atDepth (depth : Nat) (d : Decl) : Decl := d.setHead { d.head with nest := some depth }

namespace Table

/-- Enters the declarations into the innermost scope one after the other. -/
def enter (t : Table) : List Decl → Scoping (List Decl)
  | [] => .done [] t
  | d :: ds =>
    match insert d t with
    | .ok _ t => (t.enter ds).map (d.atDepth t.depth :: ·)
    | .error fault t => .stop (d :: ds) t fault

/-- Resolves a block in the innermost scope, which was opened for it.  `bodies` resolves the
declarations once all of them have been entered. -/
def resolveBlock (t : Table) (decls : List Decl) (stmt : Stmt)
    (bodies : Table → Scoping (List Decl)) : Scoping Block :=
  let entered := t.enter decls
  match entered.fault with
  | some fault => .stop ⟨entered.tree, stmt⟩ entered.state fault
  | none =>
    (bodies entered.state).andThen stmt (fun t => (stmt.resolve t).withState t) Block.mk

/-- Drops a scope at the end of the walk. -/
def dropAfter {α : Type} (h : ScopeHandle) (w : Scoping α) : Scoping α :=
  w.onward fun tree t =>
    match drop h t with
    | .ok _ t => .done tree t
    | .error fault t => .stop tree t fault

end Table

mutual

def Decl.resolve (t : Table) : Decl → Scoping Decl
  | .procedure head decls stmt =>
    let (handle, opened) := t.push
    let body := opened.resolveBlock decls stmt fun t => Decl.resolveList t decls
    (Table.dropAfter handle body).map fun b =>
      (Decl.procedure head b.decls b.stmt).atDepth t.depth
  | d => .done (d.atDepth t.depth) t

def Decl.resolveList (t : Table) : List Decl → Scoping (List Decl)
  | [] => .done [] t
  | d :: ds =>
    (d.resolve t).andThen (ds.map (Decl.atDepth t.depth)) (fun t => Decl.resolveList t ds) List.cons

end

def Program.resolve (p : Program) : Binding Program :=
  let resolved := Table.empty.resolveBlock p.block.decls p.block.stmt fun t =>
    Decl.resolveList t p.block.decls
  (resolved.map fun b => { p with block := b }).withState ()

end PLZero
