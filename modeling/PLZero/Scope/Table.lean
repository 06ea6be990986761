import PLZero.Diagnostic
import PLZero.Tree.Basic

/-!
# Scope tables

A table is a stack of scopes, the innermost on top and the program scope at the bottom.  Each scope
maps the names declared in it to symbols.

* `Table.push` opens a scope and gives a handle to it; `Table.drop` closes the innermost scope and
  asks for a handle of its level.
* `Table.insert` declares a name in the innermost scope, which must not hold it yet.
* `Table.get?` finds a name in the innermost scope that holds it.

The program scope is never closed.  An operation that is refused leaves a table too, that of the
moment in which it was refused.
-/

namespace PLZero

structure Symbol where
  decl : Nat
  kind : DeclKind
  line : Nat
  level : Nat
  deriving DecidableEq, Repr

inductive ScopeFault where
  | dropsProgramScope
  | noOpenScope
  | notInnermost (level innermost : Nat)
  | duplicate (token : Token)
  | undefined (token : Token)
  deriving DecidableEq, Repr

namespace ScopeFault

def diagnostic : ScopeFault → Diagnostic
  | dropsProgramScope => .scope "cannot drop the program scope"
  | noOpenScope => .scope "no open scope"
  | notInnermost level innermost =>
    .scope s!"dropping scope {level} while scope {innermost} is innermost"
  | duplicate token => .duplicateSymbol token.name token.place
  | undefined token => .undefinedSymbol token.name token.place

end ScopeFault

abbrev Scope := List (String × Symbol)

/-- The scopes, innermost first. -/
structure Table where
  scopes : List Scope
  deriving DecidableEq, Repr

/-- The level of a scope that was opened; the program scope has level 0. -/
structure ScopeHandle where
  level : Nat
  deriving DecidableEq, Repr

/-- An operation on a table that may be refused. -/
abbrev TableOp := EStateM ScopeFault Table

namespace Table

/-- The table with just the program scope. -/
def empty : Table := ⟨[[]]⟩

/-- The level of the innermost scope. -/
def depth (t : Table) : Nat := t.scopes.length - 1

def scopeCount (t : Table) : Nat := t.scopes.length

/-- Opens a scope. -/
def push (t : Table) : ScopeHandle × Table :=
  let opened : Table := ⟨[] :: t.scopes⟩
  (⟨opened.depth⟩, opened)

/-- Closes the innermost scope. -/
def drop (h : ScopeHandle) : TableOp Unit := do
  let t ← get
  if t.scopes.length ≤ 1 then throw .dropsProgramScope
  else if h.level ≠ t.depth then throw (.notInnermost h.level t.depth)
  else set (⟨t.scopes.tail⟩ : Table)

/-- The symbol that `d` has when it is declared in the innermost scope. -/
def symbolOf (t : Table) (d : Decl) : Symbol :=
  ⟨d.head.id, d.kind, d.head.token.place.line, t.depth⟩

/-- Declares `d` in the innermost scope. -/
def insert (d : Decl) : TableOp Symbol := do
  let t ← get
  match t.scopes with
  | [] => throw .noOpenScope
  | scope :: scopes =>
    if (scope.lookup d.name).isSome then throw (.duplicate d.head.token)
    else
      set (⟨((d.name, t.symbolOf d) :: scope) :: scopes⟩ : Table)
      return t.symbolOf d

def get? (t : Table) (name : String) : Option Symbol :=
  t.scopes.findSome? fun scope => scope.lookup name

/-- All symbols with their names, inner scopes first and each scope in the order of the names. -/
def symbols (t : Table) : List (String × Symbol) :=
  t.scopes.flatMap fun scope => scope.mergeSort fun a b => a.1 ≤ b.1

end Table

end PLZero
