import PLZero.Token.Basic

/-!
# Program trees

A program is a block: declarations, then one statement.  A procedure has a block of its own.

Trees carry slots that later work fills: the declaration and depth a use of a name is bound to,
the depth of a declaration, and the types of declarations and expressions.  A tree fresh from the
parser has every such slot empty.
-/

namespace PLZero

/-- A use of a name: the number of the declaration it means, and the depth of the use. -/
structure Ident where
  token : Token
  decl : Option Nat
  nest : Option Nat
  deriving DecidableEq, Repr

inductive Expr where
  | literal (token : Token) (ty : Option Ty) (value : Value)
  | use (ident : Ident) (ty : Option Ty)
  | binary (token : Token) (ty : Option Ty) (op : Op) (lhs rhs : Expr)
  deriving DecidableEq, Repr

inductive Stmt where
  | assign (target : Ident) (expr : Expr)
  | call (token : Token) (target : Ident)
  | input (token : Token) (target : Ident)
  | output (token : Token) (expr : Expr)
  | begin (token : Token) (stmts : List Stmt)
  | «if» (token : Token) (guard : Expr) (body : Stmt)
  | «while» (token : Token) (guard : Expr) (body : Stmt)
  | empty (token : Token)
  deriving Repr

/-- What all declarations have: a number of their own, the declared name, and two slots. -/
structure DeclHead where
  id : Nat
  token : Token
  ty : Option Ty
  nest : Option Nat
  deriving DecidableEq, Repr

inductive Decl where
  | const (head : DeclHead) (value : Value)
  | var (head : DeclHead)
  | procedure (head : DeclHead) (decls : List Decl) (stmt : Stmt)
  deriving Repr

inductive DeclKind where
  | const
  | var
  | procedure
  deriving DecidableEq, Repr

structure Block where
  decls : List Decl
  stmt : Stmt
  deriving Repr

structure Program where
  block : Block
  /-- The first token of the program. -/
  token : Token
  declCount : Nat
  deriving Repr

namespace Ident

def ofToken (token : Token) : Ident := ⟨token, none, none⟩

def name (ident : Ident) : String := ident.token.name

end Ident

namespace Expr

/-- The token an expression is known by: its operator, if it has one. -/
def token : Expr → Token
  | literal token _ _ => token
  | use ident _ => ident.token
  | binary token _ _ _ _ => token

def ty : Expr → Option Ty
  | literal _ ty _ => ty
  | use _ ty => ty
  | binary _ ty _ _ _ => ty

def setTy (ty : Option Ty) : Expr → Expr
  | literal token _ value => literal token ty value
  | use ident _ => use ident ty
  | binary token _ op lhs rhs => binary token ty op lhs rhs

def isBinary : Expr → Bool
  | binary .. => true
  | _ => false

end Expr

namespace Stmt

/-- The token a statement starts at. -/
def token : Stmt → Token
  | assign target _ => target.token
  | call token _ => token
  | input token _ => token
  | output token _ => token
  | begin token _ => token
  | «if» token _ _ => token
  | «while» token _ _ => token
  | empty token => token

def isEmpty : Stmt → Bool
  | empty _ => true
  | _ => false

end Stmt

namespace DeclHead

def new (id : Nat) (token : Token) : DeclHead := ⟨id, token, none, none⟩

def name (head : DeclHead) : String := head.token.name

end DeclHead

namespace DeclKind

def name : DeclKind → String
  | const => "constant"
  | var => "variable"
  | procedure => "procedure"

end DeclKind

namespace Decl

def head : Decl → DeclHead
  | const head _ => head
  | var head => head
  | procedure head _ _ => head

def setHead (head : DeclHead) : Decl → Decl
  | const _ value => const head value
  | var _ => var head
  | procedure _ decls stmt => procedure head decls stmt

def kind : Decl → DeclKind
  | const .. => .const
  | var .. => .var
  | procedure .. => .procedure

def name (d : Decl) : String := d.head.name

def body? : Decl → Option Block
  | procedure _ decls stmt => some ⟨decls, stmt⟩
  | _ => none

end Decl

namespace Block

def vars (b : Block) : List Decl := b.decls.filter fun d => d.kind = .var

/-- The procedures of the block with their bodies. -/
def procedures (b : Block) : List (Decl × Block) :=
  b.decls.filterMap fun d => d.body?.map (d, ·)

end Block

end PLZero
