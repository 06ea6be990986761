import PLZero.Diagnostic
import PLZero.Tree.Basic

/-!
# From tokens to trees

The grammar:

```text
program    = { constants | variables | procedure } statement { ";" statement } "." end-of-input
block      = { constants | variables | procedure } statement
constants  = "const" ident "=" literal { "," ident "=" literal } ";"
variables  = "var" ident { "," ident } ";"
procedure  = "procedure" ident ";" block ";"
statement  = [ ident ":=" expression | "call" ident | "?" ident | "!" expression
             | "begin" statement { ";" statement } "end"
             | "if" expression "then" statement | "while" expression "do" statement ]
expression = additive [ comparison additive ]
additive   = term { ( "+" | "-" ) term }
term       = primary { ( "*" | "/" | "%" ) primary }
primary    = ident | literal | "(" expression ")"
```

Both levels of arithmetic group to the left, and comparisons do not chain.  A sequence of two or
more statements at the top of a program is taken as one `begin … end`.  A name declared twice in a
block is refused as soon as the group of declarations that repeats it is complete.

Each rule is a parser over the list of pending tokens.  The rules for declarations also have the
number of the next one, which goes on through all blocks.  Where the grammar nests or repeats, a
budget bounds the depth: every level of nesting and every repetition takes up a token, so a
budget above the number of pending tokens is never used up.
-/

namespace PLZero

/-- What the parser was looking for. -/
inductive Expected where
  | kind (kind : TokenKind)
  | identifier
  | literal
  | expression
  | endOfExpression
  deriving DecidableEq, Repr

inductive ParseFault where
  | endOfTokens
  | unexpected (expected : Expected) (found : Token)
  | duplicate (token : Token)
  deriving DecidableEq, Repr

namespace Expected

def text : Expected → String
  | kind k => k.spelling
  | identifier => "identifier"
  | literal => "literal"
  | expression => "expression"
  | endOfExpression => "end of expression"

end Expected

namespace ParseFault

def diagnostic : ParseFault → Diagnostic
  | endOfTokens => .endOfTokens
  | unexpected expected found => .unexpected expected.text found.kind.describe found.place
  | duplicate token => .duplicateSymbol token.name token.place

end ParseFault

abbrev Parser := StateT (List Token) (Except ParseFault)

namespace Parser

variable {α : Type}

/-! ## Single tokens -/

def peek : Parser Token := fun tokens =>
  match tokens with
  | [] => .error .endOfTokens
  | t :: ts => .ok (t, t :: ts)

def next : Parser Token := fun tokens =>
  match tokens with
  | [] => .error .endOfTokens
  | t :: ts => .ok (t, ts)

def unexpected (expected : Expected) : Parser α := do
  throw (.unexpected expected (← peek))

def expect (kind : TokenKind) : Parser Token := do
  if (← peek).kind = kind then next else unexpected (.kind kind)

def ident : Parser Token := do
  match (← peek).kind with
  | .ident _ => next
  | _ => unexpected .identifier

def literal : Parser Value := do
  match (← peek).kind with
  | .literal value => let _ ← next; return value
  | _ => unexpected .literal

/-! ## Repetition -/

/-- `item { separator item }` -/
def sepBy1 {m : Type → Type} [Monad m] [MonadLiftT Parser m] (item : m α) (separator : TokenKind) :
    (budget : Nat) → m (List α)
  | 0 => (throw .endOfTokens : Parser (List α))
  | n + 1 => do
    let a ← item
    if (← peek).kind = separator then
      let _ ← next
      return a :: (← sepBy1 item separator n)
    else return [a]

/-- `{ operator operand }` after `lhs`, grouped to the left, for the operators of one level. -/
def chain (level : Op → Bool) (operand : Parser Expr) : (budget : Nat) → Expr → Parser Expr
  | 0, _ => throw .endOfTokens
  | n + 1, lhs => do
    let t ← peek
    match t.kind.op?.filter level with
    | some op =>
      let _ ← next
      let rhs ← operand
      chain level operand n (.binary t none op lhs rhs)
    | none => return lhs

/-! ## Expressions -/

def isAdditive (op : Op) : Bool := op = .arith .add || op = .arith .sub

def isMultiplicative (op : Op) : Bool :=
  op = .arith .mul || op = .arith .div || op = .arith .rem

def primary (expression : Parser Expr) : Parser Expr := do
  let t ← peek
  match t.kind with
  | .ident _ => let _ ← next; return .use (.ofToken t) none
  | .literal value => let _ ← next; return .literal t none value
  | .mark .leftParen =>
    let _ ← next
    let e ← expression
    let _ ← expect (.mark .rightParen)
    return e
  | _ => unexpected .expression

def term (budget : Nat) (expression : Parser Expr) : Parser Expr := do
  chain isMultiplicative (primary expression) budget (← primary expression)

def additive (budget : Nat) (expression : Parser Expr) : Parser Expr := do
  chain isAdditive (term budget expression) budget (← term budget expression)

def comparison (budget : Nat) (expression : Parser Expr) : Parser Expr := do
  let lhs ← additive budget expression
  let t ← peek
  match t.kind.op?.filter Op.isRelational with
  | none => return lhs
  | some op =>
    let _ ← next
    let rhs ← additive budget expression
    if (← peek).kind.isRelational then unexpected .endOfExpression
    else return .binary t none op lhs rhs

def expression : (budget : Nat) → Parser Expr
  | 0 => throw .endOfTokens
  | n + 1 => comparison (n + 1) (expression n)

/-! ## Statements -/

def simpleStatement (budget : Nat) (statement : Parser Stmt) : Parser Stmt := do
  let t ← peek
  match t.kind with
  | .ident _ =>
    let _ ← next
    let _ ← expect (.mark .assign)
    return .assign (.ofToken t) (← expression budget)
  | .keyword .call => let _ ← next; return .call t (.ofToken (← ident))
  | .mark .question => let _ ← next; return .input t (.ofToken (← ident))
  | .mark .bang => let _ ← next; return .output t (← expression budget)
  | .keyword .begin =>
    let _ ← next
    let stmts ← sepBy1 statement (.mark .semicolon) budget
    let _ ← expect (.keyword .end)
    return .begin t stmts
  | .keyword .if =>
    let _ ← next
    let guard ← expression budget
    let _ ← expect (.keyword .then)
    return .if t guard (← statement)
  | .keyword .while =>
    let _ ← next
    let guard ← expression budget
    let _ ← expect (.keyword .do)
    return .while t guard (← statement)
  | _ => return .empty t

def statement : (budget : Nat) → Parser Stmt
  | 0 => throw .endOfTokens
  | n + 1 => simpleStatement (n + 1) (statement n)

/-- The statement a sequence stands for. -/
def ofSequence (first : Token) : List Stmt → Stmt
  | [] => .empty first
  | [s] => s
  | s :: ss => .begin s.token (s :: ss)

/-- The names seen so far with those of `ds`, unless one of them has been seen before. -/
def distinct (seen : List String) : List Decl → Except ParseFault (List String)
  | [] => .ok seen
  | d :: ds =>
    if d.name ∈ seen then .error (.duplicate d.head.token) else distinct (d.name :: seen) ds

end Parser

/-! ## Declarations -/

/-- A parser that numbers declarations.  Its state is the next number. -/
abbrev Declaring := StateT Nat Parser

namespace Declaring

open Parser

/-- Takes a number. -/
def number : Declaring Nat := modifyGet fun n => (n, n + 1)

def constantDecl : Declaring Decl := do
  let t ← ident
  let _ ← expect (.op (.compare .eq))
  let value ← literal
  return .const (.new (← number) t) value

def variableDecl : Declaring Decl := do
  let t ← ident
  return .var (.new (← number) t)

def procedureDecl (block : Declaring Block) : Declaring Decl := do
  let t ← ident
  let _ ← expect (.mark .semicolon)
  -- The number is taken before the body, so that numbers follow the source.
  let id ← number
  let b ← block
  return .procedure (.new id t) b.decls b.stmt

/-- One group of declarations, if one stands next. -/
def group (budget : Nat) (block : Declaring Block) : Declaring (List Decl) := do
  match (← peek).kind with
  | .keyword .const =>
    let _ ← next
    let ds ← sepBy1 constantDecl (.mark .comma) budget
    let _ ← expect (.mark .semicolon)
    return ds
  | .keyword .var =>
    let _ ← next
    let ds ← sepBy1 variableDecl (.mark .comma) budget
    let _ ← expect (.mark .semicolon)
    return ds
  | .keyword .procedure =>
    let _ ← next
    let d ← procedureDecl block
    let _ ← expect (.mark .semicolon)
    return [d]
  | _ => return []

/-- All groups of declarations that stand next, when `seen` are the names declared before them. -/
def declarations (block : Declaring Block) :
    (budget : Nat) → (seen : List String) → Declaring (List Decl)
  | 0, _ => throw .endOfTokens
  | n + 1, seen => do
    match ← group n block with
    | [] => return []
    | d :: ds =>
      let seen ← distinct seen (d :: ds)
      return d :: ds ++ (← declarations block n seen)

def block : (budget : Nat) → Declaring Block
  | 0 => throw .endOfTokens
  | n + 1 => do
    let decls ← declarations (block n) (n + 1) []
    return ⟨decls, ← statement (n + 1)⟩

def program (budget : Nat) : Declaring Program := do
  let t ← peek
  let decls ← declarations (block budget) budget []
  let stmts ← (sepBy1 (statement budget) (.mark .semicolon) budget : Parser (List Stmt))
  let _ ← expect (.mark .dot)
  let _ ← expect .eof
  return ⟨⟨decls, ofSequence t stmts⟩, t, ← get⟩

end Declaring

/-- The program that the tokens make up. -/
def Program.ofTokens (tokens : List Token) : Except ParseFault Program :=
  ((Declaring.program (tokens.length + 1)).run' 0).run' tokens

end PLZero
