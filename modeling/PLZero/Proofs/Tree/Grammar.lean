import PLZero.Proofs.Tree.Numbering

/-!
# The grammar

The sentences of the language and their trees, apart from any parser: a relation for each
nonterminal between the tokens that are derived from it and the tree of the derivation.  Of a token
only the kind decides what may be derived.

```text
program      = declarations statements "." end-of-input
block        = declarations statement
declarations = { consts | vars | procedure }
consts       = "const" ident "=" literal { "," ident "=" literal } ";"
vars         = "var" ident { "," ident } ";"
procedure    = "procedure" ident ";" block ";"
statements   = statement { ";" statement }
statement    = [ ident ":=" expression | "call" ident | "?" ident | "!" expression
               | "begin" statements "end"
               | "if" expression "then" statement | "while" expression "do" statement ]
expression   = additive [ comparison additive ]
additive     = term { ( "+" | "-" ) term }
term         = primary { ( "*" | "/" | "%" ) primary }
primary      = ident | literal | "(" expression ")"
```

The repetitions of `additive` and `term` are written as rules that recur on the left, since the trees
group so.  An empty statement is known by the token after it: the relations for statements have that
token as their first argument.
-/

namespace PLZero.Grammar

/-! ## Expressions -/

mutual

inductive Primary : List Token → Expr → Prop where
  | ident {t : Token} {name : String} :
      t.kind = .ident name → Primary [t] (.use (.ofToken t) none)
  | literal {t : Token} {value : Value} :
      t.kind = .literal value → Primary [t] (.literal t none value)
  | parens {l r : Token} {ts : List Token} {e : Expr} :
      l.kind = .mark .leftParen → Expression ts e → r.kind = .mark .rightParen →
      Primary (l :: ts ++ [r]) e

inductive Term : List Token → Expr → Prop where
  | primary {ts : List Token} {e : Expr} : Primary ts e → Term ts e
  | operation {t : Token} {op : Op} {ts us : List Token} {lhs rhs : Expr} :
      Term ts lhs → t.kind = .op op → op ∈ [.arith .mul, .arith .div, .arith .rem] →
      Primary us rhs → Term (ts ++ t :: us) (.binary t none op lhs rhs)

inductive Additive : List Token → Expr → Prop where
  | term {ts : List Token} {e : Expr} : Term ts e → Additive ts e
  | operation {t : Token} {op : Op} {ts us : List Token} {lhs rhs : Expr} :
      Additive ts lhs → t.kind = .op op → op ∈ [.arith .add, .arith .sub] →
      Term us rhs → Additive (ts ++ t :: us) (.binary t none op lhs rhs)

inductive Expression : List Token → Expr → Prop where
  | additive {ts : List Token} {e : Expr} : Additive ts e → Expression ts e
  | comparison {t : Token} {cond : Cond} {ts us : List Token} {lhs rhs : Expr} :
      Additive ts lhs → t.kind = .op (.compare cond) → Additive us rhs →
      Expression (ts ++ t :: us) (.binary t none (.compare cond) lhs rhs)

end

/-! ## Statements -/

mutual

inductive Statement : (next : Token) → List Token → Stmt → Prop where
  | assign {next t u : Token} {name : String} {ts : List Token} {e : Expr} :
      t.kind = .ident name → u.kind = .mark .assign → Expression ts e →
      Statement next (t :: u :: ts) (.assign (.ofToken t) e)
  | call {next t u : Token} {name : String} :
      t.kind = .keyword .call → u.kind = .ident name →
      Statement next [t, u] (.call t (.ofToken u))
  | input {next t u : Token} {name : String} :
      t.kind = .mark .question → u.kind = .ident name →
      Statement next [t, u] (.input t (.ofToken u))
  | output {next t : Token} {ts : List Token} {e : Expr} :
      t.kind = .mark .bang → Expression ts e → Statement next (t :: ts) (.output t e)
  | begin {next t stop : Token} {ts : List Token} {ss : List Stmt} :
      t.kind = .keyword .begin → Statements stop ts ss → stop.kind = .keyword .end →
      Statement next (t :: ts ++ [stop]) (.begin t ss)
  | if {next t u : Token} {ts us : List Token} {guard : Expr} {body : Stmt} :
      t.kind = .keyword .if → Expression ts guard → u.kind = .keyword .then →
      Statement next us body → Statement next (t :: ts ++ u :: us) (.if t guard body)
  | while {next t u : Token} {ts us : List Token} {guard : Expr} {body : Stmt} :
      t.kind = .keyword .while → Expression ts guard → u.kind = .keyword .do →
      Statement next us body → Statement next (t :: ts ++ u :: us) (.while t guard body)
  | empty {next : Token} : Statement next [] (.empty next)

inductive Statements : (next : Token) → List Token → List Stmt → Prop where
  | one {next : Token} {ts : List Token} {s : Stmt} :
      Statement next ts s → Statements next ts [s]
  | cons {next separator : Token} {ts us : List Token} {s : Stmt} {ss : List Stmt} :
      Statement separator ts s → separator.kind = .mark .semicolon → Statements next us ss →
      Statements next (ts ++ separator :: us) (s :: ss)

end

/-! ## Declarations -/

/-- `ident "=" literal` -/
inductive Constant : List Token → Decl → Prop where
  | mk {t u v : Token} {name : String} {value : Value} :
      t.kind = .ident name → u.kind = .op (.compare .eq) → v.kind = .literal value →
      Constant [t, u, v] (.const (.ofToken t) value)

/-- `ident` -/
inductive Variable : List Token → Decl → Prop where
  | mk {t : Token} {name : String} : t.kind = .ident name → Variable [t] (.var (.ofToken t))

/-- `item { "," item }` -/
inductive Listed (Item : List Token → Decl → Prop) : List Token → List Decl → Prop where
  | one {ts : List Token} {d : Decl} : Item ts d → Listed Item ts [d]
  | cons {comma : Token} {ts us : List Token} {d : Decl} {ds : List Decl} :
      Item ts d → comma.kind = .mark .comma → Listed Item us ds →
      Listed Item (ts ++ comma :: us) (d :: ds)

mutual

/-- `consts | vars | procedure` -/
inductive Group : List Token → List Decl → Prop where
  | consts {t stop : Token} {ts : List Token} {ds : List Decl} :
      t.kind = .keyword .const → Listed Constant ts ds → stop.kind = .mark .semicolon →
      Group (t :: ts ++ [stop]) ds
  | vars {t stop : Token} {ts : List Token} {ds : List Decl} :
      t.kind = .keyword .var → Listed Variable ts ds → stop.kind = .mark .semicolon →
      Group (t :: ts ++ [stop]) ds
  | procedure {t u v stop : Token} {name : String} {ts : List Token} {b : PLZero.Block} :
      t.kind = .keyword .procedure → u.kind = .ident name → v.kind = .mark .semicolon →
      Block stop ts b → stop.kind = .mark .semicolon →
      Group (t :: u :: v :: ts ++ [stop]) [.procedure (.ofToken u) b.decls b.stmt]

inductive Declarations : List Token → List Decl → Prop where
  | nil : Declarations [] []
  | cons {ts us : List Token} {ds es : List Decl} :
      Group ts ds → Declarations us es → Declarations (ts ++ us) (ds ++ es)

inductive Block : (next : Token) → List Token → PLZero.Block → Prop where
  | mk {next : Token} {ts us : List Token} {ds : List Decl} {s : Stmt} :
      Declarations ts ds → Statement next us s → Block next (ts ++ us) ⟨ds, s⟩

end

/-! ## Programs -/

/-- Two or more statements at the top are taken as one `begin … end`, which is known by the token of
the first. -/
inductive Program : List Token → PLZero.Program → Prop where
  | single {first dot eof : Token} {ts us : List Token} {ds : List Decl} {s : Stmt} :
      Declarations ts ds → Statement dot us s → dot.kind = .mark .dot → eof.kind = .eof →
      (ts ++ us ++ [dot, eof]).head? = some first →
      Program (ts ++ us ++ [dot, eof]) (.ofBlock first ⟨ds, s⟩)
  | sequence {first dot eof : Token} {ts us : List Token} {ds : List Decl} {s s' : Stmt}
      {ss : List Stmt} :
      Declarations ts ds → Statements dot us (s :: s' :: ss) → dot.kind = .mark .dot →
      eof.kind = .eof → (ts ++ us ++ [dot, eof]).head? = some first →
      Program (ts ++ us ++ [dot, eof]) (.ofBlock first ⟨ds, .begin s.token (s :: s' :: ss)⟩)

/-! ## Derived tokens -/

theorem Primary.length_pos {ts : List Token} {e : Expr} (h : Primary ts e) : 0 < ts.length := by
  cases h <;> simp

theorem Term.length_pos {ts : List Token} {e : Expr} (h : Term ts e) : 0 < ts.length := by
  cases h with
  | primary h => exact h.length_pos
  | operation =>
    rw [List.length_append, List.length_cons]
    omega

theorem Additive.length_pos {ts : List Token} {e : Expr} (h : Additive ts e) : 0 < ts.length := by
  cases h with
  | term h => exact h.length_pos
  | operation =>
    rw [List.length_append, List.length_cons]
    omega

theorem Expression.length_pos {ts : List Token} {e : Expr} (h : Expression ts e) :
    0 < ts.length := by
  cases h with
  | additive h => exact h.length_pos
  | comparison =>
    rw [List.length_append, List.length_cons]
    omega

theorem Group.length_pos {ts : List Token} {ds : List Decl} (h : Group ts ds) : 0 < ts.length := by
  cases h <;> simp

theorem Listed.ne_nil {Item : List Token → Decl → Prop} {ts : List Token} {ds : List Decl}
    (h : Listed Item ts ds) : ds ≠ [] := by
  cases h <;> simp

theorem Group.ne_nil {ts : List Token} {ds : List Decl} (h : Group ts ds) : ds ≠ [] := by
  cases h with
  | consts _ h | vars _ h => exact h.ne_nil
  | procedure => simp

theorem Statements.ne_nil {next : Token} {ts : List Token} {ss : List Stmt}
    (h : Statements next ts ss) : ss ≠ [] := by
  cases h <;> simp

end PLZero.Grammar
