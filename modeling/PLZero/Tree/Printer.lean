import PLZero.Tree.Basic

/-!
# Trees as text

A tree is printed one declaration or statement a line, four spaces deeper for each level.  Operands
that are themselves operations stand in parentheses, so the text fixes the tree.  An empty statement
prints nothing, not even its indentation.
-/

namespace PLZero

def indentation (depth : Nat) : String := String.ofList (List.replicate (4 * depth) ' ')

mutual

def Expr.text : Expr → String
  | .literal _ _ value => value.source
  | .use ident _ => ident.name
  | .binary _ _ op lhs rhs => lhs.operandText ++ " " ++ op.symbol ++ " " ++ rhs.operandText

def Expr.operandText : Expr → String
  | .binary _ _ op lhs rhs =>
    "(" ++ lhs.operandText ++ " " ++ op.symbol ++ " " ++ rhs.operandText ++ ")"
  | .literal _ _ value => value.source
  | .use ident _ => ident.name

end

mutual

def Stmt.text (depth : Nat) : Stmt → String
  | .assign target expr => indentation depth ++ target.name ++ " := " ++ expr.text
  | .call _ target => indentation depth ++ "call " ++ target.name
  | .input _ target => indentation depth ++ "? " ++ target.name
  | .output _ expr => indentation depth ++ "! " ++ expr.text
  | .begin _ stmts =>
    indentation depth ++ "begin\n" ++ Stmt.textList (depth + 1) stmts ++ indentation depth ++ "end"
  | .if _ guard body =>
    indentation depth ++ "if " ++ guard.text ++ " then\n" ++ body.text (depth + 1)
  | .while _ guard body =>
    indentation depth ++ "while " ++ guard.text ++ " do\n" ++ body.text (depth + 1)
  | .empty _ => ""

/-- The statements a line each, with a semicolon between every two. -/
def Stmt.textList (depth : Nat) : List Stmt → String
  | [] => ""
  | [s] => s.text depth ++ "\n"
  | s :: ss => s.text depth ++ ";\n" ++ Stmt.textList depth ss

end

mutual

def Decl.text (depth : Nat) : Decl → String
  | .const head value =>
    indentation depth ++ "const " ++ head.name ++ " = " ++ value.source ++ ";\n"
  | .var head => indentation depth ++ "var " ++ head.name ++ ";\n"
  | .procedure head decls stmt =>
    indentation depth ++ "procedure " ++ head.name ++ ";\n" ++
      Decl.textList (depth + 1) decls ++ stmt.text (depth + 1) ++ "\n" ++
      indentation depth ++ ";\n"

def Decl.textList (depth : Nat) : List Decl → String
  | [] => ""
  | d :: ds => d.text depth ++ Decl.textList depth ds

end

def Block.text (depth : Nat) (b : Block) : String :=
  Decl.textList depth b.decls ++ b.stmt.text depth

def Program.text (p : Program) : String := p.block.text 0 ++ ".\n"

end PLZero
