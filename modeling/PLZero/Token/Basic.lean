import PLZero.Operator
import PLZero.Place
import PLZero.Text.Visible
import PLZero.Value

/-!
# Tokens

A token is a kind with its payload, the place where it starts, and its exact source text.  The
boolean words `true` and `false` are literals; `=` is an operator also where it introduces the value
of a constant.
-/

namespace PLZero

inductive Keyword where
  | const
  | var
  | procedure
  | call
  | begin
  | «end»
  | «if»
  | «then»
  | «while»
  | «do»
  deriving DecidableEq, Repr

/-- Punctuation. -/
inductive Mark where
  | dot
  | comma
  | semicolon
  | leftParen
  | rightParen
  | question
  | bang
  | assign
  deriving DecidableEq, Repr

inductive TokenKind where
  | ident (name : String)
  | literal (value : Value)
  | keyword (word : Keyword)
  | op (op : Op)
  | mark (mark : Mark)
  | eof
  deriving DecidableEq, Repr

structure Token where
  kind : TokenKind
  place : Place
  text : String
  deriving DecidableEq, Repr

namespace Keyword

def all : List Keyword :=
  [const, var, procedure, call, begin, «end», «if», «then», «while», «do»]

def spelling : Keyword → String
  | const => "const"
  | var => "var"
  | procedure => "procedure"
  | call => "call"
  | begin => "begin"
  | «end» => "end"
  | «if» => "if"
  | «then» => "then"
  | «while» => "while"
  | «do» => "do"

end Keyword

namespace Mark

def spelling : Mark → String
  | dot => "."
  | comma => ","
  | semicolon => ";"
  | leftParen => "("
  | rightParen => ")"
  | question => "?"
  | bang => "!"
  | assign => ":="

end Mark

namespace TokenKind

/-- The kind a word has when it is reserved. -/
def reserved? (word : String) : Option TokenKind :=
  if word = "true" then some (literal (.bool true))
  else if word = "false" then some (literal (.bool false))
  else (Keyword.all.find? fun k => k.spelling = word).map keyword

/-- The kind without its payload. -/
def spelling : TokenKind → String
  | ident _ => "identifier"
  | literal value => value.kindName
  | keyword word => word.spelling
  | op o => o.symbol
  | mark m => m.spelling
  | eof => "EOF"

/-- The kind with its payload, for messages. -/
def describe : TokenKind → String
  | ident name => s!"identifier {name}"
  | literal (.str s) => s!"string {Text.visible s}"
  | literal value => s!"{value.kindName} {value.text}"
  | eof => "end of input"
  | kind => kind.spelling

/-- Equality that disregards the payload of identifiers and literals. -/
def sameKind : TokenKind → TokenKind → Bool
  | ident _, ident _ => true
  | literal v, literal w => v.ty = w.ty
  | k, l => k = l

def op? : TokenKind → Option Op
  | op o => some o
  | _ => none

def isRelational (kind : TokenKind) : Bool := kind.op?.any Op.isRelational

end TokenKind

namespace Token

/-- The name an identifier token carries, and the source text of any other. -/
def name (t : Token) : String :=
  match t.kind with
  | .ident name => name
  | _ => t.text

end Token

end PLZero
