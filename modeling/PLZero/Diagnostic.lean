import PLZero.Place

/-!
# Diagnostics

Everything that can go wrong is reported as a `Diagnostic`: a class of fault with the words that
fill its message.  Each part of the library has a fault type of its own with the causes it knows,
and a function from it to diagnostics.

* `Diagnostic.message` — the text shown to the user.
* `Diagnostic.stage` — the part of the work the fault belongs to.
* `Diagnostic.place?` — where in the source text it lies, if it lies there.
-/

namespace PLZero

inductive Stage where
  | io
  | lexical
  | grammar
  | scope
  | type
  | code
  | machine
  | unit
  | driver
  deriving DecidableEq, Repr

inductive Diagnostic where
  | fileRead (reason : String)
  | fileWrite (reason : String)
  | io (reason : String)
  | lexical (reason : String) (place : Place)
  | unknownToken (c : Char) (place : Place)
  | unterminatedString (place : Place)
  | multilineString (place : Place)
  | invalidNumber (digits : String) (place : Place)
  | endOfTokens
  | unexpected (expected found : String) (place : Place)
  | undefinedSymbol (name : String) (place : Place)
  | duplicateSymbol (name : String) (place : Place)
  | scope (reason : String)
  | typeMismatch (expected found name : String) (place : Place)
  | type (reason : String) (place : Place)
  | code (reason : String) (line : Option Nat)
  | malformedUnit (reason : String)
  | machine (reason : String)
  | compilation (part reason : String)
  | other (reason : String)
  deriving DecidableEq, Repr

namespace Diagnostic

def message : Diagnostic → String
  | fileRead reason => s!"File read error: {reason}"
  | fileWrite reason => s!"File write error: {reason}"
  | io reason => s!"I/O error: {reason}"
  | lexical reason place => s!"Lexer error at {place.inWords}: {reason}"
  | unknownToken c place => s!"Unknown token '{c}' at {place.inWords}"
  | unterminatedString place => s!"Unterminated string literal at {place.inWords}"
  | multilineString place => s!"Multiline string literals not supported at {place.inWords}"
  | invalidNumber digits place => s!"Invalid number '{digits}' at {place.inWords}"
  | endOfTokens => "Token stream read past end of input"
  | unexpected expected found place =>
    s!"Syntax error at {place.inWords}: expected '{expected}', found '{found}'"
  | undefinedSymbol name place => s!"Undefined symbol '{name}' at {place.inWords}"
  | duplicateSymbol name place =>
    s!"Symbol '{name}' already defined in this scope, at {place.inWords}"
  | scope reason => s!"Scope error: {reason}"
  | typeMismatch expected found name place =>
    s!"Type mismatch at {place.inWords}: expected {expected} but found {found} for '{name}'"
  | type reason place => s!"Type error at {place.inWords}: {reason}"
  | code reason (some line) => s!"Code generation error at line {line}: {reason}"
  | code reason none => s!"Code generation error: {reason}"
  | malformedUnit reason => s!"Invalid bytecode: {reason}"
  | machine reason => s!"Runtime error: {reason}"
  | compilation part reason => s!"Compilation error in {part}: {reason}"
  | other reason => s!"Error: {reason}"

def stage : Diagnostic → Stage
  | fileRead _ | fileWrite _ | io _ => .io
  | lexical _ _ | unknownToken _ _ | unterminatedString _ | multilineString _
  | invalidNumber _ _ | endOfTokens => .lexical
  | unexpected _ _ _ => .grammar
  | undefinedSymbol _ _ | duplicateSymbol _ _ | scope _ => .scope
  | typeMismatch _ _ _ _ | type _ _ => .type
  | code _ _ => .code
  | malformedUnit _ => .unit
  | machine _ => .machine
  | compilation _ _ | other _ => .driver

def place? : Diagnostic → Option Place
  | lexical _ place | unknownToken _ place | unterminatedString place | multilineString place
  | invalidNumber _ place | unexpected _ _ place | undefinedSymbol _ place
  | duplicateSymbol _ place | typeMismatch _ _ _ place | type _ place => some place
  | _ => none

/-- The fault behind the diagnostic, when it reports one from outside: the text of an input or
output failure. -/
def cause? : Diagnostic → Option String
  | io reason => some reason
  | _ => none

end Diagnostic

end PLZero
