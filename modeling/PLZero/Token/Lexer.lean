import PLZero.Diagnostic
import PLZero.Text.Alphabetic
import PLZero.Text.Blank
import PLZero.Text.Numeric
import PLZero.Token.Basic

/-!
# From text to tokens

* `Lexeme` — what stands at the head of a text: a token or something to skip, and its length.
* `lexeme` — reads the longest lexeme at the head of a text.
* `scan` — the tokens of a whole text, closed by an end-of-input token.

The scan moves over the text one character at a time and keeps the place of the character it is at.
Where no lexeme is under way it reads one, and then passes over the characters that belong to it.
-/

namespace PLZero

inductive ScanFault where
  | unknownCharacter (c : Char) (place : Place)
  | unterminatedString (place : Place)
  | multilineString (place : Place)
  | numberTooLarge (digits : String) (place : Place)
  | badEscape (c : Char) (place : Place)
  | loneColon (place : Place)
  deriving DecidableEq, Repr

namespace ScanFault

def diagnostic : ScanFault → Diagnostic
  | unknownCharacter c place => .unknownToken c place
  | unterminatedString place => .unterminatedString place
  | multilineString place => .multilineString place
  | numberTooLarge digits place => .invalidNumber digits place
  | badEscape c place => .lexical s!"Invalid escape sequence '\\{c}'" place
  | loneColon place => .lexical "Expected '=' after ':'" place

end ScanFault

def isIdentStart (c : Char) : Bool := Text.isAlphabetic c || c == '_' || c == '$'

def isIdentPart (c : Char) : Bool :=
  Text.isAlphabetic c || Text.isNumeric c || c == '_' || c == '$'

/-- What stands at the head of a text, and how many characters it takes.  Blanks and comments have
no kind. -/
structure Lexeme where
  kind? : Option TokenKind
  length : Nat
  deriving DecidableEq, Repr

namespace Lexer

def skip (length : Nat) : Lexeme := ⟨none, length⟩

def token (kind : TokenKind) (length : Nat) : Lexeme := ⟨some kind, length⟩

/-- The contents of a string literal up to its closing quote, and the number of characters read.
`start` is the place of the opening quote and `p` the place of the head of the text. -/
def stringBody (start : Place) : Place → List Char → Except ScanFault (List Char × Nat)
  | _, [] => .error (.unterminatedString start)
  | p, c :: cs =>
    if c = '"' then .ok ([], 1)
    else if c = '\n' then .error (.multilineString start)
    else if c = '\\' then
      match cs with
      | [] => .error (.unterminatedString start)
      | e :: cs =>
        match Quoted.unescape? e with
        | some d => do
          let (contents, length) ← stringBody start ((p.next c).next e) cs
          return (d :: contents, length + 2)
        | none => .error (.badEscape e (p.next c))
    else do
      let (contents, length) ← stringBody start (p.next c) cs
      return (c :: contents, length + 1)

def wordKind (word : String) : TokenKind :=
  (TokenKind.reserved? word).getD (.ident word)

/-- Tokens of one character that start no longer one. -/
def single? : Char → Option TokenKind
  | '.' => some (.mark .dot)
  | ',' => some (.mark .comma)
  | ';' => some (.mark .semicolon)
  | '(' => some (.mark .leftParen)
  | ')' => some (.mark .rightParen)
  | '+' => some (.op (.arith .add))
  | '-' => some (.op (.arith .sub))
  | '*' => some (.op (.arith .mul))
  | '%' => some (.op (.arith .rem))
  | '?' => some (.mark .question)
  | '!' => some (.mark .bang)
  | '=' => some (.op (.compare .eq))
  | '#' => some (.op (.compare .ne))
  | _ => none

/-- The lexeme that starts with a punctuation character `c` at `p`, where `cs` follows. -/
def punctuation (p : Place) (c : Char) (cs : List Char) : Except ScanFault Lexeme :=
  match c, cs with
  | ':', '=' :: _ => .ok (token (.mark .assign) 2)
  | ':', _ => .error (.loneColon p)
  | '<', '=' :: _ => .ok (token (.op (.compare .le)) 2)
  | '<', '>' :: _ => .ok (token (.op (.compare .ne)) 2)
  | '<', _ => .ok (token (.op (.compare .lt)) 1)
  | '>', '=' :: _ => .ok (token (.op (.compare .ge)) 2)
  | '>', _ => .ok (token (.op (.compare .gt)) 1)
  | '/', '/' :: cs => .ok (skip (2 + (cs.takeWhile (· ≠ '\n')).length))
  | '/', _ => .ok (token (.op (.arith .div)) 1)
  | c, _ =>
    match single? c with
    | some kind => .ok (token kind 1)
    | none => .error (.unknownCharacter c p)

/-- The longest lexeme of the text `c :: cs` at `p`. -/
def lexeme (p : Place) (c : Char) (cs : List Char) : Except ScanFault Lexeme :=
  if Text.isBlank c then .ok (skip 1)
  else if isIdentStart c then
    let word := c :: cs.takeWhile isIdentPart
    .ok (token (wordKind (String.ofList word)) word.length)
  else if c.isDigit then
    let digits := c :: cs.takeWhile Char.isDigit
    match Decimal.read? digits with
    | some n => .ok (token (.literal (.int n)) digits.length)
    | none => .error (.numberTooLarge (String.ofList digits) p)
  else if c = '"' then do
    let (contents, length) ← stringBody p (p.next c) cs
    return token (.literal (.str (String.ofList contents))) (length + 1)
  else punctuation p c cs

/-- The tokens of the text at `p`, after its first `pending` characters, which belong to a lexeme
that was read before. -/
def scanFrom : (pending : Nat) → (p : Place) → List Char → Except ScanFault (List Token)
  | _, p, [] => .ok [⟨.eof, p, ""⟩]
  | pending + 1, p, c :: cs => scanFrom pending (p.next c) cs
  | 0, p, c :: cs => do
    let l ← lexeme p c cs
    let rest ← scanFrom (l.length - 1) (p.next c) cs
    match l.kind? with
    | some kind => return ⟨kind, p, String.ofList ((c :: cs).take l.length)⟩ :: rest
    | none => return rest

end Lexer

def scan (source : String) : Except ScanFault (List Token) :=
  Lexer.scanFrom 0 Place.start source.toList

end PLZero
