/-!
# Quoted text

A text value is written in double quotes.  Inside, a backslash and one character stand for a
character that cannot stand there itself.

* `unescape?` — what a character means after a backslash.
* `escape` — how a character is written inside quotes.
* `quote` — the written form of a whole text.

A single quote may be escaped but is never written so.
-/

namespace PLZero.Quoted

def unescape? : Char → Option Char
  | 'b' => some '\x08'
  | 't' => some '\t'
  | 'n' => some '\n'
  | 'f' => some '\x0c'
  | 'r' => some '\r'
  | '"' => some '"'
  | '\'' => some '\''
  | '\\' => some '\\'
  | _ => none

def escape : Char → List Char
  | '\x08' => ['\\', 'b']
  | '\t' => ['\\', 't']
  | '\n' => ['\\', 'n']
  | '\x0c' => ['\\', 'f']
  | '\r' => ['\\', 'r']
  | '"' => ['\\', '"']
  | '\\' => ['\\', '\\']
  | c => [c]

def quote (s : String) : String :=
  String.ofList ('"' :: s.toList.flatMap escape ++ ['"'])

end PLZero.Quoted
