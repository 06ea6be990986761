import PLZero.Text.Extender
import PLZero.Text.Ignorable
import PLZero.Text.Printable

/-!
# Text made visible

Messages show a text value so that every character of it can be told apart: in double quotes, with
the usual short escapes, and with the code point of each character that cannot be shown by itself.
-/

namespace PLZero.Text

/-- The lower-case hexadecimal code point of `c` in the form `\u{…}`. -/
def codePointEscape (c : Char) : List Char :=
  ['\\', 'u', '\x7b'] ++ Nat.toDigits 16 c.toNat ++ ['\x7d']

def visibleChar : Char → List Char
  | '\x00' => ['\\', '0']
  | '\t' => ['\\', 't']
  | '\n' => ['\\', 'n']
  | '\r' => ['\\', 'r']
  | '"' => ['\\', '"']
  | '\\' => ['\\', '\\']
  | c => if isPrintable c && !isExtender c && !isIgnorable c then [c] else codePointEscape c

def visible (s : String) : String :=
  String.ofList ('"' :: s.toList.flatMap visibleChar ++ ['"'])

end PLZero.Text
