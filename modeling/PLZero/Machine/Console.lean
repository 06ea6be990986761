import PLZero.Machine.Fault
import PLZero.Text.Blank
import PLZero.Text.Utf8

/-!
# Reading and printing

* `Value.print` — a value of a type as a line of output.
* `Console.read` — takes one line of input, with its line feed, and reads a value of a type from it.
  The line is used up even if it holds no such value.

Numbers and booleans may have blanks around them; a string is the line as it stands, without the
line feeds and carriage returns at its end.
-/

namespace PLZero

/-- The line that prints a value by the printing routine of a type. -/
def Value.print (ty : Ty) (v : Value) : Except MachineFault String :=
  match ty, v with
  | .number, .int n => .ok (Decimal.print n ++ "\n")
  | .boolean, .bool b => .ok (Value.boolName b ++ "\n")
  | .string, .str s => .ok (s ++ "\n")
  | .boolean, v => .error (.argumentKind Ty.boolean.printerName .boolean v)
  | .string, v => .error (.argumentKind Ty.string.printerName .string v)
  | _, v => .error (.argumentKind Ty.number.printerName .number v)

def Value.negate : Value → Except MachineFault Value
  | .bool b => .ok (.bool !b)
  | v => .error (.argumentKind negationName .boolean v)

/-- The input that is left, and the output so far. -/
structure Console where
  input : List UInt8
  output : String
  deriving DecidableEq, Repr

namespace Console

/-- The first line with its line feed, and what follows it. -/
def splitLine : List UInt8 → List UInt8 × List UInt8
  | [] => ([], [])
  | b :: bs =>
    if b = 10 then ([b], bs)
    else
      let (line, rest) := splitLine bs
      (b :: line, rest)

/-- The line without the line feeds and carriage returns at its end. -/
def chomp (line : List Char) : List Char :=
  Text.dropEndWhile (fun c => c == '\n' || c == '\r') line

def parse (ty : Ty) (line : List Char) : Except MachineFault Value :=
  let text := chomp line
  match ty with
  | .number =>
    match Decimal.read? (Text.trim text) with
    | some n => .ok (.int n)
    | none => .error (.malformedNumber (String.ofList text))
  | .boolean =>
    let word := String.ofList (Text.trim text)
    if word = "true" then .ok (.bool true)
    else if word = "false" then .ok (.bool false)
    else .error (.malformedBoolean (String.ofList text))
  | .string => .ok (.str (String.ofList text))
  | .procedure => .error .readsProcedure

def parseLine (ty : Ty) (line : List UInt8) : Except MachineFault Value :=
  match Utf8.decode line with
  | .ok cs => parse ty cs
  | .error _ => .error .inputNotUtf8

/-- Reads a value from the next line; also gives the console without that line. -/
def read (ty : Ty) (c : Console) : Except MachineFault Value × Console :=
  match c.input with
  | [] => (.error .endOfInput, c)
  | b :: bs =>
    let (line, rest) := splitLine (b :: bs)
    (parseLine ty line, { c with input := rest })

def write (text : String) (c : Console) : Console := { c with output := c.output ++ text }

end Console

end PLZero
