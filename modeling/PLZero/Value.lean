import PLZero.Text.Decimal
import PLZero.Text.Quoted

/-!
# Types and values

The language has three types of values, and procedures.  Numbers are 32-bit integers whose
arithmetic wraps around.
-/

namespace PLZero

inductive Ty where
  | number
  | boolean
  | string
  | procedure
  deriving DecidableEq, Repr

inductive Value where
  | int (n : Int32)
  | bool (b : Bool)
  | str (s : String)
  deriving DecidableEq, Repr

namespace Ty

def name : Ty → String
  | number => "NUMBER"
  | boolean => "BOOLEAN"
  | string => "STRING"
  | procedure => "PROCEDURE"

/-- The type as a word in a message. -/
def word : Ty → String
  | number => "number"
  | boolean => "boolean"
  | string => "string"
  | procedure => "procedure"

/-- Types whose values can be read and printed. -/
def isValue (ty : Ty) : Bool := ty != procedure

/-- What a fresh variable of the type holds. -/
def default : Ty → Value
  | number | procedure => .int 0
  | boolean => .bool false
  | string => .str ""

end Ty

namespace Value

def ty : Value → Ty
  | int _ => .number
  | bool _ => .boolean
  | str _ => .string

/-- The word for the kind of value, in messages. -/
def kindName (v : Value) : String := v.ty.word

def boolName (b : Bool) : String := if b then "true" else "false"

/-- The value as it is printed. -/
def text : Value → String
  | int n => Decimal.print n
  | bool b => boolName b
  | str s => s

/-- The value as it is written in a program. -/
def source : Value → String
  | str s => Quoted.quote s
  | v => v.text

end Value

end PLZero
