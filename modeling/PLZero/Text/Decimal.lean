/-!
# Decimal numerals of 32-bit integers

* `print` — the shortest decimal numeral, with a `-` in front of a negative number.
* `read?` — reads one nonempty run of the digits `0`–`9`, with an optional sign in front, whose
  value fits in 32 bits; nothing else may stand in the text.
-/

namespace PLZero.Decimal

def print (n : Int32) : String := toString n.toInt

/-- The number an unsigned numeral denotes. -/
def natural? (cs : List Char) : Option Nat :=
  if cs ≠ [] ∧ cs.all Char.isDigit then some (Nat.ofDigitChars 10 cs 0) else none

/-- The 32-bit integer equal to `i`, if there is one. -/
def int32? (i : Int) : Option Int32 :=
  if Int32.minValue.toInt ≤ i ∧ i ≤ Int32.maxValue.toInt then some (Int32.ofInt i) else none

def read? : List Char → Option Int32
  | '-' :: cs => do int32? (-(Int.ofNat (← natural? cs)))
  | '+' :: cs => do int32? (Int.ofNat (← natural? cs))
  | cs => do int32? (Int.ofNat (← natural? cs))

end PLZero.Decimal
