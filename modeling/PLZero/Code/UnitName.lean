/-!
# Unit names

A unit name is one or more of the letters `A`–`Z` and `a`–`z`, the digits `0`–`9`, `_` and `$`, and
does not start with a digit.

* `isValid` — the rule.
* `ofStem` — a valid name close to any text: each character that cannot stand in a name becomes
  `_`, a leading digit gets a `_` in front, and the empty text becomes `Program`.
-/

namespace PLZero.UnitName

def isStart (c : Char) : Bool := c.isAlpha || c == '_' || c == '$'

def isPart (c : Char) : Bool := c.isAlphanum || c == '_' || c == '$'

def isValidList : List Char → Bool
  | [] => false
  | c :: cs => isStart c && cs.all isPart

def isValid (name : String) : Bool := isValidList name.toList

def ofStem (stem : String) : String :=
  let cleaned := stem.toList.map fun c => if isPart c then c else '_'
  if cleaned.isEmpty then "Program"
  else if isValidList cleaned then String.ofList cleaned
  else String.ofList ('_' :: cleaned)

end PLZero.UnitName
