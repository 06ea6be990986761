/-!
# Places in a source text

A place is a line and a column, both counted from 1.  Columns count characters, whatever their
width; only a line feed starts a new line.
-/

namespace PLZero

structure Place where
  line : Nat
  column : Nat
  deriving DecidableEq, Repr

namespace Place

def start : Place := ⟨1, 1⟩

/-- The place of the character after `c`, when `c` stands at `p`. -/
def next (p : Place) (c : Char) : Place :=
  if c = '\n' then ⟨p.line + 1, 1⟩ else ⟨p.line, p.column + 1⟩

/-- The place after a whole text that starts at `p`. -/
def advance (p : Place) (cs : List Char) : Place := cs.foldl next p

def text (p : Place) : String := s!"{p.line}:{p.column}"

/-- The place the way messages give it. -/
def inWords (p : Place) : String := s!"line {p.line} column {p.column}"

end Place

end PLZero
