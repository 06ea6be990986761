import PLZero.Code.Encode
import PLZero.Diagnostic

/-!
# Units from bytes

A reader takes bytes from the front of those that are left and knows how many went before.  The
whole input must be used up.
-/

namespace PLZero

inductive UnitFault where
  | unexpectedEnd (position : Nat)
  | badMagic
  | unsupportedVersion (version : Nat)
  | badText (fault : Utf8.Fault)
  | unknownType (tag : Nat)
  | unknownCondition (tag : Nat)
  | badBoolean (byte : Nat)
  | unknownOpcode (opcode position : Nat)
  | trailingBytes
  deriving DecidableEq, Repr

namespace UnitFault

/-- A byte in two hexadecimal digits. -/
def hexByte (n : Nat) : String :=
  String.ofList [Nat.digitChar (n / 16 % 16), Nat.digitChar (n % 16)]

def reason : UnitFault → String
  | unexpectedEnd position => s!"unexpected end of unit at byte {position}"
  | badMagic => "bad magic number"
  | unsupportedVersion version => s!"unsupported format version {version}"
  | badText fault => s!"invalid utf-8 string: {fault.message}"
  | unknownType tag => s!"unknown type tag {tag}"
  | unknownCondition tag => s!"unknown condition tag {tag}"
  | badBoolean byte => s!"invalid boolean {byte}"
  | unknownOpcode opcode position => s!"unknown opcode 0x{hexByte opcode} at byte {position}"
  | trailingBytes => "trailing bytes after last routine"

def diagnostic (f : UnitFault) : Diagnostic := .malformedUnit f.reason

end UnitFault

/-- The bytes that are left, and the number of those that went before. -/
structure Cursor where
  position : Nat
  rest : List UInt8
  deriving DecidableEq, Repr

abbrev Reader := StateT Cursor (Except UnitFault)

namespace Reader

def take (n : Nat) : Reader (List UInt8) := fun c =>
  let taken := c.rest.take n
  if taken.length = n then .ok (taken, ⟨c.position + n, c.rest.drop n⟩)
  else .error (.unexpectedEnd c.position)

/-- The number a little-endian word denotes. -/
def littleEndian : List UInt8 → Nat
  | [] => 0
  | b :: bs => b.toNat + 256 * littleEndian bs

def word (size : Nat) : Reader Nat := littleEndian <$> take size

def text : Reader String := do
  let bytes ← take (← word 4)
  match Utf8.decode bytes with
  | .ok cs => return String.ofList cs
  | .error fault => throw (.badText fault)

def ty : Reader Ty := do
  match ← word 1 with
  | 0 => return .number
  | 1 => return .boolean
  | 2 => return .string
  | 3 => return .procedure
  | tag => throw (.unknownType tag)

def cond : Reader Cond := do
  match ← word 1 with
  | 0 => return .eq
  | 1 => return .ne
  | 2 => return .lt
  | 3 => return .le
  | 4 => return .gt
  | 5 => return .ge
  | tag => throw (.unknownCondition tag)

def boolean : Reader Bool := do
  match ← word 1 with
  | 0 => return false
  | 1 => return true
  | byte => throw (.badBoolean byte)

def label : Reader Label := return UInt32.ofNat (← word 4)

def number : Reader Int32 := return (UInt32.ofNat (← word 4)).toInt32

def instr : Reader Instr := do
  let position := (← get).position
  match ← word 1 with
  | 0x01 => return .push (.int (← number))
  | 0x02 => return .push (.bool (← boolean))
  | 0x03 => return .push (.str (← text))
  | 0x04 => return .load (← word 4) (← word 4)
  | 0x05 => return .store (← word 4) (← word 4)
  | 0x10 => return .arith .add
  | 0x11 => return .arith .sub
  | 0x12 => return .arith .mul
  | 0x13 => return .arith .div
  | 0x14 => return .arith .rem
  | 0x15 => return .and
  | 0x16 => return .or
  | 0x17 => return .concat
  | 0x20 => return .pop
  | 0x21 => return .swap
  | 0x22 => return .dup2
  | 0x23 => return .dupX2
  | 0x30 => return .strEquals
  | 0x31 => return .startsWith
  | 0x32 => return .endsWith
  | 0x33 => return .not
  | 0x40 => return .ifCmp (← cond) (← label)
  | 0x41 => return .ifStr true (← label)
  | 0x42 => return .ifStr false (← label)
  | 0x43 => return .ifBool false (← label)
  | 0x44 => return .ifBool true (← label)
  | 0x45 => return .goto (← label)
  | 0x46 => return .label (← label)
  | 0x50 => return .call (← word 4) (← word 4)
  | 0x60 => return .print (← ty)
  | 0x61 => return .read (← ty)
  | 0x70 => return .ret
  | opcode => throw (.unknownOpcode opcode position)

def times {α : Type} (item : Reader α) : Nat → Reader (List α)
  | 0 => return []
  | n + 1 => return (← item) :: (← times item n)

/-- The number of items, then the items. -/
def counted {α : Type} (item : Reader α) : Reader (List α) := do
  times item (← word 4)

def routine : Reader Routine :=
  return ⟨← text, ← counted ty, ← counted instr⟩

def unit : Reader CodeUnit := do
  if (← take 4) ≠ CodeUnit.magic then throw .badMagic
  let version ← word 2
  if version ≠ CodeUnit.formatVersion then throw (.unsupportedVersion version)
  let name ← text
  let routines ← counted routine
  if (← get).rest ≠ [] then throw .trailingBytes
  return ⟨name, routines⟩

end Reader

def CodeUnit.decode (bytes : List UInt8) : Except UnitFault CodeUnit :=
  Reader.unit.run' ⟨0, bytes⟩

end PLZero
