import PLZero.Code.Unit
import PLZero.Text.Utf8

/-!
# Units as bytes

The format: the four letters `PL0B`, the version as a 16-bit word, the name of the unit, the number
of routines, and the routines.  A routine is its name, the number of its slots and their types, and
the number of its instructions and the instructions.  Words are little-endian; all counts and
operands are 32-bit words, so of a larger number only its low 32 bits are kept.  A text is its
length in bytes and its UTF-8 bytes.
-/

namespace PLZero

namespace Bytes

def word8 (n : Nat) : List UInt8 := [UInt8.ofNat n]

def word16 (n : Nat) : List UInt8 := [UInt8.ofNat n, UInt8.ofNat (n / 256)]

def word32 (n : Nat) : List UInt8 := word16 n ++ word16 (n / 65536)

def text (s : String) : List UInt8 :=
  let bytes := Utf8.encode s.toList
  word32 bytes.length ++ bytes

/-- The number of items, then the items. -/
def counted {α : Type} (item : α → List UInt8) (xs : List α) : List UInt8 :=
  word32 xs.length ++ xs.flatMap item

end Bytes

open Bytes

def Ty.tag : Ty → Nat
  | .number => 0
  | .boolean => 1
  | .string => 2
  | .procedure => 3

def Cond.tag : Cond → Nat
  | eq => 0
  | ne => 1
  | lt => 2
  | le => 3
  | gt => 4
  | ge => 5

def Arith.opcode : Arith → Nat
  | add => 0x10
  | sub => 0x11
  | mul => 0x12
  | div => 0x13
  | rem => 0x14

namespace Instr

def opcode : Instr → Nat
  | push (.int _) => 0x01
  | push (.bool _) => 0x02
  | push (.str _) => 0x03
  | load .. => 0x04
  | store .. => 0x05
  | arith op => op.opcode
  | and => 0x15
  | or => 0x16
  | concat => 0x17
  | pop => 0x20
  | swap => 0x21
  | dup2 => 0x22
  | dupX2 => 0x23
  | strEquals => 0x30
  | startsWith => 0x31
  | endsWith => 0x32
  | not => 0x33
  | ifCmp .. => 0x40
  | ifStr true _ => 0x41
  | ifStr false _ => 0x42
  | ifBool false _ => 0x43
  | ifBool true _ => 0x44
  | goto _ => 0x45
  | label _ => 0x46
  | call .. => 0x50
  | print _ => 0x60
  | read _ => 0x61
  | ret => 0x70

def operands : Instr → List UInt8
  | push (.int n) => word32 n.toUInt32.toNat
  | push (.bool b) => word8 b.toNat
  | push (.str s) => Bytes.text s
  | load up slot => word32 up ++ word32 slot
  | store up slot => word32 up ++ word32 slot
  | ifCmp cond target => word8 cond.tag ++ word32 target.toNat
  | ifStr _ target => word32 target.toNat
  | ifBool _ target => word32 target.toNat
  | goto target => word32 target.toNat
  | label l => word32 l.toNat
  | call routine up => word32 routine ++ word32 up
  | print ty => word8 ty.tag
  | read ty => word8 ty.tag
  | _ => []

def encode (i : Instr) : List UInt8 := word8 i.opcode ++ i.operands

end Instr

def Routine.encode (r : Routine) : List UInt8 :=
  Bytes.text r.name ++ counted (fun ty => word8 ty.tag) r.locals ++ counted Instr.encode r.code

namespace CodeUnit

/-- The letters `PL0B`. -/
def magic : List UInt8 := [0x50, 0x4c, 0x30, 0x42]

def formatVersion : Nat := 1

def encode (u : CodeUnit) : List UInt8 :=
  magic ++ word16 formatVersion ++ Bytes.text u.name ++ counted Routine.encode u.routines

end CodeUnit

end PLZero
