/-!
# UTF-8

* `encode` — the bytes of a text.
* `decode` — the text of a byte sequence.  Surrogates, overlong forms and values above U+10FFFF
  are refused at the second byte of their sequence.
* `Fault` — where the longest well-formed start of the bytes ends, and whether the bytes stop
  inside a sequence that could still be completed.
-/

namespace PLZero.Utf8

inductive Fault where
  /-- The sequence that starts at `index` is bad after `length` acceptable bytes (at least 1). -/
  | invalid (length index : Nat)
  /-- The bytes end inside the sequence that starts at `index`. -/
  | incomplete (index : Nat)
  deriving DecidableEq, Repr

def Fault.message : Fault → String
  | .invalid length index => s!"invalid utf-8 sequence of {length} bytes from index {index}"
  | .incomplete index => s!"incomplete utf-8 byte sequence from index {index}"

/-- What is said of a stream whose bytes are not UTF-8, wherever the fault lies. -/
def streamMessage : String := "stream did not contain valid UTF-8"

/-- The continuation byte with the six bits `n % 64`. -/
def tail (n : Nat) : UInt8 := UInt8.ofNat (0x80 + n % 64)

def encodeChar (c : Char) : List UInt8 :=
  let n := c.toNat
  if n < 0x80 then [UInt8.ofNat n]
  else if n < 0x800 then [UInt8.ofNat (0xc0 + n / 64), tail n]
  else if n < 0x10000 then [UInt8.ofNat (0xe0 + n / 4096), tail (n / 64), tail n]
  else [UInt8.ofNat (0xf0 + n / 262144), tail (n / 4096), tail (n / 64), tail n]

def encode (cs : List Char) : List UInt8 := cs.flatMap encodeChar

/-- What the first byte of a sequence announces: its length and the bounds of its second byte. -/
inductive Lead where
  | one
  | two
  | three (low high : Nat)
  | four (low high : Nat)
  | none
  deriving DecidableEq, Repr

def lead (b : UInt8) : Lead :=
  let n := b.toNat
  if n < 0x80 then .one
  else if n < 0xc2 then .none
  else if n < 0xe0 then .two
  else if n < 0xf0 then
    .three (if n = 0xe0 then 0xa0 else 0x80) (if n = 0xed then 0x9f else 0xbf)
  else if n < 0xf5 then
    .four (if n = 0xf0 then 0x90 else 0x80) (if n = 0xf4 then 0x8f else 0xbf)
  else .none

def between (low high : Nat) (b : UInt8) : Bool := low ≤ b.toNat && b.toNat ≤ high

def isTail (b : UInt8) : Bool := between 0x80 0xbf b

/-- The code point with these leading bits, followed by the low six bits of each byte. -/
def codePoint (first : Nat) (tails : List UInt8) : Char :=
  Char.ofNat (tails.foldl (fun n b => n * 64 + b.toNat % 64) first)

/-- Decodes the bytes that start at position `i` of the whole. -/
def decodeFrom (i : Nat) : List UInt8 → Except Fault (List Char)
  | [] => .ok []
  | a :: rest =>
    match lead a with
    | .one => (codePoint a.toNat [] :: ·) <$> decodeFrom (i + 1) rest
    | .two =>
      match rest with
      | [] => .error (.incomplete i)
      | b :: rest =>
        if isTail b then (codePoint (a.toNat % 32) [b] :: ·) <$> decodeFrom (i + 2) rest
        else .error (.invalid 1 i)
    | .three low high =>
      match rest with
      | [] => .error (.incomplete i)
      | b :: rest =>
        if between low high b then
          match rest with
          | [] => .error (.incomplete i)
          | c :: rest =>
            if isTail c then (codePoint (a.toNat % 16) [b, c] :: ·) <$> decodeFrom (i + 3) rest
            else .error (.invalid 2 i)
        else .error (.invalid 1 i)
    | .four low high =>
      match rest with
      | [] => .error (.incomplete i)
      | b :: rest =>
        if between low high b then
          match rest with
          | [] => .error (.incomplete i)
          | c :: rest =>
            if isTail c then
              match rest with
              | [] => .error (.incomplete i)
              | d :: rest =>
                if isTail d then
                  (codePoint (a.toNat % 8) [b, c, d] :: ·) <$> decodeFrom (i + 4) rest
                else .error (.invalid 3 i)
            else .error (.invalid 2 i)
        else .error (.invalid 1 i)
    | .none => .error (.invalid 1 i)

def decode (bytes : List UInt8) : Except Fault (List Char) := decodeFrom 0 bytes

end PLZero.Utf8
