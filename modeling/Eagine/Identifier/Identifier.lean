import Eagine.Memory.Biteset

/-!
# Identifiers

Short strings over a limited set of characters are packed into unsigned integers. Every
character has its index in the set as its code, and the codes are the values of a
biteset.
-/

namespace Eagine

/-- The characters that have codes. The codes have 6 bits, and one more of them is
invalid. -/
structure IdentifierCharSet where
  values : List UInt8
  fits : values.length < 2 ^ 6

namespace IdentifierEncoding

variable (charSet : IdentifierCharSet)

def invalid : BitVec 8 :=
  BitVec.ofNat 8 charSet.values.length

def isInvalid (c : BitVec 8) : Bool :=
  decide (invalid charSet ≤ c)

/-- Looks for the character among those that have the code or a higher one. -/
def doEncode (c : UInt8) : BitVec 8 → List UInt8 → BitVec 8
  | _, [] => invalid charSet
  | i, value :: enc =>
      if c = 0 then invalid charSet
      else if c = value then i
      else doEncode c (i + 1) enc

def encode (c : UInt8) : BitVec 8 :=
  doEncode charSet c 0 charSet.values

def decode (i : BitVec 8) : UInt8 :=
  if i < invalid charSet then charSet.values.getD i.toNat 0 else 0

/-- A view of the characters, without a terminating zero. -/
def chars : List UInt8 :=
  if charSet.values.getLast? = some 0 then charSet.values.dropLast else charSet.values

def canBeEncoded (str : List UInt8) : Bool :=
  str.all (chars charSet).contains

end IdentifierEncoding

/-- An unpacked name with its length. -/
structure IdentifierName (M : Nat) where
  data : List UInt8
  len : UInt8
  length_data : data.length = M + 1

namespace IdentifierName

variable {M : Nat}

/-- The construction from a length and a pack of characters. -/
def make (len : Nat) (c : Fin M → UInt8) : IdentifierName M where
  data := List.ofFn c ++ [UInt8.ofNat '\n'.toNat]
  len := UInt8.ofNat len
  length_data := by rw [List.length_append, List.length_ofFn, List.length_singleton]

def size (n : IdentifierName M) : Nat :=
  n.len.toNat

def str (n : IdentifierName M) : List UInt8 :=
  n.data.take n.size

end IdentifierName

/-- At most `M` characters, packed into unsigned integers of the width `w`. -/
structure BasicIdentifier (M w : Nat) (charSet : IdentifierCharSet) where
  bites : Biteset M 6
  deriving DecidableEq

namespace BasicIdentifier

open IdentifierEncoding

variable {M w : Nat} {charSet : IdentifierCharSet}

/-- `can_be_encoded` -/
def canBeEncoded (M : Nat) (charSet : IdentifierCharSet) (str : List UInt8) : Bool :=
  if str.length ≤ M then IdentifierEncoding.canBeEncoded charSet str else false

def makeBites (M : Nat) (charSet : IdentifierCharSet) (init : List UInt8) : Biteset M 6 :=
  .make fun I : Fin M => encode charSet (if I < init.length then init.getD I 0 else 0)

/-- The construction from a span of characters. -/
def ofChars (init : List UInt8) : BasicIdentifier M w charSet where
  bites := makeBites M charSet init

/-- The construction from an unsigned integer. -/
def ofValue (init : BitVec w) : BasicIdentifier M w charSet where
  bites := .fromValue init

def value (id : BasicIdentifier M w charSet) : BitVec w :=
  Byteset.asUInt w id.bites.bytes

def isEmpty (id : BasicIdentifier M w charSet) : Bool :=
  id.value == 0

/-- The first invalid code from an index on, that there are so many indices left from. -/
def getSize (id : BasicIdentifier M w charSet) : Nat → Nat → Nat
  | 0, _ => M
  | left + 1, s => if isInvalid charSet (id.bites.get s) then s else getSize id left (s + 1)

def size (id : BasicIdentifier M w charSet) : Nat :=
  if id.isEmpty then 0 else id.getSize M 0

/-- `operator[]` -/
def charAt (id : BasicIdentifier M w charSet) (idx : Nat) : UInt8 :=
  decode charSet (id.bites.get idx)

def name (id : BasicIdentifier M w charSet) : IdentifierName M :=
  .make id.size fun I : Fin M => id.charAt I

end BasicIdentifier

def defaultIdentifierCharSet : IdentifierCharSet where
  values :=
    ['_', 'e', 't', 'a', 'o', 'i', 'n', 's', 'r', 'h', 'l', 'd', 'c',
      'u', 'm', 'f', 'p', 'g', 'w', 'y', 'b', 'v', 'k', 'x', 'j', 'q',
      'z', 'T', 'A', 'I', 'S', 'O', 'W', 'H', 'B', 'C', 'M', 'F', 'P',
      'D', 'R', 'L', 'E', 'G', 'N', 'Y', 'U', 'K', 'V', 'J', 'Q', 'X',
      'Z', '0', '1', '2', '3', '4', '5', '6', '7', '8', '9'].map fun c => UInt8.ofNat c.toNat
  fits := by decide

/-- `identifier` -/
protected abbrev Identifier :=
  BasicIdentifier 10 64 defaultIdentifierCharSet

end Eagine
