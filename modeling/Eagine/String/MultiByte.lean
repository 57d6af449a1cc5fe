import Mathlib.Data.BitVec
import Mathlib.Data.List.GetD

/-!
# Multi-byte sequences

The encoding of code points of up to 31 bits as sequences of one to six bytes.
The head byte tells the length of the sequence and holds the highest bits, and
every tail byte holds six further bits.
-/

namespace Eagine.MultiByte

/-- `code_point_t`. -/
abbrev CodePoint :=
  BitVec 32

def invalidCodePoint : CodePoint :=
  0x7FFFFFFF

/-- The validity of a `code_point`. -/
def isValid (cp : CodePoint) : Bool :=
  cp.toNat < 0x7FFFFFFF

/-- A `code_point`: there is no value in an invalid one. -/
def codePoint (cp : CodePoint) : Option CodePoint :=
  if isValid cp then some cp else none

/-- The validity of a `valid_sequence_length`. -/
def isSequenceLength (len : Nat) : Bool :=
  1 ≤ len && len ≤ 6

def maxCodePoint : Nat → CodePoint
  | 1 => 0x0000007F
  | 2 => 0x000007FF
  | 3 => 0x0000FFFF
  | 4 => 0x001FFFFF
  | 5 => 0x03FFFFFF
  | 6 => 0x7FFFFFFF
  | _ => 0x00000000

def headDataBitshift (len : Nat) : Nat :=
  (len - 1) * 6

def tailDataBitshift (idx len : Nat) : Option Nat :=
  if isSequenceLength idx && isSequenceLength len && idx + 1 ≤ len then
    some ((len - idx - 1) * 6)
  else none

def headCodeMask : Nat → BitVec 8
  | 1 => 0x80
  | 2 => 0xE0
  | 3 => 0xF0
  | 4 => 0xF8
  | 5 => 0xFC
  | 6 => 0xFE
  | _ => 0x00

def headDataMask (len : Nat) : BitVec 8 :=
  ~~~headCodeMask len

def tailCodeMask : BitVec 8 :=
  0xC0

def tailDataMask : BitVec 8 :=
  0x3F

def headCodeFromMask (mask : BitVec 8) : BitVec 8 :=
  mask <<< 1

def headCode (len : Nat) : BitVec 8 :=
  headCodeFromMask (headCodeMask len)

def tailCode : BitVec 8 :=
  0x80

def isValidMaskedCode (b : UInt8) (mask code : BitVec 8) : Bool :=
  b.toBitVec &&& mask == code

def isValidHeadByte (len : Nat) (b : UInt8) : Bool :=
  isValidMaskedCode b (headCodeMask len) (headCode len)

/-- The overload of `is_valid_head_byte` for the sequences of any length. -/
def isValidHeadByteOfAny (b : UInt8) : Bool :=
  isValidHeadByte 1 b || isValidHeadByte 2 b || isValidHeadByte 3 b ||
    isValidHeadByte 4 b || isValidHeadByte 5 b || isValidHeadByte 6 b

def isValidTailByte (b : UInt8) : Bool :=
  isValidMaskedCode b tailCodeMask tailCode

/-- The length of the sequence for a code point, if there is one. -/
def requiredSequenceLength (cp : CodePoint) : Option Nat :=
  if cp < maxCodePoint 1 then some 1
  else if cp < maxCodePoint 2 then some 2
  else if cp < maxCodePoint 3 then some 3
  else if cp < maxCodePoint 4 then some 4
  else if cp < maxCodePoint 5 then some 5
  else if cp < maxCodePoint 6 then some 6
  else none

def doDecodeSequenceLength (b : UInt8) : Option Nat :=
  if isValidHeadByte 1 b then some 1
  else if isValidHeadByte 2 b then some 2
  else if isValidHeadByte 3 b then some 3
  else if isValidHeadByte 4 b then some 4
  else if isValidHeadByte 5 b then some 5
  else if isValidHeadByte 6 b then some 6
  else none

def decodeSequenceLength (seq : List UInt8) : Option Nat :=
  doDecodeSequenceLength (seq.getD 0 0)

def isValidEncoding (seq : List UInt8) : Bool :=
  match decodeSequenceLength seq with
  | some l =>
      if !isValidHeadByte l (seq.getD 0 0) then false
      else if seq.length < l then false
      else (List.range' 1 (l - 1)).all fun i => isValidTailByte (seq.getD i 0)
  | none => false

def decodeCodePointHead (len : Nat) (b : UInt8) : CodePoint :=
  (b.toBitVec &&& headDataMask len).setWidth 32 <<< headDataBitshift len

def decodeCodePointTail (len : Nat) (b : UInt8) (idx : Nat) : Option CodePoint :=
  (tailDataBitshift idx len).map fun bitshift =>
    (b.toBitVec &&& tailDataMask).setWidth 32 <<< bitshift

/-- The loop of `do_decode_code_point_from` over the remaining tail bytes. -/
def decodeTailFrom (len : Nat) (src : List UInt8) : Nat → Nat → CodePoint → CodePoint
  | 0, _, cp => cp
  | count + 1, idx, cp =>
      match decodeCodePointTail len (src.getD idx 0) idx with
      | some tail => decodeTailFrom len src count (idx + 1) (cp ||| tail)
      | none => invalidCodePoint

def doDecodeCodePointFrom (len : Nat) (src : List UInt8) : Option CodePoint :=
  codePoint (decodeTailFrom len src (len - 1) 1 (decodeCodePointHead len (src.getD 0 0)))

def doDecodeCodePointC (len : Nat) (src : List UInt8) : Option CodePoint :=
  if len < src.length then doDecodeCodePointFrom len src else none

/-- The length of the sequence at the start, by its head byte, and its code
point. -/
def doDecodeLengthAndCodePoint (s : List UInt8) : Option Nat × Option CodePoint :=
  match s with
  | [] => (none, none)
  | b :: _ =>
      if isValidHeadByte 1 b then (some 1, doDecodeCodePointC 1 s)
      else if isValidHeadByte 2 b then (some 2, doDecodeCodePointC 2 s)
      else if isValidHeadByte 3 b then (some 3, doDecodeCodePointC 3 s)
      else if isValidHeadByte 4 b then (some 4, doDecodeCodePointC 4 s)
      else if isValidHeadByte 5 b then (some 5, doDecodeCodePointC 5 s)
      else if isValidHeadByte 6 b then (some 6, doDecodeCodePointC 6 s)
      else (none, none)

def doDecodeCodePoint (src : List UInt8) (vl : Option Nat) : Option CodePoint :=
  match vl with
  | some len => if len - 1 < src.length then doDecodeCodePointFrom len src else none
  | none => none

def decodeCodePoint (src : List UInt8) : Option CodePoint :=
  doDecodeCodePoint src (decodeSequenceLength src)

def doEncodeCodePointByte (cp : CodePoint) (code mask : BitVec 8) (bitshift : Nat) : UInt8 :=
  ⟨code ||| (mask &&& (cp >>> bitshift).setWidth 8)⟩

def encodeCodePointHead (len : Nat) (cp : CodePoint) : UInt8 :=
  doEncodeCodePointByte cp (headCode len) (headDataMask len) (headDataBitshift len)

def encodeCodePointTail (len : Nat) (cp : CodePoint) (idx : Nat) : Option UInt8 :=
  (tailDataBitshift idx len).map (doEncodeCodePointByte cp tailCode tailDataMask)

/-- The loop of `do_encode_code_point_into` over the remaining tail bytes. -/
def encodeTailFrom (len : Nat) (cp : CodePoint) : Nat → Nat → List UInt8 → Bool × List UInt8
  | 0, _, dest => (true, dest)
  | count + 1, idx, dest =>
      match encodeCodePointTail len cp idx with
      | some tail => encodeTailFrom len cp count (idx + 1) (dest.set idx tail)
      | none => (false, dest)

def doEncodeCodePointInto (len : Nat) (cp : CodePoint) (dest : List UInt8) : Bool × List UInt8 :=
  encodeTailFrom len cp (len - 1) 1 (dest.set 0 (encodeCodePointHead len cp))

def doEncodeCodePoint (cp : Option CodePoint) (dest : List UInt8) (vl : Option Nat) :
    Bool × List UInt8 :=
  match cp, vl with
  | some cp, some len =>
      if len - 1 < dest.length then doEncodeCodePointInto len cp dest else (false, dest)
  | _, _ => (false, dest)

/-- The length of the sequence that is written to the destination. -/
def encodeCodePoint (cp : Option CodePoint) (dest : List UInt8) : Option Nat × List UInt8 :=
  let len := cp.bind requiredSequenceLength
  let (encoded, after) := doEncodeCodePoint cp dest len
  (if encoded then len else none, after)

/-- The overload of `encode_code_point` that makes a string, by way of a temporary
array. -/
def encodeCodePointString (cp : Option CodePoint) : Option (List UInt8) :=
  match cp.bind requiredSequenceLength with
  | some len =>
      let done := doEncodeCodePoint cp (List.replicate 7 0) (some len)
      if done.1 then some (done.2.take len) else none
  | none => none

/-- Marks the destination as no sequence at all. -/
def encodeNil (dest : List UInt8) : List UInt8 :=
  dest.set 0 0xFF

def encodingBytesRequired : List (Option CodePoint) → Option Nat
  | [] => some 0
  | cp :: cps =>
      match cp.bind requiredSequenceLength with
      | some len => (encodingBytesRequired cps).map (len + ·)
      | none => none

/-- The loop of `decoding_code_points_required` over the remaining bytes. -/
def decodingCodePointsFrom : Nat → List UInt8 → Nat → Option Nat
  | _, [], result => some result
  | 0, _ :: _, _ => none
  | fuel + 1, b :: bytes, result =>
      match doDecodeSequenceLength b with
      | some len =>
          -- Past the end, where the assertion fails.
          if bytes.length + 1 < len then none
          else decodingCodePointsFrom fuel ((b :: bytes).drop len) (result + 1)
      | none => none

/-- Every sequence has a byte, thus there are not more steps than bytes. -/
def decodingCodePointsRequired (bytes : List UInt8) : Option Nat :=
  decodingCodePointsFrom bytes.length bytes 0

/-- The code points are written one after another, each of them into the part of
the destination that remains. -/
def encodeCodePoints : List (Option CodePoint) → List UInt8 → Bool × List UInt8
  | [], bytes => (true, bytes)
  | none :: _, bytes => (false, bytes)
  | some cp :: cps, bytes =>
      if bytes.length = 0 then (false, bytes)
      else
        match encodeCodePoint (codePoint cp) bytes with
        | (some len, after) =>
            let others := encodeCodePoints cps (after.drop len)
            (others.1, after.take len ++ others.2)
        | (none, after) => (false, after)

/-- The code points are read one after another, each of them from the part of the
source that remains. -/
def decodeCodePoints : List UInt8 → List (Option CodePoint) → Bool × List (Option CodePoint)
  | _, [] => (true, [])
  | bytes, cp :: cps =>
      if bytes.length = 0 then (false, cp :: cps)
      else
        match decodeSequenceLength bytes with
        | some len =>
            match doDecodeCodePoint bytes (some len) with
            | some tcp =>
                let others := decodeCodePoints (bytes.drop len) cps
                (others.1, some tcp :: others.2)
            | none => (false, cp :: cps)
        | none => (false, cp :: cps)

end Eagine.MultiByte
