import BlobSigner.Bytes
/-!
# Hexadecimal text

Bytes are written as two lower-case digits each. A text is read byte by byte, without the marker
`0x` or `0X` that may stand in front of it; digits of either case count, and an odd length is
reported before a byte that is no digit. So a character outside ASCII, which has several bytes,
counts for as many and is no digit.
-/
namespace BlobSigner.Hex

inductive HexError where
  | oddLength
  | nonHexCharacter
deriving DecidableEq, Repr

def HexError.message : HexError → String
  | .oddLength => "Hex string must have even length"
  | .nonHexCharacter => "Hex string contains non-hex character"

/-! ## Digits -/

/-- The lower-case digit of a number below sixteen. -/
def digit (n : Nat) : UInt8 := if n < 10 then UInt8.ofNat (48 + n) else UInt8.ofNat (87 + n)

/-- `HexValue`: the value of a digit of either case. -/
def value? (c : UInt8) : Option Nat :=
  let n := c.toNat
  if 48 ≤ n ∧ n ≤ 57 then some (n - 48)
  else if 97 ≤ n ∧ n ≤ 102 then some (n - 87)
  else if 65 ≤ n ∧ n ≤ 70 then some (n - 55)
  else none

/-! ## Writing -/

/-- The bytes of the text for `b`. -/
def encodeText : Bytes → Bytes
  | [] => []
  | b :: r => digit (b.toNat / 16) :: digit (b.toNat % 16) :: encodeText r

/-- `ToHex`. -/
def encode (b : Bytes) : String := String.ofList ((encodeText b).map Char.ofUInt8)

/-! ## Reading -/

/-- At most one marker is dropped. -/
def dropMarker : Bytes → Bytes
  | 0x30 :: 0x78 :: r => r
  | 0x30 :: 0x58 :: r => r
  | t => t

/-- Two digits make a byte. A digit left alone makes none: the text has evenly many. -/
def decodePairs : Bytes → Except HexError Bytes
  | [] => .ok []
  | [_] => .error .nonHexCharacter
  | hi :: lo :: r =>
    match value? hi, value? lo with
    | some h, some l => (decodePairs r).map (UInt8.ofNat (16 * h + l) :: ·)
    | _, _ => .error .nonHexCharacter

/-- Reads the bytes of a text, whatever they are. -/
def decodeText (t : Bytes) : Except HexError Bytes :=
  let body := dropMarker t
  if body.length % 2 = 0 then decodePairs body else .error .oddLength

/-- `FromHex`. -/
def decode (s : String) : Except HexError Bytes := decodeText (utf8 s)

end BlobSigner.Hex
