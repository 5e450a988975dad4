import BlobSigner.Bn254.Field
import BlobSigner.Hex
/-!
# Signing keys

A key is a scalar other than zero, written as thirty-two bytes in hexadecimal, most significant
first.
-/
namespace BlobSigner.SigningKey

/-- Listed in the order in which they are looked for. -/
inductive FormError where
  | hex (e : Hex.HexError)
  | length
  | notCanonical
  | zero
deriving DecidableEq, Repr

def FormError.message : FormError → String
  | .hex e => e.message
  | .length => "signer private key must be 32 bytes of hex"
  | .notCanonical => "signer private key is not a canonical Fr element"
  | .zero => "signer private key must be non-zero"

def ofBytes (b : Bytes) : Except FormError Fr :=
  if b.length ≠ 32 then .error .length
  else match Fr.ofBigEndian b with
    | .error _ => .error .notCanonical
    | .ok k => if k = 0 then .error .zero else .ok k

/-- Reads the bytes of a text, whatever they are. -/
def parseText (t : Bytes) : Except FormError Fr :=
  match Hex.decodeText t with
  | .error e => .error (.hex e)
  | .ok b => ofBytes b

/-- `ParseSignerPrivateKey`. -/
def parse (s : String) : Except FormError Fr := parseText (utf8 s)

end BlobSigner.SigningKey
