import BlobSigner.Integer.Radix
/-!
# Slices

A slice is one erasure-coded fragment of a blob. On the wire it is its index (eight bytes), the
length of its payload (four bytes) and the payload, numbers big-endian.
-/
namespace BlobSigner

/-- `EncodedSlice`. -/
structure Slice where
  index : UInt64
  payload : Bytes
deriving DecidableEq

namespace Slice

inductive FormError where
  /-- The index is cut short. -/
  | shortIndex
  /-- The length is cut short. -/
  | shortLength
  | aboveLimit
  | truncated
  | trailing
  /-- A payload whose length does not fit four bytes. -/
  | tooLong
deriving DecidableEq, Repr

def FormError.message : FormError → String
  | .shortIndex => "Not enough bytes to read u64"
  | .shortLength => "Not enough bytes to read u32"
  | .aboveLimit => "Slice payload exceeds max length"
  | .truncated => "Slice payload is truncated"
  | .trailing => "Slice has trailing bytes"
  | .tooLong => "Slice payload exceeds uint32 length"

/-- The longest payload that is read unless told otherwise. -/
def defaultLimit : UInt64 := 67108864

/-- `EncodeSlice`. -/
def encode (s : Slice) : Except FormError Bytes :=
  if s.payload.length < UInt32.size then
    .ok (Radix.bigEndian 8 s.index.toNat ++ Radix.bigEndian 4 s.payload.length ++ s.payload)
  else .error .tooLong

/-- `ReadBe`: byte by byte, each shifting the ones before it up. -/
def readWord (b : Bytes) : UInt64 := b.foldl (fun w d => (w <<< 8) ||| d.toUInt64) 0

/-- `DecodeSlice`. -/
def decode (limit : UInt64) (b : Bytes) : Except FormError Slice :=
  if b.length < 8 then .error .shortIndex
  else if b.length < 12 then .error .shortLength
  else
    let length := readWord ((b.drop 8).take 4)
    if limit < length then .error .aboveLimit
    else
      let stop := 12 + length
      if stop.toNat = b.length then .ok ⟨readWord (b.take 8), b.drop 12⟩
      else if b.length < stop.toNat then .error .truncated
      else .error .trailing

end Slice

end BlobSigner
