/-!
# Byte strings

Byte strings of any length, among them the bytes of a text, and of the one length that roots, digests
and coordinates have.
-/
namespace BlobSigner

abbrev Bytes := List UInt8

/-- The bytes of a text. -/
def utf8 (s : String) : Bytes := s.toByteArray.data.toList

theorem utf8_ofList (l : List Char) : utf8 (String.ofList l) = l.flatMap String.utf8EncodeChar := by
  simp [utf8, List.utf8Encode]

theorem utf8_append (s t : String) : utf8 (s ++ t) = utf8 s ++ utf8 t := by simp [utf8]

/-- What holds of the numbers below 256 holds of each byte. -/
theorem forall_byte {P : UInt8 → Prop} (h : ∀ n : Fin 256, P (UInt8.ofNat n)) (d : UInt8) : P d := by
  have hd := h ⟨d.toNat, d.toNat_lt⟩
  rwa [UInt8.ofNat_toNat] at hd

/-- Exactly thirty-two bytes. -/
structure Bytes32 where
  toList : Bytes
  length_toList : toList.length = 32
deriving DecidableEq

/-- The root of a blob's storage tree. -/
abbrev StorageRoot := Bytes32

namespace Bytes32

def ofList? (b : Bytes) : Option Bytes32 :=
  if h : b.length = 32 then some ⟨b, h⟩ else none

def zero : Bytes32 := ⟨List.replicate 32 0, by simp⟩

def reverse (b : Bytes32) : Bytes32 := ⟨b.toList.reverse, by simp [b.length_toList]⟩

@[simp] theorem toList_reverse (b : Bytes32) : b.reverse.toList = b.toList.reverse := rfl

@[ext] theorem ext {a b : Bytes32} (h : a.toList = b.toList) : a = b := by
  cases a; cases b; simp_all

end Bytes32

end BlobSigner
