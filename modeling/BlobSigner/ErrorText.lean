/-!
# Texts of failures

The text of a failure travels as a text that ends before its first NUL.
-/
namespace BlobSigner

/-- The text up to its first NUL. -/
def clip (s : String) : String := String.ofList (s.toList.takeWhile (· ≠ '\x00'))

end BlobSigner
