/-!
# Statuses and kinds of error

Every answer of the service carries a status: a number that the transport forwards, and a message.
Numbers without a meaning can be carried too. A refusal is of one of six kinds, each of which has
its number.
-/
namespace BlobSigner

/-- A number that says how a call ended. -/
structure StatusCode where
  number : Int
deriving DecidableEq, Repr

namespace StatusCode

def ok : StatusCode := ⟨0⟩
def invalidArgument : StatusCode := ⟨3⟩
def resourceExhausted : StatusCode := ⟨8⟩
def internal : StatusCode := ⟨13⟩

/-- `StatusCodeName`. -/
def name (c : StatusCode) : String :=
  if c = ok then "OK"
  else if c = invalidArgument then "INVALID_ARGUMENT"
  else if c = resourceExhausted then "RESOURCE_EXHAUSTED"
  else if c = internal then "INTERNAL"
  else "UNKNOWN"

end StatusCode

structure Status where
  code : StatusCode
  message : String
deriving DecidableEq, Repr

namespace Status

def ok : Status := ⟨.ok, ""⟩

def isOk (s : Status) : Bool := s.code = .ok

/-- `ToString`: a good status shows no message. -/
def text (s : Status) : String :=
  if s.isOk then s.code.name else s.code.name ++ ": " ++ s.message

end Status

/-- `SignErrorKind`. -/
inductive ErrorKind where
  /-- Too many calls at once; it may be tried again. -/
  | overloaded
  /-- Lengths, curve points or slices that cannot be read. -/
  | malformedInput
  /-- The slices are not those assigned to the quorum. -/
  | assignmentMismatch
  /-- A slice failed its proof. -/
  | cryptographicFailure
  /-- The blob does not await signatures. -/
  | lifecycleViolation
  /-- Chain or storage failed; it may be tried again. -/
  | dependencyFailure
deriving DecidableEq, Repr

namespace ErrorKind

def name : ErrorKind → String
  | overloaded => "overloaded"
  | malformedInput => "malformed input"
  | assignmentMismatch => "assignment mismatch"
  | cryptographicFailure => "cryptographic failure"
  | lifecycleViolation => "lifecycle violation"
  | dependencyFailure => "dependency failure"

def statusCode : ErrorKind → StatusCode
  | overloaded => .resourceExhausted
  | malformedInput => .invalidArgument
  | assignmentMismatch => .invalidArgument
  | cryptographicFailure => .invalidArgument
  | lifecycleViolation => .internal
  | dependencyFailure => .internal

/-- The kinds are numbered from one. -/
def ofNumber? : Int → Option ErrorKind
  | 1 => some overloaded
  | 2 => some malformedInput
  | 3 => some assignmentMismatch
  | 4 => some cryptographicFailure
  | 5 => some lifecycleViolation
  | 6 => some dependencyFailure
  | _ => none

/-- `SignErrorKindName`. -/
def nameOfNumber (n : Int) : String := (ofNumber? n).elim "unknown" name

/-- `ToStatusCode`: a number that names no kind is an internal error. -/
def statusCodeOfNumber (n : Int) : StatusCode := (ofNumber? n).elim .internal statusCode

end ErrorKind

/-- `SignError`, a refusal of the service: its kind and what it says. -/
structure SignError where
  kind : ErrorKind
  message : String
deriving DecidableEq, Repr

def SignError.status (e : SignError) : Status := ⟨e.kind.statusCode, e.message⟩

end BlobSigner
