/-!
# Log records

A record names the component that made it, its level and its text. Records below the level in
force are dropped; `off` is above every record.
-/
namespace BlobSigner

inductive LogLevel where
  | trace
  | debug
  | info
  | warn
  | error
  | critical
  | off
deriving DecidableEq, Repr

namespace LogLevel

/-- Levels rise from `trace` to `off`. -/
def rank : LogLevel → Nat
  | trace => 0
  | debug => 1
  | info => 2
  | warn => 3
  | error => 4
  | critical => 5
  | off => 6

/-- The names that `ParseLogLevel` accepts. Two levels have a short name beside their long one;
letter case counts. -/
def ofName? : String → Option LogLevel
  | "trace" => some trace
  | "debug" => some debug
  | "info" => some info
  | "warning" => some warn
  | "warn" => some warn
  | "error" => some error
  | "err" => some error
  | "critical" => some critical
  | "off" => some off
  | _ => none

/-- The long name. -/
def name : LogLevel → String
  | trace => "trace"
  | debug => "debug"
  | info => "info"
  | warn => "warning"
  | error => "error"
  | critical => "critical"
  | off => "off"

end LogLevel

/-- The components that keep a log. -/
inductive Component where
  | signer
  | codec
  | verifier
  | admission
  | tool
deriving DecidableEq, Repr

def Component.name : Component → String
  | signer => "signer"
  | codec => "codec"
  | verifier => "verifier"
  | admission => "admission"
  | tool => "tool"

structure LogRecord where
  component : Component
  level : LogLevel
  text : String
deriving DecidableEq, Repr

/-- Is the record kept at this level? -/
def LogRecord.passes (threshold : LogLevel) (r : LogRecord) : Bool :=
  threshold.rank ≤ r.level.rank

end BlobSigner
