import BlobSigner.Entropy
import BlobSigner.Settings
/-!
# The operator's tool

Makes a key, shows the point that a blob's message stands for, or signs a blob by hand. Lines are
printed as the work goes on. The settings are read, and the level of the log set, before the
command is looked at. A failure ends the work and leaves one error in the tool's log.
-/
namespace BlobSigner.Tool

/-! ## What the tool is told -/

inductive Command where
  | keygen
  | hash
  | sign
deriving DecidableEq, Repr

def Command.ofName? : String → Option Command
  | "keygen" => some .keygen
  | "hash" => some .hash
  | "sign" => some .sign
  | _ => none

/-- The options that name a blob. -/
inductive BlobOption where
  | root
  | epoch
  | quorum
  | commitment
deriving DecidableEq, Repr

def BlobOption.name : BlobOption → String
  | root => "root"
  | epoch => "epoch"
  | quorum => "quorum-id"
  | commitment => "commitment"

/-- The node's options and those that name a blob. -/
structure Options where
  node : BlobSigner.Options
  root : Option String
  epoch : Option UInt64
  quorum : Option UInt64
  commitment : Option String
deriving DecidableEq

def Options.empty : Options := ⟨.empty, none, none, none, none⟩

/-- One layer over another. -/
def Options.above (upper lower : Options) : Options where
  node := upper.node.above lower.node
  root := upper.root <|> lower.root
  epoch := upper.epoch <|> lower.epoch
  quorum := upper.quorum <|> lower.quorum
  commitment := upper.commitment <|> lower.commitment

structure Invocation where
  help : Bool
  command : Option String
  options : Options

def usage : String :=
  "usage: dasigner_tool <keygen|hash|sign> [options]\n" ++
  "  keygen  print a fresh signer key and its G1 public key\n" ++
  "  hash    print the hash-to-curve point of a blob (needs --root, --epoch,\n" ++
  "          --quorum-id, --commitment)\n" ++
  "  sign    like hash, then sign it with --signer-private-key\n"

/-! ## Failures -/

inductive Failure where
  | settings (e : Settings.Failure)
  | noKey
  | missing (o : BlobOption)
  | hex (e : Hex.HexError)
  | root (e : RootError)
  | commitment (e : Commitment.Error)
  | entropy (e : Entropy.Failure)
  | arithmetic (e : ArithmeticError)
deriving DecidableEq, Repr

def Failure.message : Failure → String
  | settings e => e.message
  | noKey => "sign needs --signer-private-key"
  | missing o => "missing --" ++ o.name
  | hex e => e.message
  | root e => e.message
  | commitment e => e.message
  | entropy e => e.message
  | arithmetic e => e.message

/-! ## What a run shows and uses up -/

structure Console where
  out : String
  err : String
  /-- Records that were at or above the level in force when they were made. -/
  log : List LogRecord
  level : LogLevel
  /-- Random bytes still to come. -/
  entropy : Entropy.Generator

namespace Console

def init (level : LogLevel) (entropy : Entropy.Generator) : Console := ⟨"", "", [], level, entropy⟩

def print (s : String) (c : Console) : Console := { c with out := c.out ++ s }

def complain (s : String) (c : Console) : Console := { c with err := c.err ++ s }

def record (r : LogRecord) (c : Console) : Console :=
  if r.passes c.level then { c with log := c.log ++ [r] } else c

end Console

/-- Work at a console, up to its end or to a failure. What was shown before a failure stays. -/
abbrev Run := EStateM Failure Console

def print (s : String) : Run Unit := modify (Console.print s)

/-- A result that may be a failure. -/
def attempt {ε α : Type} (cause : ε → Failure) : Except ε α → Run α
  | .ok a => pure a
  | .error e => throw (cause e)

/-- An option that the command cannot do without. -/
def require {α : Type} (o : BlobOption) : Option α → Run α
  | some a => pure a
  | none => throw (.missing o)

/-- `PrintPoint`. -/
def printPoint (label : String) : G1 → Run Unit
  | .infinity => print s!"{label}: infinity\n"
  | .affine x y => print s!"{label}.x: {x.val}\n{label}.y: {y.val}\n"

/-! ## Commands -/

/-- A commitment that is refused leaves its warnings in the log. -/
def readCommitment (b : Bytes) : Run G1 :=
  match Commitment.decode b with
  | .ok P => pure P
  | .error e => do
    for r in e.warnings do modify (Console.record r)
    throw (.commitment e)

/-- `ReadBlobInputs`: all four options have to be there before the first is read. -/
def readBlob (o : Options) : Run (BlobKey × G1) := do
  let root ← require .root o.root
  let epoch ← require .epoch o.epoch
  let quorum ← require .quorum o.quorum
  let commitment ← require .commitment o.commitment
  let root ← attempt .hex (Hex.decode root)
  let root ← attempt .root (StorageRoot.ofBytes root)
  let commitment ← attempt .hex (Hex.decode commitment)
  let commitment ← readCommitment commitment
  return (⟨epoch, quorum, root⟩, commitment)

/-- The key, which uses up random bytes. -/
def drawKey : Run Fr := do
  let c ← get
  let (key, rest) ← attempt .entropy (Entropy.scalar c.entropy)
  set { c with entropy := rest }
  return key

/-- `RunKeygen`. -/
def keygen : Run Unit := do
  let key ← drawKey
  let publicKey ← attempt .arithmetic (G1.generator.tryMul key)
  let b ← attempt .arithmetic key.toBigEndian
  print s!"signer-private-key: {Hex.encode b.toList}\n"
  let b ← attempt .arithmetic publicKey.encode
  print s!"public-key-g1: {Hex.encode b}\n"

/-- `RunHash`. -/
def hash (o : Options) : Run Unit := do
  let (key, commitment) ← readBlob o
  let preimage ← attempt .arithmetic (key.preimage commitment)
  let digest := Keccak.digest preimage
  print s!"preimage: {Hex.encode preimage}\ndigest: {Hex.encode digest.toList}\n"
  printPoint "hash" (G1.ofDigest digest)

/-- `RunSign`. -/
def sign (o : Options) (key : Option Fr) : Run Unit := do
  let some key := key | throw .noKey
  let (blob, commitment) ← readBlob o
  let signature ← attempt .arithmetic (blob.signaturePoint commitment key)
  printPoint "signature" signature
  let b ← attempt .arithmetic signature.encode
  print s!"signature: {Hex.encode b}\n"

/-! ## The tool -/

def toolError (text : String) : LogRecord := ⟨.tool, .error, text⟩

/-- Carries out a command by name; the answer is the exit status. -/
def perform (o : Options) (settings : Settings) (name : String) : Run Nat :=
  match Command.ofName? name with
  | some .keygen => do keygen; return 0
  | some .hash => do hash o; return 0
  | some .sign => do sign o settings.key; return 0
  | none => do
    modify (Console.record (toolError s!"unknown command '{name}'"))
    modify (Console.complain usage)
    return 1

/-- The settings come first, whatever the command. -/
def start (files : String → Option Options) (o : Options) (name : String) : Run Nat := do
  let o ← attempt .settings (Settings.layered Options.above files o.node.file o)
  let settings ← attempt .settings (Settings.ofOptions (o.node.above .defaults))
  modify fun c => { c with level := settings.logLevel }
  perform o settings name

/-- `main` on options that have been read: help, or the work; `optionTable` describes the options
and follows the usage. -/
def run (optionTable : String) (files : String → Option Options) (i : Invocation) (c : Console) :
    Nat × Console :=
  let help := c.print (usage ++ "\n" ++ optionTable ++ "\n")
  match i.help, i.command with
  | true, _ => (0, help)
  | false, none => (1, help)
  | false, some name =>
    match (start files i.options name).run c with
    | .ok status c => (status, c)
    | .error e c => (1, c.record (toolError e.message))

end BlobSigner.Tool
