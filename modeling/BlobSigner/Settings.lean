import BlobSigner.Admission
import BlobSigner.ErrorText
import BlobSigner.Service
import BlobSigner.SigningKey
/-!
# Settings

Options come in layers: those given directly, those in the file that they name, and the defaults.
Each option counts in the uppermost layer that has it. The settings are what the options mean; the
first option whose value has no meaning, in the order key, calls, threads, log level, is the error.
-/
namespace BlobSigner

/-- Options as they are given; each may be left out. -/
structure Options where
  /-- The path of a file with further options. -/
  file : Option String
  key : Option String
  maxOngoing : Option UInt64
  verifyThreads : Option UInt64
  payloadLimit : Option UInt64
  logLevel : Option String
deriving DecidableEq

namespace Options

def empty : Options := ⟨none, none, none, none, none, none⟩

/-- There is a default for each option that the node cannot do without, except the key. -/
def defaults : Options :=
  { empty with
    maxOngoing := some Admission.defaultMax
    payloadLimit := some Slice.defaultLimit
    logLevel := some LogLevel.info.name }

/-- One layer over another. -/
def above (upper lower : Options) : Options where
  file := upper.file <|> lower.file
  key := upper.key <|> lower.key
  maxOngoing := upper.maxOngoing <|> lower.maxOngoing
  verifyThreads := upper.verifyThreads <|> lower.verifyThreads
  payloadLimit := upper.payloadLimit <|> lower.payloadLimit
  logLevel := upper.logLevel <|> lower.logLevel

end Options

/-- `SignerConfig`. -/
structure Settings where
  key : Option Fr
  maxOngoing : UInt64
  /-- Without a number, one for each thread of the machine. -/
  verifyThreads : Option UInt64
  payloadLimit : UInt64
  logLevel : LogLevel
deriving DecidableEq

namespace Settings

inductive Failure where
  | unreadableFile (path : String)
  | key (e : SigningKey.FormError)
  | noCalls
  | noThreads
  | unknownLevel (name : String)
deriving DecidableEq, Repr

def Failure.message : Failure → String
  | .unreadableFile path => clip ("cannot open config file '" ++ path ++ "'")
  | .key e => e.message
  | .noCalls => "max-ongoing-sign-request must be > 0"
  | .noThreads => "max-verify-threads must be > 0"
  | .unknownLevel name => clip ("Unknown log level: " ++ name)

/-! ## Meaning of the options -/

def readKey : Option String → Except Failure (Option Fr)
  | none => .ok none
  | some s =>
    match SigningKey.parse s with
    | .ok k => .ok (some k)
    | .error e => .error (.key e)

def readMaxOngoing (given : Option UInt64) : Except Failure UInt64 :=
  let n := given.getD Admission.defaultMax
  if n = 0 then .error .noCalls else .ok n

def readThreads (given : Option UInt64) : Except Failure (Option UInt64) :=
  if given = some 0 then .error .noThreads else .ok given

/-- `ParseLogLevel`, if there is a text. -/
def readLevel : Option String → Except Failure LogLevel
  | none => .ok .info
  | some s =>
    match LogLevel.ofName? s with
    | some l => .ok l
    | none => .error (.unknownLevel s)

/-- `SignerConfigFromVariables`: options that are left out have their default values here too. -/
def ofOptions (o : Options) : Except Failure Settings :=
  match readKey o.key with
  | .error e => .error e
  | .ok key =>
    match readMaxOngoing o.maxOngoing with
    | .error e => .error e
    | .ok maxOngoing =>
      match readThreads o.verifyThreads with
      | .error e => .error e
      | .ok verifyThreads =>
        match readLevel o.logLevel with
        | .error e => .error e
        | .ok logLevel =>
          .ok ⟨key, maxOngoing, verifyThreads, o.payloadLimit.getD Slice.defaultLimit, logLevel⟩

/-! ## Layers -/

/-- `StoreConfigFile`: the options of the file that is named, if one is, beneath those given
directly. A file that cannot be opened has none. -/
def layered {α : Type} (above : α → α → α) (files : String → Option α) (path : Option String)
    (given : α) : Except Failure α :=
  match path with
  | none => .ok given
  | some path =>
    match files path with
    | some entries => .ok (above given entries)
    | none => .error (.unreadableFile path)

/-- `LoadSignerConfig`. -/
def load (files : String → Option Options) (given : Options) : Except Failure Settings :=
  match layered Options.above files given.file given with
  | .error e => .error e
  | .ok o => ofOptions (o.above .defaults)

/-- What a service with these settings is started with. -/
def setup (s : Settings) : Setup :=
  ⟨s.key, s.maxOngoing, s.verifyThreads.map UInt64.toNat, s.payloadLimit, []⟩

end Settings

end BlobSigner
