import BlobSigner.Tool
/-!
# Options as text

On the command line an option is `--name value` or `--name=value`, and the one argument without a
name is the command; in a file it is a line `name = value`, where a `#` starts a comment and a line
`[part]` puts `part.` before the names below it. All names are looked up first, then the values are
stored in turn. A file says nothing about options that are given beside it: what it has for them is
passed over unread.

`invoke` is the whole tool, from the arguments and the texts of files to what is shown.
-/
namespace BlobSigner.Tool

/-! ## Names -/

/-- The node's options, those of a blob, and the two that say what is to be done. -/
inductive OptionName where
  | config
  | key
  | maxOngoing
  | verifyThreads
  | payloadLimit
  | logLevel
  | blob (o : BlobOption)
  | command
  | help
deriving DecidableEq, Repr

namespace OptionName

def all : List OptionName :=
  [config, key, maxOngoing, verifyThreads, payloadLimit, logLevel, blob .root, blob .epoch,
    blob .quorum, blob .commitment, command, help]

def text : OptionName → String
  | config => "config"
  | key => "signer-private-key"
  | maxOngoing => "max-ongoing-sign-request"
  | verifyThreads => "max-verify-threads"
  | payloadLimit => "max-slice-payload-len"
  | logLevel => "log-level"
  | blob o => o.name
  | command => "command"
  | help => "help"

def ofText? (s : String) : Option OptionName := all.find? (·.text = s)

end OptionName

inductive OptionError where
  | unknown (text : String)
  | invalid (n : OptionName) (value : String)
  | repeated (n : OptionName)
  | noValue (n : OptionName)
  /-- Nothing follows the `=`. -/
  | emptyValue (n : OptionName)
  /-- A value for an option that has none. -/
  | extraValue (n : OptionName)
  /-- A second argument without a name. -/
  | excess
  /-- A line of a file that is no entry. -/
  | line (text : String)
deriving DecidableEq, Repr

def OptionError.message : OptionError → String
  | unknown text => s!"unrecognised option '{text}'"
  | invalid n value => s!"the argument ('{value}') for option '--{n.text}' is invalid"
  | repeated n => s!"option '--{n.text}' cannot be specified more than once"
  | noValue n => s!"the required argument for option '--{n.text}' is missing"
  | emptyValue n =>
    s!"the argument for option '--{n.text}' should follow immediately after the equal sign"
  | extraValue n => s!"option '--{n.text}' does not take any arguments"
  | excess => "too many positional options have been specified on the command line"
  | line text => s!"the options configuration file contains an invalid line '{text}'"

/-! ## Values -/

/-- The value of decimal digits, at least one, if it has 64 bits. -/
def decimal? (digits : List Char) : Option UInt64 :=
  let n := Nat.ofDigitChars 10 digits 0
  if digits ≠ [] ∧ digits.all Char.isDigit ∧ n < UInt64.size then some (.ofNat n) else none

/-- A number, with a sign or without; a minus negates the word. -/
def number? (s : String) : Option UInt64 :=
  match s.toList with
  | '-' :: digits => (decimal? digits).map fun w => 0 - w
  | '+' :: digits => decimal? digits
  | digits => decimal? digits

def OptionName.number (n : OptionName) (value : String) : Except OptionError UInt64 :=
  match number? value with
  | some w => .ok w
  | none => .error (.invalid n value)

namespace Invocation

def empty : Invocation := ⟨false, none, .empty⟩

/-- The option has a value. -/
def gives (i : Invocation) : OptionName → Bool
  | .config => i.options.node.file.isSome
  | .key => i.options.node.key.isSome
  | .maxOngoing => i.options.node.maxOngoing.isSome
  | .verifyThreads => i.options.node.verifyThreads.isSome
  | .payloadLimit => i.options.node.payloadLimit.isSome
  | .logLevel => i.options.node.logLevel.isSome
  | .blob .root => i.options.root.isSome
  | .blob .epoch => i.options.epoch.isSome
  | .blob .quorum => i.options.quorum.isSome
  | .blob .commitment => i.options.commitment.isSome
  | .command => i.command.isSome
  | .help => i.help

/-- The option takes the value, whatever it had before. -/
def set (i : Invocation) (n : OptionName) (value : String) : Except OptionError Invocation :=
  match n with
  | .config => .ok { i with options.node.file := some value }
  | .key => .ok { i with options.node.key := some value }
  | .maxOngoing => (n.number value).map fun w => { i with options.node.maxOngoing := some w }
  | .verifyThreads => (n.number value).map fun w => { i with options.node.verifyThreads := some w }
  | .payloadLimit => (n.number value).map fun w => { i with options.node.payloadLimit := some w }
  | .logLevel => .ok { i with options.node.logLevel := some value }
  | .blob .root => .ok { i with options.root := some value }
  | .blob .epoch => (n.number value).map fun w => { i with options.epoch := some w }
  | .blob .quorum => (n.number value).map fun w => { i with options.quorum := some w }
  | .blob .commitment => .ok { i with options.commitment := some value }
  | .command => .ok { i with command := some value }
  | .help => .ok { i with help := true }

end Invocation

abbrev Entry := OptionName × String

namespace Invocation

/-- Takes the values of the entries in turn, no option twice. Entries of final options are passed
over, whatever they say. -/
def store (final : OptionName → Bool) : List Entry → Invocation → Except OptionError Invocation
  | [], i => .ok i
  | (n, value) :: rest, i =>
    if final n then store final rest i
    else if i.gives n then .error (.repeated n)
    else
      match i.set n value with
      | .error e => .error e
      | .ok i => store final rest i

def ofEntries (entries : List Entry) : Except OptionError Invocation :=
  store (fun _ => false) entries .empty

end Invocation

/-! ## Command line -/

/-- The parts of a text before and after its first `=`. -/
def cutAtEquals (s : List Char) : Option (List Char × List Char) :=
  match s.dropWhile (· ≠ '=') with
  | [] => none
  | _ :: value => some (s.takeWhile (· ≠ '='), value)

/-- An argument, or two that belong together: a value and the name that it is given. -/
abbrev Token := Option OptionName × String

/-- The arguments in turn. What follows a name is its value, whatever it looks like. -/
def tokens : List String → Except OptionError (List Token)
  | [] => .ok []
  | s :: rest =>
    match s.toList with
    | ['-', 'h'] => (tokens rest).map ((some .help, "") :: ·)
    | '-' :: '-' :: text =>
      match cutAtEquals text with
      | some (name, value) =>
        match OptionName.ofText? (String.ofList name) with
        | none => .error (.unknown ("--" ++ String.ofList name))
        | some n =>
          if value = [] then .error (.emptyValue n)
          else if n = .help then .error (.extraValue n)
          else (tokens rest).map ((some n, String.ofList value) :: ·)
      | none =>
        match OptionName.ofText? (String.ofList text), rest with
        | none, _ => .error (.unknown s)
        | some .help, rest => (tokens rest).map ((some .help, "") :: ·)
        | some n, [] => .error (.noValue n)
        | some n, value :: rest => (tokens rest).map ((some n, value) :: ·)
    | '-' :: _ :: _ => .error (.unknown s)
    | _ => (tokens rest).map ((none, s) :: ·)

/-- What the arguments say: the one without a name is the command. -/
def Invocation.ofArguments (arguments : List String) : Except OptionError Invocation :=
  match tokens arguments with
  | .error e => .error e
  | .ok ts =>
    if 1 < ts.countP (·.1.isNone) then .error .excess
    else Invocation.ofEntries (ts.map fun (n, value) => (n.getD .command, value))

/-! ## File -/

def trimBlanks (s : List Char) : List Char :=
  ((s.dropWhile Char.isWhitespace).reverse.dropWhile Char.isWhitespace).reverse

/-- What a section puts before the names that follow it. -/
def sectionPrefix (heading : List Char) : List Char :=
  let name := heading.tail.dropLast
  if name.getLast? = some '.' then name else name ++ ['.']

/-- The entries of the lines in turn, in a section. -/
def entriesOfLines (pre : List Char) : List (List Char) → Except OptionError (List Entry)
  | [] => .ok []
  | line :: rest =>
    let line := trimBlanks (line.takeWhile (· ≠ '#'))
    if line = [] then entriesOfLines pre rest
    else if line.head? = some '[' ∧ line.getLast? = some ']' then
      entriesOfLines (sectionPrefix line) rest
    else
      match cutAtEquals line with
      | none => .error (.line (String.ofList line))
      | some (name, value) =>
        let name := String.ofList (pre ++ trimBlanks name)
        match OptionName.ofText? name with
        | none => .error (.unknown name)
        | some n => (entriesOfLines pre rest).map ((n, String.ofList (trimBlanks value)) :: ·)

def entriesOfText (text : String) : Except OptionError (List Entry) :=
  entriesOfLines [] (text.toList.splitOn '\n')

namespace Invocation

/-- `StoreConfigFile` on a text: what the file adds to what is given. -/
def additions (i : Invocation) (text : String) : Except OptionError Options :=
  match entriesOfText text with
  | .error e => .error e
  | .ok entries => (store i.gives entries .empty).map (·.options)

/-- The path of the file that is read: there has to be something to do. -/
def path? (i : Invocation) : Option String :=
  if i.help || i.command.isNone then none else i.options.node.file

/-- What the file adds; there is nothing without a file that can be opened. -/
def readFile (files : String → Option String) (i : Invocation) :
    Except OptionError (Option Options) :=
  match i.path?.bind files with
  | none => .ok none
  | some text => (i.additions text).map some

end Invocation

/-! ## The tool -/

/-- The options that `AddSignerOptions` and `main` describe, and what they are for. -/
def optionTable : String :=
  "options:\n" ++
  "  --config                    file with further options; those given here take precedence\n" ++
  "  --signer-private-key        signer BN254 Fr secret key, 32-byte hex\n" ++
  "  --max-ongoing-sign-request  maximum concurrent batch sign calls (=10)\n" ++
  "  --max-verify-threads        slice verification threads (default: all of the machine)\n" ++
  "  --max-slice-payload-len     largest accepted encoded slice payload in bytes (=67108864)\n" ++
  "  --log-level                 trace|debug|info|warn|error|critical|off (=info)\n" ++
  "  -h --help                   show this help message\n" ++
  "  --command                   keygen|hash|sign\n" ++
  "  --root                      storage root, 32-byte hex\n" ++
  "  --epoch                     epoch\n" ++
  "  --quorum-id                 quorum id\n" ++
  "  --commitment                erasure commitment, 64-byte hex (x then y, little-endian)\n"

/-- Options that cannot be read end the work as any failure does. -/
def refuse (e : OptionError) (c : Console) : Nat × Console := (1, c.record (toolError e.message))

/-- `main`: the tool on arguments and files as they are; the exit status, and what was shown. -/
def invoke (files : String → Option String) (arguments : List String) (c : Console) :
    Nat × Console :=
  match Invocation.ofArguments arguments with
  | .error e => refuse e c
  | .ok i =>
    match i.readFile files with
    | .error e => refuse e c
    | .ok file => run optionTable (fun _ => file) i c

end BlobSigner.Tool
