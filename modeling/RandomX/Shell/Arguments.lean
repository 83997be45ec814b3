import RandomX.Text

/-!
# Arguments

The command line of the tool: a command with its options, and settings that may stand before or after the command. The
arguments are read from left to right, and the first one that settles the outcome does.
-/
namespace RandomX.Shell

/-! ## What can be asked for -/

inductive ByteSource where
  | text (s : String)
  | hex (s : String)
  deriving DecidableEq, Inhabited

inductive Command where
  | hash (key input : ByteSource)
  | commit (key input : ByteSource)
  | verify (key input : ByteSource) (expected : String)
  | bench (key : ByteSource) (count firstNonce : Nat)
  | item (key : ByteSource) (index : Nat)
  deriving DecidableEq, Inhabited

/-- A command and the settings around it. -/
structure Invocation where
  command : Command
  full : Bool
  threads : Option Nat
  hardAes : Bool
  softAes : Bool
  verbose : Bool
  deriving DecidableEq, Inhabited

/-- Why no command is run. -/
inductive Stop where
  /-- The arguments make no sense. -/
  | usage
  | help
  | version
  deriving DecidableEq, Inhabited

/-! ## Vocabulary -/

inductive Name where
  | hash | commit | verify | bench | item
  deriving DecidableEq, Inhabited

def Name.all : List (String × Name) :=
  [("hash", .hash), ("commit", .commit), ("verify", .verify), ("bench", .bench), ("item", .item)]

inductive Setting where
  | key | keyHex | input | inputHex | expected | count | startNonce | index
  | full | threads | hardAes | softAes | verbose | help | version
  deriving DecidableEq, Inhabited

/-- The settings that are followed by a value. -/
def Setting.takesValue : Setting → Bool
  | key | keyHex | input | inputHex | expected | count | startNonce | index | threads => true
  | _ => false

def Setting.accepts (s : Setting) (v : String) : Bool :=
  match s with
  | index | threads => (Number.natural? (UInt64.size - 1) v).isSome
  | count | startNonce => (Number.signed? (UInt32.size - 1) v).isSome
  | _ => true

/-- The settings that may stand anywhere. -/
def globalOptions : List (String × Setting) :=
  [("full", .full), ("threads", .threads), ("hard-aes", .hardAes), ("soft-aes", .softAes), ("verbose", .verbose),
   ("help", .help)]

def keyOptions : List (String × Setting) :=
  [("key", .key), ("key-hex", .keyHex)]

def inputOptions : List (String × Setting) :=
  [("input", .input), ("input-hex", .inputHex)]

/-- The long options before the command, or after a given one. -/
def longOptions : Option Name → List (String × Setting)
  | none => ("version", .version) :: globalOptions
  | some .hash | some .commit => keyOptions ++ inputOptions ++ globalOptions
  | some .verify => keyOptions ++ inputOptions ++ ("expected", .expected) :: globalOptions
  | some .bench => keyOptions ++ ("count", .count) :: ("start-nonce", .startNonce) :: globalOptions
  | some .item => keyOptions ++ globalOptions

/-- The short options before the command, or after a given one. -/
def shortOptions : Option Name → List (Char × Setting)
  | none => [('v', .verbose), ('h', .help), ('V', .version)]
  | some _ => [('v', .verbose), ('h', .help)]

/-! ## One level -/

/-- What was read before the command, or after it. -/
structure Level where
  /-- The command, on the level after it. -/
  name : Option Name
  /-- The settings read so far, each with its value. -/
  given : List (Setting × String) := []
  /-- A setting whose value is still to come, or not yet checked. -/
  pending : Option (Setting × Option String) := none
  /-- Only positional arguments follow. -/
  isTrailing : Bool := false

namespace Level

/-- The value given for a setting. -/
def value? (l : Level) (s : Setting) : Option String :=
  l.given.lookup s

def has (l : Level) (s : Setting) : Bool :=
  (l.value? s).isSome

/-- Adds a setting, once only and with a value that it accepts. -/
def add (l : Level) (s : Setting) (v : String) : Except Stop Level :=
  match s with
  | .help => .error .help
  | .version => .error .version
  | _ =>
    if l.has s || !s.accepts v then .error .usage
    else .ok { l with given := l.given ++ [(s, v)] }

def settle (l : Level) : Except Stop Level :=
  match l.pending with
  | none => .ok l
  | some (_, none) => .error .usage
  | some (s, some v) => add { l with pending := none } s v

/-- The next argument is the value of the setting before it. -/
def isAwaiting (l : Level) : Bool :=
  match l.pending with
  | some (_, none) => true
  | _ => false

/-- Reads a long option, which may carry its value behind an equals sign. -/
def long (l : Level) (name : String) (attached : Option String) : Except Stop Level := do
  match (longOptions l.name).lookup name with
  | none => throw .usage
  | some s =>
    if s.takesValue then
      let l ← l.settle
      match attached with
      | some v => l.add s v
      | none => return { l with pending := some (s, none) }
    else if attached.isSome then throw .usage
    else (← l.settle).add s ""

def short : Level → List Char → Except Stop Level
  | l, [] => .ok l
  | l, c :: rest =>
    match (shortOptions l.name).lookup c with
    | none => .error .usage
    | some s => do short (← (← l.settle).add s "") rest

/-- Reads a positional argument. Only the number of an item is one. -/
def positional (l : Level) (v : String) : Except Stop Level := do
  let l ← l.settle
  if l.name = some .item ∧ !l.has .index then return { l with pending := some (.index, some v) }
  else throw .usage

def splitLong (cs : List Char) : String × Option String :=
  match cs.span (· ≠ '=') with
  | (name, _ :: v) => (String.ofList name, some (String.ofList v))
  | (name, []) => (String.ofList name, none)

def read (l : Level) (argument : String) : Except Stop Level :=
  if l.isTrailing then l.positional argument
  else
    match argument.toList with
    | ['-', '-'] => .ok { l with isTrailing := true }
    | '-' :: '-' :: cs =>
      let (name, attached) := splitLong cs
      l.long name attached
    | '-' :: c :: cs => l.short (c :: cs)
    | _ =>
      match l.pending with
      | some (s, none) => .ok { l with pending := some (s, some argument) }
      | _ => l.positional argument

/-- The bytes given by exactly one of two settings. -/
def source (l : Level) (text hex : Setting) : Except Stop ByteSource :=
  match l.value? text, l.value? hex with
  | some s, none => .ok (.text s)
  | none, some s => .ok (.hex s)
  | _, _ => .error .usage

def isContradictory (l : Level) : Bool :=
  l.has .hardAes && l.has .softAes

def key (l : Level) : Except Stop ByteSource :=
  l.source .key .keyHex

def input (l : Level) : Except Stop ByteSource :=
  l.source .input .inputHex

/-- The number given for a setting, which was checked when it was read. -/
def number? (l : Level) (s : Setting) : Option Nat :=
  (l.value? s).bind (Number.signed? (UInt64.size - 1))

/-- The command of a level, with everything that it needs. -/
def command (l : Level) (name : Name) : Except Stop Command := do
  match name with
  | .hash => return .hash (← l.key) (← l.input)
  | .commit => return .commit (← l.key) (← l.input)
  | .verify =>
    match l.value? .expected with
    | some expected => return .verify (← l.key) (← l.input) expected
    | none => throw .usage
  | .bench => return .bench (← l.key) ((l.number? .count).getD 1000) ((l.number? .startNonce).getD 0)
  | .item =>
    match l.number? .index with
    | some index => return .item (← l.key) index
    | none => throw .usage

end Level

/-! ## The whole line -/

def readCommand (name : Name) (arguments : List String) : Except Stop (Level × Command) := do
  let l ← arguments.foldlM Level.read { name := some name }
  let l ← l.settle
  if l.isContradictory then throw .usage
  return (l, ← l.command name)

/-- The commands that help can be asked for. -/
def isHelpTopic : List String → Bool
  | [] => true
  | [topic] => topic == "help" || (Name.all.lookup topic).isSome
  | _ => false

/-- Reads the arguments from the level before the command on. -/
def readFrom : Level → List String → Except Stop Invocation
  | _, [] => .error .usage
  | l, argument :: rest => do
    if !l.isTrailing && !l.isAwaiting then
      if argument = "help" then throw (if isHelpTopic rest then .help else .usage)
      if let some name := Name.all.lookup argument then
        let (inner, command) ← readCommand name rest
        let outer ← l.settle
        if outer.isContradictory then throw .usage
        let has (s : Setting) : Bool := outer.has s || inner.has s
        return { command
                 full := has .full
                 threads := (inner.number? .threads).or (outer.number? .threads)
                 hardAes := has .hardAes
                 softAes := has .softAes
                 verbose := has .verbose }
    readFrom (← l.read argument) rest

def parse (arguments : List String) : Except Stop Invocation :=
  readFrom { name := none } arguments

/-! ## Texts in place of an answer -/

def versionText : String :=
  "randomx 0.1.0\n"

def helpText : String :=
  "RandomX proof-of-work hashing\n\n" ++
  "Usage: randomx [OPTIONS] <COMMAND>\n\n" ++
  "Commands:\n" ++
  "  hash    Print the hash of an input\n" ++
  "  commit  Print the hash and the commitment Blake2b-256(input || hash)\n" ++
  "  verify  Exit non-zero unless the input hashes to EXPECTED\n" ++
  "  bench   Hash COUNT block templates with consecutive nonces\n" ++
  "  item    Print the eight words of a dataset item\n" ++
  "  help    Print this message\n\n" ++
  "Options:\n" ++
  "      --full         Materialize the 2 GiB dataset instead of computing items on demand\n" ++
  "      --threads <N>  Dataset build workers\n" ++
  "      --hard-aes     Use AES-NI rounds when the CPU has them\n" ++
  "      --soft-aes     Force the portable AES tables\n" ++
  "  -v, --verbose      Log debug detail to stderr\n" ++
  "  -h, --help         Print help\n" ++
  "  -V, --version      Print version"

def usageText : String :=
  "error: the arguments make no sense\n\nFor more information, try '--help'."

end RandomX.Shell
