import RandomX.Hash
import RandomX.Shell.Arguments
import RandomX.Text

/-!
# Answers

What the tool prints for a command, or why it fails.
-/
namespace RandomX.Shell

/-! ## Failures -/

structure Failure where
  summary : String
  cause : Option String := none
  deriving DecidableEq, Inhabited

def Failure.render (f : Failure) : String :=
  match f.cause with
  | none => s!"Error: {f.summary}\n"
  | some cause => s!"Error: {f.summary}\n\nCaused by:\n    {cause}\n"

/-- Names what was being done when an error arose. -/
def during {α : Type} (doing : String) (x : Except Error α) : Except Failure α :=
  x.mapError fun e => ⟨doing, some e.message⟩

/-! ## Reading values -/

def hexMessage : Hex.ReadError → String
  | .oddLength => "Odd number of digits"
  | .invalidByte b position => s!"Invalid character {Quoted.render b} at position {position}"

/-- The bytes of a text of hexadecimal digits, called by a name in failures. -/
def readHex (what text : String) : Except Failure ByteArray :=
  (Hex.decode text).mapError fun e => ⟨s!"invalid {what} hex", some (hexMessage e)⟩

def ByteSource.read (what : String) : ByteSource → Except Failure ByteArray
  | text s => .ok s.toUTF8
  | hex s => readHex what s

/-- The digest in a text, which may have blanks around it. -/
def readDigest (text : String) : Except Failure Digest := do
  let bytes ← readHex "expected" (Blank.trim text)
  if h : bytes.data.size = digestBytes then return ⟨bytes.data, h⟩
  else throw ⟨s!"expected {digestBytes} bytes, got {bytes.size}", none⟩

/-! ## Resources -/

variable (i : Invocation)

/-- The switches that the settings ask for, without regard to the host. -/
def Invocation.flags : Flags :=
  { hardAes := i.hardAes && !i.softAes, fullMem := i.full }

def cacheFor (flags : Flags) (key : ByteArray) : Except Failure Cache := do
  let cache ← during "allocating cache" (Cache.create flags)
  match cache.init key with
  | (.ok (), cache) => return cache
  | (.error e, _) => during "initializing cache" (.error e)

/-- A machine for a key in the mode that the switches ask for. -/
def machineFor (flags : Flags) (key : ByteArray) : Except Failure Machine := do
  let cache ← cacheFor flags key
  if flags.fullMem then
    let dataset ← during "allocating dataset" (Dataset.create flags cache)
    let dataset ← during "building dataset" (dataset.build 0 datasetItems.toUInt64)
    during "creating vm" (Machine.create flags none (some dataset))
  else
    during "creating vm" (Machine.create flags (some cache) none)

/-! ## Commands -/

/-- Lines to print, or a benchmark that is yet to be timed. -/
inductive Answer where
  | lines (ls : List String)
  | bench (m : Machine) (count firstNonce : Nat)

def digestText (d : Digest) : String :=
  Hex.encode (bytesOfVector d)

def hashInput (m : Machine) (input : ByteArray) : Except Failure Digest := do
  return (← during "hashing" (m.hash input)).1

/-- The line for a register of an item. -/
def itemLine (line : Line) (r : Reg) : String :=
  s!"r{r.index}: 0x{Hex.word (line.get r)}"

def Invocation.answer : Except Failure Answer := do
  let flags := i.flags
  match i.command with
  | .hash key input =>
    let m ← machineFor flags (← key.read "key")
    return .lines [digestText (← hashInput m (← input.read "input"))]
  | .commit key input =>
    let input ← input.read "input"
    let m ← machineFor flags (← key.read "key")
    let digest ← hashInput m input
    return .lines [s!"hash:       {digestText digest}", s!"commitment: {digestText (commitment input digest)}"]
  | .verify key input expected =>
    let expected ← readDigest expected
    let m ← machineFor flags (← key.read "key")
    let digest ← hashInput m (← input.read "input")
    if digest = expected then return .lines [s!"OK {digestText digest}"]
    else throw ⟨s!"hash mismatch: expected {digestText expected}, got {digestText digest}", none⟩
  | .bench key count firstNonce =>
    return .bench (← machineFor flags (← key.read "key")) count firstNonce
  | .item key index =>
    if index < datasetItems then
      let cache ← cacheFor { flags with fullMem := false } (← key.read "key")
      let line ← during "computing item" (cache.item index.toUInt64)
      return .lines (Reg.all.map (itemLine line))
    else
      throw ⟨s!"item {index} out of range (dataset has {Number.grouped datasetItems} items)", none⟩

/-! ## Benchmarks -/

/-- The bytes that are hashed for a nonce: a template of zeros with the nonce in its place. -/
def templateBytes : Nat :=
  76

def nonceOffset : Nat :=
  39

def template (nonce : Nat) : ByteArray :=
  let zeros (n : Nat) : ByteArray := ⟨Array.replicate n 0⟩
  pushWord32 (zeros nonceOffset) nonce.toUInt32 ++ zeros (templateBytes - nonceOffset - 4)

/-- The sum of the digests of `n` templates from a nonce on. -/
def combinedFrom : (n : Nat) → (nonce : Nat) → Machine → Digest → Except Error Digest
  | 0, _, _, combined => .ok combined
  | n + 1, nonce, m, combined => do
    let (digest, m) ← m.hash (template nonce)
    combinedFrom n (nonce + 1) m (combined.zipWith (· ^^^ ·) digest)

/-- The number of nonces, which end with the greatest one. -/
def benchHashes (count firstNonce : Nat) : Nat :=
  min (firstNonce + count) (UInt32.size - 1) - firstNonce

def combined (m : Machine) (count firstNonce : Nat) : Except Error Digest :=
  combinedFrom (benchHashes count firstNonce) firstNonce m (Vector.replicate 32 0)

/-- A duration, with minutes once there are any. -/
def durationText (milliseconds : Nat) : String :=
  let minutes := milliseconds / 60000
  if 0 < minutes then s!"{minutes}m {Number.withPlaces 1 (Number.roundDiv (milliseconds % 60000) 100)}s"
  else s!"{Number.withPlaces 3 milliseconds}s"

/-- The report of a benchmark. -/
def benchLines (hashes milliseconds : Nat) (combined : Digest) : List String :=
  [s!"hashes:   {Number.grouped hashes}",
   s!"elapsed:  {durationText milliseconds}",
   s!"rate:     {Number.withPlaces 2 (Number.roundDiv (hashes * 100000) (max milliseconds 1))} H/s",
   s!"combined: {digestText combined}"]

end RandomX.Shell
