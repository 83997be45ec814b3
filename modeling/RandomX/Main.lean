import RandomX.Shell.Answer

/-!
# Command line

Reads the arguments, prints the answer, and exits with the code that tells success, failure and misuse apart. Nothing is
logged, and the number of workers and the detail of the log are read and then ignored, as no answer depends on them.
-/
namespace RandomX.Shell

def timeBench (m : Machine) (count firstNonce : Nat) : IO UInt32 := do
  let started ← IO.monoMsNow
  match combined m count firstNonce with
  | .ok digest =>
    let elapsed := (← IO.monoMsNow) - started
    for line in benchLines (benchHashes count firstNonce) elapsed digest do
      IO.println line
    return 0
  | .error e =>
    IO.eprint (Failure.render ⟨e.message, none⟩)
    return 1

end RandomX.Shell

open RandomX.Shell in
def main (arguments : List String) : IO UInt32 := do
  match parse arguments with
  | .error .usage =>
    IO.eprintln usageText
    return 2
  | .error .help =>
    IO.println helpText
    return 0
  | .error .version =>
    IO.print versionText
    return 0
  | .ok invocation =>
    match invocation.answer with
    | .error failure =>
      IO.eprint failure.render
      return 1
    | .ok (.bench m count firstNonce) => timeBench m count firstNonce
    | .ok (.lines ls) =>
      for line in ls do
        IO.println line
      return 0
