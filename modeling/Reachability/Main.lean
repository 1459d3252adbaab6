import Reachability.CommandLine.Run

/-!
# The program

The surroundings of `CommandLine.run` on a real machine: its files, its
standard streams and its clock.
-/

namespace Reachability.Main

def causeOf : IO.Error → FileCause
  | .noFileOrDirectory .. => .notFound
  | .inappropriateType .. => .isDirectory
  | .alreadyExists .. => .alreadyExists
  | error => .other (toString error)

def attempt (operation path : String) (action : IO α) : IO (Except FileError α) := do
  try return .ok (← action)
  catch error => return .error ⟨operation, path, causeOf error⟩

def files : FileAccess IO where
  read path := attempt "open" path (IO.FS.readFile path)
  write path content := attempt "open" path (IO.FS.writeFile path content)
  makeDirs path := attempt "mkdir" path (IO.FS.createDirAll path)
  makeTempDir parent suffix := do
    let path := parent ++ "/" ++ toString (← IO.monoNanosNow) ++ suffix
    return (← attempt "mkdir" path (IO.FS.createDir path)).map fun () => path

def elapsedSince (start : Nat) : IO String := do
  let hundredths := ((← IO.monoNanosNow) - start) / 10000000
  let places := toString (hundredths % 100)
  return toString (hundredths / 100) ++ "." ++ (if places.length = 1 then "0" else "") ++
    places ++ " s"

partial def exploreUntil (deadline : Option Nat) (setting : Setting (List ComponentState))
    (search : Search (List ComponentState)) : IO (Progress (List ComponentState)) := do
  let now ← IO.monoNanosNow
  let late := (deadline.map fun moment => decide (moment ≤ now)).getD false
  match search.step setting (if late then some .deadlineExceeded else none) with
  | .continued search => exploreUntil deadline setting search
  | progress => return progress

def verifyTimed (spec : AnalysisSpec) (traced : Bool) (name : String) (program : Stmt) :
    IO (Logged Report) := do
  match Verification.prepare spec traced name program with
  | (.error error, messages) => return (.error error, messages)
  | (.ok preparation, messages) =>
    let start ← IO.monoNanosNow
    let progress ←
      exploreUntil (spec.timeout?.map (start + ·)) preparation.setting preparation.search
    let (report, more) := Verification.conclude spec.targetFunction preparation progress
    let elapsed ← elapsedSince start
    return (report, messages ++ more.map (LogMessage.timed elapsed))

def write (start : Nat) : CommandLine.Output → IO Unit
  | .out text => do (← IO.getStdout).putStr text
  | .err text => do (← IO.getStderr).putStr text
  | .log message => do (← IO.getStderr).putStr (message.line (← elapsedSince start))

end Reachability.Main

open Reachability in
def main (args : List String) : IO UInt32 := do
  let env : CommandLine.Environment IO :=
    { files := Main.files
      write := Main.write (← IO.monoNanosNow)
      verify := Main.verifyTimed
      onTerminal := ← (← IO.getStdout).isTty
      processors := 1 }
  return (← CommandLine.run env args).toUInt32
