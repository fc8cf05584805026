import FiniteState.CommandLine.Report

/-!
# The program

Reads the files that the arguments name and takes a seed for random words from the system.  All else
is decided by `Report.ofArguments`.
-/

namespace FiniteState.CommandLine

/-- The number by which the system tells of a failure. -/
def numberOf? : IO.Error → Option UInt32
  | .noFileOrDirectory _ number _ | .permissionDenied _ number _ | .inappropriateType _ number _
  | .invalidArgument _ number _ | .resourceExhausted _ number _ | .otherError number _ =>
    some number
  | _ => none

/-- Why a file cannot be read.  The number may be negated, as a word of 32 bits. -/
def fileErrorOf (e : IO.Error) : FileError :=
  ((numberOf? e).bind fun number =>
    FileError.ofNumber? number.toNat <|> FileError.ofNumber? (0 - number).toNat).getD
      (.other (toString e))

/-- The text of a file, or why there is none. -/
def readText (path : String) : IO (Except FileError String) := do
  try
    let bytes ← IO.FS.readBinFile path
    return ((String.fromUTF8? bytes).map .ok).getD (.error .notText)
  catch e =>
    return .error (fileErrorOf e)

/-- The files that a list of arguments names. -/
def pathsOf (arguments : List String) : List String :=
  match Invocation.ofArguments arguments with
  | .ok i => i.task.paths
  | .error _ => []

/-- The texts of some files. -/
def readFiles (paths : List String) : IO Files := do
  let texts ← paths.mapM fun path => return (path, ← readText path)
  return fun path => (texts.lookup path).getD (.error .missing)

/-- The number of words in the source of one walk. -/
def drawCount : Nat := 1024

/-- A random word. -/
def randomSeed : IO UInt64 := do
  return (← IO.getRandomBytes 8).toList.foldl (fun n byte => n * 256 + byte.toUInt64) 0

/-- A source of random words for each walk. -/
def sourceOf (seed : UInt64) (walk : Nat) : Draws :=
  .scattered drawCount (Draws.scatter (seed + UInt64.ofNat walk))

end FiniteState.CommandLine

open FiniteState.CommandLine in
/-- Shows what the arguments ask for. -/
def main (arguments : List String) : IO UInt32 := do
  let files ← readFiles (pathsOf arguments)
  let report := Report.ofArguments arguments files (sourceOf (← randomSeed))
  IO.print report.shown
  IO.eprint report.complaint
  return UInt32.ofNat report.status
