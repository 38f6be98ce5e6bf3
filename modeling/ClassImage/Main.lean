import ClassImage.CommandLine.Run

/-!
# The command line program

Reads the files that the arguments name, and performs the actions of the run on the real file
system.
-/

namespace ClassImage.CommandLine

/-- The bytes of a file. -/
def readBytes (path : String) : IO Bytes := do
  return (← IO.FS.readBinFile path).data.toList

/-- The class files in and below a directory, in the order of their names. -/
partial def readDirectory (path : String) : IO (List (String × Bytes)) := do
  let entries ← (← IO.FS.realPath path).readDir
  let names := (entries.toList.map fun entry => entry.fileName).mergeSort fun a b => a ≤ b
  let mut found := []
  for name in names do
    let below := joinPath path name
    if ← (← IO.FS.realPath below).isDir then
      found := found ++ (← readDirectory below)
    else if isClassFileName below then
      found := found ++ [(below, ← readBytes below)]
  return found

/-- The class files that an argument names; none if nothing is there. -/
def readInput (path : String) : IO (List (String × Bytes)) := do
  try
    if ← (← IO.FS.realPath path).isDir then readDirectory path
    else return [(path, ← readBytes path)]
  catch _ => return []

/-- Makes the directory that a path leads to, with those on the way. -/
def makeDirectories (path : String) : IO Unit := do
  if (Path.ofString path).toPresent then
    let parent := parentPath path
    unless parent.isEmpty do
      IO.FS.createDirAll parent
    unless ← (← IO.FS.realPath path).isDir do
      throw (IO.userError s!"there is no directory {path}")
  else
    IO.FS.createDirAll path

/-- Performs an action. -/
def Action.perform : Action → IO Unit
  | .makeDirectories path => CommandLine.makeDirectories path
  | .write path content => IO.FS.writeBinFile path content.toByteArray
  | .print text => do (← IO.getStdout).putStr text
  | .abort => throw (IO.userError "the class image cannot be shown")

/-- Performs the actions of a plan until one fails. -/
def Plan.perform (plan : Plan) : IO UInt32 := do
  try
    for action in plan.actions do
      action.perform
    return UInt32.ofNat plan.exitCode
  catch error =>
    IO.eprintln s!"Error: {error}"
    return 1

/-- What the command line takes. -/
def usage : String :=
  "Usage: class-image [OPTIONS] <INPUT>...\n\n" ++
  "Options:\n" ++
  "  -o, --output-directory <DIRECTORY>  Sets the output directory [default: out]\n" ++
  "  -j, --jobs <N>                      Number of classes to convert in parallel [default: 1]\n" ++
  "      --eliminate-nops                Remove `nop` instructions from method bodies\n" ++
  "      --no-fold-constants             Never turn `ldc` of small ints into short immediates\n" ++
  "      --no-line-numbers               Leave line number tables out of the output\n" ++
  "      --strict                        Exit with an error if any method could not be " ++
  "converted\n" ++
  "      --disassemble                   Print the disassembly of every converted method\n" ++
  "  -h, --help                          Print help\n" ++
  "  -V, --version                       Print version\n"

end ClassImage.CommandLine

open ClassImage.CommandLine

def main (args : List String) : IO UInt32 := do
  match parse args with
  | .version =>
    IO.print versionText
    return 0
  | .help =>
    IO.print usage
    return 0
  | .usageError =>
    IO.eprint usage
    return 2
  | .run options =>
    let inputs ← options.inputs.mapM readInput
    (plan options inputs.flatten).perform
