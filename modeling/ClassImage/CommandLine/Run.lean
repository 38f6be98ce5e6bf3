import ClassImage.CommandLine.Arguments
import ClassImage.CommandLine.FileTree
import ClassImage.Conversion.Convert

/-!
# Runs of the command line

The inputs are read first. From their bytes follows the list of actions of the run: directories to
make, files to write, text to print. Actions are performed in order until one fails; a run that
fails ends with exit code 1 and leaves what was done before.
-/

namespace ClassImage.CommandLine

open Conversion (Diagnostic Outcome)

/-- Something that a run does. -/
inductive Action where
  | makeDirectories (path : String)
  | write (path : String) (content : Bytes)
  | print (text : String)
  /-- Gives up. -/
  | abort
deriving DecidableEq, Repr

/-- What a run does, and the exit code if all of it succeeds. -/
structure Plan where
  actions : List Action
  exitCode : Nat
deriving DecidableEq, Repr

/-- The text that tells the version. -/
def versionText : String := "JVM class to tiny class converter 0.1.0\n"

/-- Whether the name of a file is that of a class file: something in front of the ending. -/
def isClassFileName (name : String) : Bool :=
  match name.toList.reverse with
  | 's' :: 's' :: 'a' :: 'l' :: 'c' :: '.' :: c :: _ => c ≠ '/'
  | _ => false

/-! ### From inputs to actions -/

/-- The names of the classes that inputs hold, where they can be read, and the symbol table with all
that the inputs refer to. -/
def enterClasses (symbols : SymbolTable) (inputs : List (String × Bytes)) :
    List (Option String) × SymbolTable :=
  let (names, symbols) := inputs.foldl
    (fun (names, symbols) (_, bytes) =>
      match ClassFile.ofBytes bytes with
      | .error _ => (none :: names, symbols)
      | .ok classFile =>
        let (_, symbols) := SymbolTable.prepopulate symbols classFile
        (classFile.name.toOption :: names, symbols))
    (([] : List (Option String)), symbols)
  (names.reverse, symbols)

/-- Converts inputs in order. -/
def convertAll (settings : Conversion.Settings) (symbols : SymbolTable)
    (inputs : List (String × Bytes)) :
    List (Except (List Diagnostic) (Bytes × List Diagnostic)) × SymbolTable :=
  let (results, symbols) := inputs.foldl
    (fun (results, symbols) (_, bytes) =>
      let outcome := Conversion.convertClass settings symbols bytes
      (outcome.result :: results, outcome.symbols))
    (([] : List (Except (List Diagnostic) (Bytes × List Diagnostic))), symbols)
  (results.reverse, symbols)

/-- The printed records of every method of an image. -/
def disassembly (className : String) (image : Image) : String :=
  "class " ++ className ++ "\n" ++ String.join (image.methods.map fun method =>
    "  " ++ (image.name? method.name).getD "?" ++
      (image.name? method.descriptor).getD "?" ++ "\n" ++ match Image.disassemble method.code with
      | .ok records => Image.listing records
      | .error fault => "    <" ++ fault.message ++ ">\n")

/-- The line that sums up a class, with its diagnostics below. -/
def summary (label outcome : String) (diagnostics : List Diagnostic) : String :=
  " - " ++ label ++ " [" ++ outcome ++ "]\n" ++
    String.join (diagnostics.map fun diagnostic => "     " ++ diagnostic.text ++ "\n")

/-- What is done with the image of a class: it is written below the output directory and, if asked
for, printed. -/
def imageActions (options : Options) (className : String) (bytes : Bytes) : List Action :=
  let path := joinPath options.outputDirectory (className ++ ".tcls")
  let shown :=
    if options.disassemble then
      match Image.ofBytes bytes with
      | .ok image => [.print (disassembly className image)]
      | .error _ => [.abort]
    else []
  [.makeDirectories (parentPath path), .write path bytes] ++ shown

/-- What is done with the result of one input. -/
def classActions (options : Options) (path : String) (className : Option String)
    (result : Except (List Diagnostic) (Bytes × List Diagnostic)) : List Action :=
  let label := className.getD path
  match result with
  | .error diagnostics => [.print (summary label "FAILED" diagnostics)]
  | .ok (bytes, diagnostics) =>
    let outcome := if diagnostics.isEmpty then "OK" else "PARTIAL"
    (match className with
      | some name => imageActions options name bytes
      | none => []) ++ [.print (summary label outcome diagnostics)]

/-- The exit code: one if a class failed or, in a strict run, if a method was left out. -/
def exitCode (strict : Bool)
    (results : List (Except (List Diagnostic) (Bytes × List Diagnostic))) : Nat :=
  let bad := results.any fun
    | .error _ => true
    | .ok (_, diagnostics) => strict && !diagnostics.isEmpty
  if bad then 1 else 0

/-- What a run does with its inputs, their class names and what came of converting them. The symbol
table is written last. -/
def planOf (options : Options) (inputs : List (String × Bytes)) (names : List (Option String))
    (results : List (Except (List Diagnostic) (Bytes × List Diagnostic))) (symbols : SymbolTable) :
    Plan :=
  let classes := ((inputs.zip names).zip results).flatMap fun (((path, _), name), result) =>
    classActions options path name result
  let table := match symbols.toBytes with
    | .ok bytes => .write (joinPath options.outputDirectory "classes.tsym") bytes
    | .error _ => .abort
  { actions := .makeDirectories options.outputDirectory :: classes ++ [table]
    exitCode := exitCode options.strict results }

/-- What a run does with its inputs. -/
def plan (options : Options) (inputs : List (String × Bytes)) : Plan :=
  let (names, symbols) := enterClasses .empty inputs
  let (results, symbols) := convertAll options.settings symbols inputs
  planOf options inputs names results symbols

/-! ### Runs on a file tree -/

/-- The class files that an argument names: the file itself, or all class files below a
directory. -/
def inputsAt (tree : FileTree) (working : List String) (path : String) : List (String × Bytes) :=
  match tree.place? working path, tree.lookup? working path with
  | some _, some (.file content) => [(path, content)]
  | some place, some .directory => (tree.files place path).filter fun file => isClassFileName file.1
  | _, _ => []

/-- The class files that a run reads. -/
def inputsOf (working : List String) (tree : FileTree) (options : Options) :
    List (String × Bytes) :=
  options.inputs.flatMap (inputsAt tree working)

/-- What a run leaves behind. -/
structure Result where
  exitCode : Nat
  output : String
  tree : FileTree
deriving DecidableEq, Repr

/-- Performs an action on a file tree. -/
def Action.attempt (working : List String) (tree : FileTree) : Action → Attempt
  | .makeDirectories path => tree.makeDirectories working path
  | .write path content => tree.writeFile working path content
  | .print _ => ⟨tree, true⟩
  | .abort => ⟨tree, false⟩

/-- The text that an action prints. -/
def Action.printed : Action → String
  | .print text => text
  | _ => ""

/-- Performs actions until one fails. -/
def performAll (working : List String) (exitCode : Nat) :
    FileTree → String → List Action → Result
  | tree, output, [] => { exitCode, output, tree }
  | tree, output, action :: rest =>
    let attempt := action.attempt working tree
    if attempt.complete then performAll working exitCode attempt.tree
      (output ++ action.printed) rest
    else { exitCode := 1, output, tree := attempt.tree }

/-- Does what was asked for in a working directory of a file tree. `read` finds the inputs. -/
def serve (working : List String) (tree : FileTree) (read : Options → List (String × Bytes)) :
    Request → Result
  | .version => { exitCode := 0, output := versionText, tree }
  | .help => { exitCode := 0, output := "", tree }
  | .usageError => { exitCode := 2, output := "", tree }
  | .run options =>
    let plan := plan options (read options)
    performAll working plan.exitCode tree "" plan.actions

/-- Runs the command line in a working directory of a file tree. -/
def run (working : List String) (tree : FileTree) (args : List String) : Result :=
  serve working tree (inputsOf working tree) (parse args)

end ClassImage.CommandLine
