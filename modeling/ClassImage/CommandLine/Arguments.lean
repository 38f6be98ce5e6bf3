import ClassImage.Conversion.Settings

/-!
# Command line arguments

Arguments are taken from left to right; the first that is wrong, or that asks for the version,
decides. Options and inputs may be mixed, and after `--` everything is an input. The value of an
option stands in the next argument, behind `=`, or, for a one-letter option, directly behind the
letter. No option may be given twice.
-/

namespace ClassImage.CommandLine

open Conversion (Settings)

/-- What a run is asked to do. -/
structure Options where
  outputDirectory : String
  settings : Settings
  /-- Fail if any method was left out. -/
  strict : Bool
  /-- Print the records of every converted method. -/
  disassemble : Bool
  /-- Class files, or directories to search for class files. -/
  inputs : List String
deriving DecidableEq, Repr

/-- What the arguments ask for. -/
inductive Request where
  | run (options : Options)
  | version
  | help
  | usageError
deriving DecidableEq, Repr

/-- Options without a value. -/
inductive Flag where
  | eliminateNops
  | noFoldConstants
  | noLineNumbers
  | strict
  | disassemble
deriving DecidableEq, Repr

/-- Options with a value. -/
inductive Setting where
  | outputDirectory
  | jobs
deriving DecidableEq, Repr

/-- What an option is. -/
inductive OptionName where
  | flag (flag : Flag)
  | setting (setting : Setting)
  | version
  | help
deriving DecidableEq, Repr

/-- The option with a long name. -/
def OptionName.ofLong? : String → Option OptionName
  | "eliminate-nops" => some (.flag .eliminateNops)
  | "no-fold-constants" => some (.flag .noFoldConstants)
  | "no-line-numbers" => some (.flag .noLineNumbers)
  | "strict" => some (.flag .strict)
  | "disassemble" => some (.flag .disassemble)
  | "output-directory" => some (.setting .outputDirectory)
  | "jobs" => some (.setting .jobs)
  | "version" => some .version
  | "help" => some .help
  | _ => none

/-- The option with a short name. -/
def OptionName.ofShort? : Char → Option OptionName
  | 'o' => some (.setting .outputDirectory)
  | 'j' => some (.setting .jobs)
  | 'V' => some .version
  | 'h' => some .help
  | _ => none

/-- The arguments taken so far. -/
structure Taken where
  flags : List Flag := []
  /-- The values of options, the latest first. -/
  values : List (Setting × String) := []
  /-- The inputs, the latest first. -/
  inputs : List String := []

/-- Whether a text is a decimal number from 1 to 4294967295, with or without a plus sign. -/
def isJobCount (text : String) : Bool :=
  let digits := match text.toList with
    | '+' :: rest => rest
    | all => all
  let n := digits.foldl (fun n c => 10 * n + (c.toNat - '0'.toNat)) 0
  !digits.isEmpty && digits.all Char.isDigit && 1 ≤ n && n ≤ 0xFFFFFFFF

namespace Taken

/-- Takes a flag, unless it was given before. -/
def addFlag? (taken : Taken) (flag : Flag) : Option Taken :=
  if flag ∈ taken.flags then none else some { taken with flags := flag :: taken.flags }

/-- Takes the value of an option, unless the value is not allowed or the option was given before. -/
def addValue? (taken : Taken) (setting : Setting) (value : String) : Option Taken :=
  let allowed := match setting with
    | .outputDirectory => !value.isEmpty
    | .jobs => isJobCount value
  if allowed && !taken.values.any (fun v => v.1 == setting) then
    some { taken with values := (setting, value) :: taken.values }
  else none

/-- Takes an input, which must not be empty. -/
def addInput? (taken : Taken) (input : String) : Option Taken :=
  if input.isEmpty then none else some { taken with inputs := input :: taken.inputs }

/-- Takes inputs. -/
def addInputs? (taken : Taken) (inputs : List String) : Option Taken :=
  inputs.foldlM addInput? taken

/-- What all the arguments ask for; without an input, they are wrong. -/
def request (taken : Taken) : Request :=
  if taken.inputs.isEmpty then .usageError
  else
    .run {
      outputDirectory := (taken.values.lookup .outputDirectory).getD "out"
      settings := {
        dropNops := taken.flags.contains .eliminateNops
        foldConstants := !taken.flags.contains .noFoldConstants
        lineNumbers := !taken.flags.contains .noLineNumbers }
      strict := taken.flags.contains .strict
      disassemble := taken.flags.contains .disassemble
      inputs := taken.inputs.reverse }

end Taken

/-- How an argument reads on its own. -/
inductive Argument where
  /-- The end of the options. -/
  | separator
  /-- A long option with the value behind its equals sign, if there is one. -/
  | long (name : String) (value : Option String)
  /-- A short option with what follows its letter. -/
  | short (letter : Char) (rest : List Char)
  | input (text : String)
deriving DecidableEq, Repr

/-- Reads an argument. A single dash is an input. -/
def Argument.ofString (text : String) : Argument :=
  match text.toList with
  | ['-', '-'] => .separator
  | '-' :: '-' :: rest =>
    let name := String.ofList (rest.takeWhile (· ≠ '='))
    match rest.dropWhile (· ≠ '=') with
    | _ :: value => .long name (some (String.ofList value))
    | [] => .long name none
  | '-' :: letter :: rest => .short letter rest
  | _ => .input text

/-- The option of an argument and the value attached to it; `none` if there is no such option. -/
def Argument.option? : Argument → Option (OptionName × Option String)
  | .long name value => (OptionName.ofLong? name).map fun option => (option, value)
  | .short letter rest => (OptionName.ofShort? letter).map fun option =>
      match option, rest with
      | .setting _, '=' :: value => (option, some (String.ofList value))
      | .setting _, _ :: _ => (option, some (String.ofList rest))
      | _, _ => (option, none)
  | _ => none

/-- Goes through the arguments from left to right. -/
def parseFrom (taken : Taken) : List String → Request
  | [] => taken.request
  | text :: rest =>
    let arg := Argument.ofString text
    match arg with
    | .separator =>
      match taken.addInputs? rest with
      | some taken => taken.request
      | none => .usageError
    | .input input =>
      match taken.addInput? input with
      | some taken => parseFrom taken rest
      | none => .usageError
    | _ =>
      match arg.option? with
      | some (.version, none) => .version
      | some (.help, none) => .help
      | some (.flag flag, none) =>
        match taken.addFlag? flag with
        | some taken => parseFrom taken rest
        | none => .usageError
      | some (.setting setting, some value) =>
        match taken.addValue? setting value with
        | some taken => parseFrom taken rest
        | none => .usageError
      | some (.setting setting, none) =>
        match rest with
        | value :: rest =>
          match Argument.ofString value with
          | .input value =>
            match taken.addValue? setting value with
            | some taken => parseFrom taken rest
            | none => .usageError
          | _ => .usageError
        | [] => .usageError
      | _ => .usageError

/-- What the arguments ask for. -/
def parse (args : List String) : Request := parseFrom {} args

end ClassImage.CommandLine
