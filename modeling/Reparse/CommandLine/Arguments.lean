import Reparse.Text.Blank
import Reparse.Text.Digits

/-!
# Arguments

A command line names a command, which has flags, options with values and
perhaps names of its own.  A value follows its option or stands after an equals
sign; only then may it begin with a hyphen.  After `--` everything is a name.
A flag or option stands once.
-/

namespace Reparse.CommandLine

open Text

structure Form where
  flags : List String
  options : List String
  /-- The options whose value is a natural number of 64 bits. -/
  numbers : List String
  takesNames : Bool
  hasVersion : Bool

/-- The flags, options and names that were read. -/
structure Given where
  flags : List String := []
  values : List (String × String) := []
  names : List String := []

inductive Stop where
  | usage
  | help
  | version
  deriving DecidableEq

def Given.has (given : Given) (flag : String) : Bool :=
  given.flags.contains flag

def Given.value? (given : Given) (option : String) : Option String :=
  (given.values.find? (·.1 == option)).map (·.2)

/-- A natural number of 64 bits; a plus sign may stand before it. -/
def readNumber? (text : String) : Option Nat :=
  (readUnsigned? 10 text.toList).filter (· < Nat.pow 2 64)

/-- Whether an argument looks like a flag or an option; a hyphen alone does
not. -/
def isDashed (arg : String) : Bool :=
  arg.toList.head? == some '-' && arg != "-"

/-- The name of a long flag or option and the value after its equals sign. -/
def splitLong (body : List Char) : String × Option String :=
  let name := String.ofList (body.takeWhile (· != '='))
  match body.dropWhile (· != '=') with
  | [] => (name, none)
  | _ :: value => (name, some (String.ofList value))

namespace Form

def addFlag (given : Given) (flag : String) : Except Stop Given :=
  if given.has flag then .error .usage
  else .ok { given with flags := given.flags ++ [flag] }

def addValue (form : Form) (given : Given) (option value : String) :
    Except Stop Given :=
  if (given.value? option).isSome then .error .usage
  else if form.numbers.contains option && (readNumber? value).isNone
    then .error .usage
  else .ok { given with values := given.values ++ [(option, value)] }

/-- A flag that stands by itself, in its long form. -/
def readFlag (form : Form) (given : Given) (name : String) :
    Except Stop Given :=
  if form.flags.contains name then addFlag given name
  else if name = "help" then .error .help
  else if name = "version" && form.hasVersion then .error .version
  else .error .usage

/-- An argument that begins with one hyphen. -/
def readShort (form : Form) : List Char → Stop
  | 'h' :: _ => .help
  | 'V' :: _ => if form.hasVersion then .version else .usage
  | _ => .usage

/-- What the arguments give, after what was given before. -/
def read (form : Form) (given : Given) : List String → Except Stop Given
  | [] => .ok given
  | arg :: rest =>
    match arg.toList with
    | ['-', '-'] =>
      if form.takesNames || rest.isEmpty
        then .ok { given with names := given.names ++ rest }
      else .error .usage
    | '-' :: '-' :: body =>
      match splitLong body with
      | (name, some value) =>
        if form.options.contains name then
          match form.addValue given name value with
          | .ok given => read form given rest
          | .error stop => .error stop
        else .error .usage
      | (name, none) =>
        if form.options.contains name then
          match rest with
          | [] => .error .usage
          | value :: rest =>
            if isDashed value then .error .usage
            else
              match form.addValue given name value with
              | .ok given => read form given rest
              | .error stop => .error stop
        else
          match form.readFlag given name with
          | .ok given => read form given rest
          | .error stop => .error stop
    | '-' :: c :: body => .error (form.readShort (c :: body))
    | _ =>
      if form.takesNames then
        read form { given with names := given.names ++ [arg] } rest
      else .error .usage

end Form

/-! ## Commands -/

structure VerifyArgs where
  names : List String
  list : Bool
  registry : Option String
  workdir : String
  jobs : Option Nat
  pollMillis : Nat
  checkout : Bool
  json : Bool

structure ReplayArgs where
  suite : Option String
  workdir : String
  filter : Option String
  json : Bool

inductive Command where
  | corpus (args : VerifyArgs)
  | replay (args : ReplayArgs)

def corpusForm : Form :=
  { flags := ["verbose", "list", "no-checkout", "json"],
    options := ["registry", "workdir", "jobs", "poll-interval-ms"],
    numbers := ["jobs", "poll-interval-ms"], takesNames := true, hasVersion :=
      false }

def replayForm : Form :=
  { flags := ["verbose", "json"], options := ["suite", "workdir", "filter"],
    numbers := [],
    takesNames := false, hasVersion := false }

def programForm : Form :=
  { flags := ["verbose"], options := [], numbers := [], takesNames := false,
    hasVersion := true }

def VerifyArgs.ofGiven (given : Given) : VerifyArgs :=
  { names := given.names, list := given.has "list",
    registry := given.value? "registry",
    workdir := (given.value? "workdir").getD "tmp/corpus",
    jobs := (given.value? "jobs").bind readNumber?,
    pollMillis :=
      ((given.value? "poll-interval-ms").bind readNumber?).getD 1000,
    checkout := !given.has "no-checkout", json := given.has "json" }

def ReplayArgs.ofGiven (given : Given) : ReplayArgs :=
  { suite := given.value? "suite",
    workdir := (given.value? "workdir").getD "tmp",
    filter := given.value? "filter", json := given.has "json" }

/-- The command of this name with its arguments.  The command `help` explains
itself or another. -/
def readCommand (name : String) (args : List String) : Except Stop Command :=
  match name, args with
  | "corpus", args =>
      (corpusForm.read {} args).map fun given => .corpus (.ofGiven given)
  | "replay", args =>
      (replayForm.read {} args).map fun given => .replay (.ofGiven given)
  | "help", [] => .error .help
  | "help", [topic] =>
    .error (if topic = "corpus" ∨ topic = "replay" ∨ topic = "help" then .help
      else .usage)
  | _, _ => .error .usage

/-- The arguments before the name of the command, and the rest. -/
def splitCommand (args : List String) : List String × List String :=
  (args.takeWhile isDashed, args.dropWhile isDashed)

def readArguments (args : List String) : Except Stop Command :=
  let (before, rest) := splitCommand args
  (programForm.read {} before).bind fun _ =>
    match rest with
    | [] => .error .usage
    | name :: args =>
        if before.contains "--" then .error .usage else readCommand name args

end Reparse.CommandLine
