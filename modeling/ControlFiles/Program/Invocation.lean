import ControlFiles.Path

/-!
# Invocations

What the program is asked for on its command line:

* `resolve FILE` prints the run that the other arguments choose, `files FILE` the files it reads;
* `check FILE` loads everything below a file and reports what is wrong;
* `write FILE` writes the next version of a file, or with `--stdout` prints it.

`--output json` and `--quiet` may stand anywhere before the run arguments, `--profile P` behind
`resolve` or `files`; a value may also follow its option behind an equals sign. The first argument
behind the file that is none of these begins the run arguments. Nothing behind `--` is an option.
-/

namespace ControlFiles

/-- How results and failures are printed. -/
inductive Format where
  | plain
  | json
  deriving DecidableEq, Repr

/-- The choice of a run: a root file, a profile and run arguments. -/
structure RunChoice where
  file : Path
  profile : Option Path
  arguments : List Text
  deriving DecidableEq, Repr

/-- What is to be done. -/
inductive Task where
  | resolve (run : RunChoice)
  | files (run : RunChoice)
  | check (file : Path)
  /-- Without `save` the text is printed. -/
  | write (file : Path) (save : Bool)
  deriving DecidableEq, Repr

/-- A task, and how its outcome is printed. -/
structure Invocation where
  format : Format
  quiet : Bool
  task : Task
  deriving DecidableEq, Repr

namespace Invocation

/-- The word for a task. -/
inductive Verb where
  | resolve
  | files
  | check
  | write
  deriving DecidableEq, Repr

/-- The task takes run arguments. -/
def Verb.isRun : Verb → Bool
  | resolve | files => true
  | _ => false

/-- The verb that a word is. -/
def verb? (word : Text) : Option Verb :=
  if word = "resolve" then some .resolve
  else if word = "files" then some .files
  else if word = "check" then some .check
  else if word = "write" then some .write
  else none

/-- What has been read of a command line. -/
structure Settings where
  format : Format
  quiet : Bool
  profile : Option Path
  save : Bool
  file : Option Path

/-- Nothing has been read. -/
def Settings.start : Settings := ⟨.plain, false, none, true, none⟩

/-- The invocation that has been read, with its run arguments. -/
def Settings.finish (s : Settings) (verb : Verb) (arguments : List Text) : Option Invocation :=
  s.file.map fun file =>
    let run : RunChoice := ⟨file, s.profile, arguments⟩
    let task : Task := match verb with
      | .resolve => .resolve run
      | .files => .files run
      | .check => .check file
      | .write => .write file s.save
    ⟨s.format, s.quiet, task⟩

/-- The format that a word is. -/
def format? (word : Text) : Option Format :=
  if word = "text" then some .plain else if word = "json" then some .json else none

/-- The settings with an option without a value, if the argument is one. -/
def Settings.switch? (s : Settings) (verb : Option Verb) (argument : Text) : Option Settings :=
  if argument = "--quiet" then some { s with quiet := true }
  else if argument = "--stdout" && verb = some .write then some { s with save := false }
  else none

/-- The word is an option with a value. -/
def takesValue (verb : Option Verb) (word : Text) : Bool :=
  word = "--output" || (word = "--profile" && (verb.map Verb.isRun).getD false)

/-- The settings with an option and its value. -/
def Settings.set? (s : Settings) (option value : Text) : Option Settings :=
  if option = "--output" then (format? value).map fun f => { s with format := f }
  else some { s with profile := some ⟨value⟩ }

/-- The settings with an option that is one argument: one without a value, or with the value behind
an equals sign. -/
def Settings.whole? (s : Settings) (verb : Option Verb) (argument : Text) : Option Settings :=
  match s.switch? verb argument, Text.cut? "=" argument with
  | some s, _ => some s
  | none, some (option, value) => if takesValue verb option then s.set? option value else none
  | none, none => none

/-- The argument can name a file: a single dash can, another word with a dash in front cannot. -/
def isFile (argument : Text) : Bool := argument = "-" || !Text.startsWith "-" argument

/-- The invocation when no option follows: the file, if it is not read yet, and run arguments. -/
def Settings.close (s : Settings) (verb : Verb) (arguments : List Text) : Option Invocation :=
  match s.file, arguments with
  | none, file :: rest =>
    if verb.isRun || rest.isEmpty then Settings.finish { s with file := some ⟨file⟩ } verb rest
    else none
  | _, arguments => if verb.isRun || arguments.isEmpty then s.finish verb arguments else none

/-- The rest of a command line behind its verb. -/
def readTask (verb : Verb) (s : Settings) : List Text → Option Invocation
  | [] => s.finish verb []
  | argument :: rest =>
    match s.whole? (some verb) argument with
    | some s => readTask verb s rest
    | none =>
      if takesValue (some verb) argument then
        match rest with
        | value :: rest => (s.set? argument value).bind fun s => readTask verb s rest
        | [] => none
      else if argument = "--" then s.close verb rest
      else if s.file.isNone then
        if isFile argument then readTask verb { s with file := some ⟨argument⟩ } rest else none
      else if verb.isRun then s.finish verb (argument :: rest)
      else none

/-- A command line. -/
def readAll (s : Settings) : List Text → Option Invocation
  | [] => none
  | argument :: rest =>
    match s.whole? none argument with
    | some s => readAll s rest
    | none =>
      if takesValue none argument then
        match rest with
        | value :: rest => (s.set? argument value).bind fun s => readAll s rest
        | [] => none
      else (verb? argument).bind fun verb => readTask verb s rest

/-- The invocation that a command line asks for. -/
def ofArguments? (arguments : List Text) : Option Invocation := readAll .start arguments

end Invocation

end ControlFiles
