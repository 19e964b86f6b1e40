import Rendezvous.Command.Help
import Rendezvous.Script.Run

/-!
# The command line

`run FILE` plays the script in a file, with `--max-steps N` in place of the script's own limit;
`help` explains a command. Every command takes `-v` for a more talkative log and `-h` for its
explanation, and `-V` before a command asks for the version.

- `Word.ofArg` tells what kind of argument stands there;
- `Invocation.ofArgs?` reads all arguments, from left to right. The first that makes no sense, or
  that asks for help or the version, decides, and nothing after it counts;
- `Invocation.report` says what is printed and which code the program exits with.
-/

namespace Rendezvous

/-! ## Arguments -/

/-- An argument by its form. -/
inductive Word where
  /-- The two hyphens after which nothing is an option. -/
  | divider
  /-- An option with a name, and the value after an equals sign. -/
  | long (name : String) (value : Option String)
  /-- A row of options of one letter. -/
  | short (letters : List Char)
  /-- Anything else; one hyphen alone is no option either. -/
  | plain (text : String)
deriving DecidableEq

/-- An option's name and the value after its first equals sign. -/
def Word.ofLong (cs : List Char) : Word :=
  match cs.span (· ≠ '=') with
  | (name, []) => .long (String.ofList name) none
  | (name, _ :: value) => .long (String.ofList name) (some (String.ofList value))

/-- The form of an argument. -/
def Word.ofArg (arg : String) : Word :=
  match arg.toList with
  | ['-', '-'] => .divider
  | '-' :: '-' :: rest => .ofLong rest
  | '-' :: c :: rest => .short (c :: rest)
  | _ => .plain arg

/-- An option that takes no value. -/
inductive Flag where
  | verbose | help | version
deriving DecidableEq

namespace Flag

/-- The flag of a name. -/
def ofName? : String → Option Flag
  | "verbose" => some .verbose
  | "help" => some .help
  | "version" => some .version
  | _ => none

/-- The flag of a letter. -/
def ofLetter? : Char → Option Flag
  | 'v' => some .verbose
  | 'h' => some .help
  | 'V' => some .version
  | _ => none

end Flag

/-- The flags an argument is made of, with `none` for what is no flag. -/
def Word.flags : Word → List (Option Flag)
  | .short letters => letters.map Flag.ofLetter?
  | .long name none => [Flag.ofName? name]
  | _ => [none]

/-- Reads a number of 64 bits; a plus sign may stand before it. -/
def readCount? (s : String) : Option Nat :=
  let digits := match s.toList with
    | '+' :: rest => rest
    | cs => cs
  if digits.isEmpty || !digits.all Char.isDigit then
    none
  else
    let n := digitsValue digits
    if n < UInt64.size then some n else none

/-! ## Invocations -/

/-- What the program is asked to do. -/
inductive Invocation where
  /-- To play the script in a file, perhaps with a limit in place of the script's own. -/
  | run (file : String) (maxSteps : Option Nat)
  /-- To explain something. -/
  | help (topic : Topic)
  /-- To name its version. -/
  | version
deriving DecidableEq

namespace Invocation

/-- The file an invocation needs. -/
def file? : Invocation → Option String
  | .run file _ => some file
  | _ => none

/-- What comes of reading arguments: a value, or an early decision on what to do, which is `none`
for a use that makes no sense. -/
abbrev Reading := Except (Option Invocation)

/-- The decision that the use makes no sense. -/
def refuse {α : Type} : Reading α := .error none

/-- Reads one flag of the command that `topic` explains; only the program as a whole has a
version. -/
def readFlag (topic : Topic) : Option Flag → Reading Unit
  | some .verbose => pure ()
  | some .help => .error (some (.help topic))
  | some .version => .error (if topic = .program then some .version else none)
  | none => refuse

/-- Reads the flags of one argument. -/
def readFlags (topic : Topic) : List (Option Flag) → Reading Unit
  | [] => pure ()
  | flag :: rest => do
    readFlag topic flag
    readFlags topic rest

/-- What the arguments after `run` have said so far. -/
structure Partial where
  file : Option String
  maxSteps : Option Nat

namespace Partial

/-- Takes the file; it is given once and is not empty. -/
def withFile (p : Partial) (file : String) : Reading Partial :=
  if p.file.isSome || file.isEmpty then refuse else pure { p with file := some file }

/-- Takes the limit; it is given at most once. -/
def withLimit (p : Partial) (value : String) : Reading Partial :=
  match p.maxSteps, readCount? value with
  | none, some n => pure { p with maxSteps := some n }
  | _, _ => refuse

end Partial

/-- Reads the arguments of `run` after the divider, which are no options. -/
def readPlain (p : Partial) : List String → Reading Partial
  | [] => pure p
  | arg :: rest => do readPlain (← p.withFile arg) rest

/-- Reads the arguments of `run`. -/
def readRun (p : Partial) : List String → Reading Partial
  | [] => pure p
  | arg :: rest =>
    match Word.ofArg arg with
    | .divider => readPlain p rest
    | .plain file => do readRun (← p.withFile file) rest
    | .long "max-steps" (some value) => do readRun (← p.withLimit value) rest
    | .long "max-steps" none =>
      match rest with
      | [] => refuse
      | value :: rest => do readRun (← p.withLimit value) rest
    | word => do
      readFlags .run word.flags
      readRun p rest

/-- Reads the arguments of `help`: at most one command. -/
def readHelp : List String → Reading Topic
  | [] => pure .program
  | [command] =>
    match Topic.ofCommand? command with
    | some topic => pure topic
    | none => refuse
  | _ => refuse

/-- Reads the arguments of the program. -/
def read : List String → Reading Invocation
  | [] => refuse
  | arg :: rest =>
    match Word.ofArg arg with
    | .plain "run" => do
      match ← readRun ⟨none, none⟩ rest with
      | ⟨some file, maxSteps⟩ => pure (.run file maxSteps)
      | _ => refuse
    | .plain "help" => do pure (.help (← readHelp rest))
    | word => do
      readFlags .program word.flags
      read rest

/-- The invocation that arguments stand for; `none` for a use that makes no sense. -/
def ofArgs? (args : List String) : Option Invocation :=
  match read args with
  | .ok i => some i
  | .error early => early

end Invocation

/-! ## Reports -/

/-- What the program prints, line by line, and its exit code. -/
structure Report where
  lines : List String
  exitCode : Nat
deriving DecidableEq

/-- What the program does when its use makes no sense. -/
def Report.badUsage : Report := ⟨[], 2⟩

/-- What playing the script in a text leads to; there is no text if the file cannot be read. -/
def Report.ofScript (maxSteps : Option Nat) (text : Option String) (ids : Supply) : Report :=
  match text.bind Script.parse? with
  | none => ⟨["Could not load scenario"], 1⟩
  | some script =>
    let settings : Settings := { maxSteps := maxSteps.getD script.settings.maxSteps }
    let outcome := script.run settings ids
    let events := outcome.events.map Event.text
    match outcome.stopped with
    | none => ⟨events ++ ["Scenario completed"], 0⟩
    | some _ => ⟨events ++ ["Scenario failed"], 1⟩

/-- What the program does, given the text of the file it needs. -/
def Invocation.report (i : Invocation) (text : Option String) (ids : Supply) : Report :=
  match i with
  | .run _ maxSteps => .ofScript maxSteps text ids
  | .help topic => ⟨topic.lines, 0⟩
  | .version => ⟨[versionText], 0⟩

end Rendezvous
