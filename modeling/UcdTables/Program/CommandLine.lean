import UcdTables.Program.Build

/-!
# The command line

What the program is asked to do, by its arguments and by the variables of its environment. A path
is given as `--option path` or `--option=path`, or by a variable; the arguments go before the
variables. An option is given at most once, no path is empty, and the file of the character
database is not optional.
-/

namespace UcdTables

/-- The options that take a path. -/
inductive PathOption where
  | characters
  | scripts
  | output
  | statistics
  deriving DecidableEq, Repr

namespace PathOption

/-- All options that take a path. -/
def all : List PathOption := [characters, scripts, output, statistics]

/-- The argument that gives an option. -/
def flag : PathOption → String
  | characters => "--unicode-data"
  | scripts => "--scripts"
  | output => "--output"
  | statistics => "--stats"

/-- The variable that gives an option. -/
def variableName : PathOption → String
  | characters => "UCD_UNICODE_DATA"
  | scripts => "UCD_SCRIPTS"
  | output => "UCD_OUTPUT"
  | statistics => "UCD_STATS"

end PathOption

/-- The form of the log: lines for a reader, or lines of JSON. -/
inductive LogForm where
  | readable
  | json
  deriving DecidableEq, Repr

/-- What the program is asked to do. -/
inductive Invocation where
  /-- To build the tables. -/
  | build (paths : BuildPaths) (form : LogForm)
  /-- To say its version. -/
  | version
  /-- Nothing that it understands. -/
  | misuse
  deriving DecidableEq

namespace CommandLine

/-- The arguments read so far. -/
structure Given where
  paths : List (PathOption × String)
  readable : Bool
  deriving DecidableEq

/-- What a single argument is. -/
inductive Argument where
  /-- An option whose path is in the next argument. -/
  | option (o : PathOption)
  /-- An option with its path. -/
  | optionWith (o : PathOption) (path : String)
  /-- The flag for a readable log. -/
  | readableLog
  /-- The question for the version. -/
  | version
  /-- Anything else. -/
  | unknown
  deriving DecidableEq

/-- What stands in an argument after the flag of an option and an equals sign. -/
def attached? (o : PathOption) (argument : String) : Option String :=
  let flag := (o.flag ++ "=").toList
  if flag.isPrefixOf argument.toList then
    some (String.ofList (argument.toList.drop flag.length))
  else none

/-- What a single argument is. -/
def classify (argument : String) : Argument :=
  if argument = "--pretty-logs" then .readableLog
  else if argument = "--version" || "-V".toList.isPrefixOf argument.toList then .version
  else match PathOption.all.find? (·.flag = argument) with
    | some o => .option o
    | none =>
      match PathOption.all.findSome? fun o => (attached? o argument).map (o, ·) with
      | some (o, path) => .optionWith o path
      | none => .unknown

/-- An argument that can be the path of the option before it. -/
def isValue (argument : String) : Bool := argument = "-" || argument.toList.head? ≠ some '-'

/-- Adds a path, which must not be empty, to the arguments read so far. -/
def Given.add (given : Given) (o : PathOption) (path : String) : Except Invocation Given :=
  if path = "" || given.paths.any (·.1 = o) then .error .misuse
  else .ok { given with paths := given.paths ++ [(o, path)] }

/-- Reads the arguments in order, up to the first that settles what the program is to do. -/
def readArguments (given : Given) : List String → Except Invocation Given
  | [] => .ok given
  | argument :: rest =>
    if argument = "--" then
      if rest = [] then .ok given else .error .misuse
    else match classify argument, rest with
      | .unknown, _ => .error .misuse
      | .version, _ => .error .version
      | .readableLog, rest =>
        if given.readable then .error .misuse
        else readArguments { given with readable := true } rest
      | .optionWith o path, rest => do
        let given ← given.add o path
        readArguments given rest
      | .option _, [] => .error .misuse
      | .option o, path :: rest =>
        if isValue path then do
          let given ← given.add o path
          readArguments given rest
        else .error .misuse

/-- The path of an option: from the arguments, or else from its variable. -/
def pathOf (given : Given) (environment : String → Option String) (o : PathOption) :
    Except Invocation (Option String) :=
  match given.paths.lookup o with
  | some path => .ok (some path)
  | none =>
    match environment o.variableName with
    | some "" => .error .misuse
    | found => .ok found

/-- The form of the log: readable if the arguments say so, or else as the variable says. -/
def formOf (given : Given) (environment : String → Option String) : Except Invocation LogForm :=
  if given.readable then .ok .readable
  else match environment "UCD_LOG_PRETTY" with
    | none | some "true" => .ok .readable
    | some "false" => .ok .json
    | some _ => .error .misuse

/-- Where the tables are written unless a path is given. -/
def defaultOutput : String := "./data/name2ctype.h"

/-- Reads the arguments and the environment; whatever ends the reading early is the error. -/
def read (arguments : List String) (environment : String → Option String) :
    Except Invocation (BuildPaths × LogForm) := do
  let given ← readArguments ⟨[], false⟩ arguments
  let characters ← pathOf given environment .characters
  let scripts ← pathOf given environment .scripts
  let output ← pathOf given environment .output
  let statistics ← pathOf given environment .statistics
  let form ← formOf given environment
  match characters with
  | some characters => pure (⟨characters, scripts, output.getD defaultOutput, statistics⟩, form)
  | none => throw .misuse

/-- What the program is asked to do. -/
def invocation (arguments : List String) (environment : String → Option String) : Invocation :=
  match read arguments environment with
  | .ok (paths, form) => .build paths form
  | .error settled => settled

end CommandLine

/-! ## The log -/

/-- The least level that is logged, if any. -/
abbrev Threshold := Option Level

/-- The threshold that a text names; `info` if it names none. -/
def Threshold.ofText : Option String → Threshold
  | some "trace" => some .trace
  | some "debug" => some .debug
  | some "warn" => some .warn
  | some "error" => some .error
  | some "off" => none
  | some _ | none => some .info

/-- Whether an event is logged. -/
def Threshold.admits (threshold : Threshold) (e : Event) : Bool :=
  match threshold with
  | some least => least.rank ≤ e.level.rank
  | none => false

/-- The line of an event in a log. -/
def LogForm.line : LogForm → Event → String
  | .readable => Event.readableLine
  | .json => Event.jsonLine

/-- The lines of the events that are logged. -/
def logLines (threshold : Threshold) (form : LogForm) (events : List Event) : List String :=
  (events.filter threshold.admits).map form.line

end UcdTables
