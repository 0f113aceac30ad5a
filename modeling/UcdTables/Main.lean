import UcdTables.Program.Session

/-!
# The program

Reads and writes the files of the system and logs to the standard error. All decisions are those of
`CommandLine.invocation`, `plan` and `logLines`.
-/

namespace UcdTables

/-- The code of the system for a failure, where it has one. Some calls give it with a minus sign. -/
def systemCode? (e : IO.Error) : Option Nat :=
  let signless := fun (code : UInt32) =>
    some (if code < 0x80000000 then code.toNat else (0 - code).toNat)
  match e with
  | .noFileOrDirectory _ code _ | .inappropriateType _ code _ | .invalidArgument _ code _
  | .permissionDenied _ code _ | .noSuchThing _ code _ | .resourceExhausted _ code _
  | .otherError code _ | .unsupportedOperation code _ => signless code
  | _ => none

/-- The reason of a failure of the system. -/
def failureOf (e : IO.Error) : FileFailure :=
  match systemCode? e with
  | some 2 => .notFound
  | some 20 => .notADirectory
  | some 21 => .isADirectory
  | some 36 => .nameTooLong
  | _ => .other (toString e)

/-- Reads a file as a text. -/
def readDatabaseFile (path : String) : IO (Except BuildError String) := do
  try
    match String.fromUTF8? (← IO.FS.readBinFile path) with
    | some text => pure (.ok text)
    | none => pure (.error (.file path .notText))
  catch e => pure (.error (.file path (failureOf e)))

/-- Writes a text to a file. -/
def performWrite (w : PendingWrite) : IO (Except BuildError Unit) := do
  try
    IO.FS.writeFile w.path w.text
    pure (.ok ())
  catch e => pure (.error (.file w.path (failureOf e)))

/-- Builds the tables, logging the events as they come up. -/
def buildFiles (paths : BuildPaths) (log : List Event → IO Unit) : IO (Except BuildError Unit) := do
  let characters ← readDatabaseFile paths.characters
  let scripts ← paths.scripts.mapM readDatabaseFile
  let planned := plan paths characters scripts
  log planned.events
  match planned.result with
  | .error error => pure (.error error)
  | .ok pending =>
    for w in pending do
      match ← performWrite w with
      | .error error => return .error error
      | .ok () => log w.done.toList
    pure (.ok ())

/-- The variables of the environment that the program reads. -/
def readVariables : IO (String → Option String) := do
  let names := ["UCD_LOG_PRETTY", "RUST_LOG"] ++ PathOption.all.map (·.variableName)
  let found ← names.mapM fun name => do
    pure ((← IO.getEnv name).map (name, ·))
  pure fun name => (found.filterMap id).lookup name

end UcdTables

open UcdTables in
/-- The program. -/
def main (arguments : List String) : IO UInt32 := do
  let environment ← readVariables
  match CommandLine.invocation arguments environment with
  | .misuse => return 2
  | .version =>
    IO.print Session.versionText
    return 0
  | .build paths form =>
    let threshold := Threshold.ofText (environment "RUST_LOG")
    let log := fun events => (logLines threshold form events).forM IO.eprintln
    match ← buildFiles paths log with
    | .ok () => return 0
    | .error error =>
      log [.buildFailed error.message]
      return 1
