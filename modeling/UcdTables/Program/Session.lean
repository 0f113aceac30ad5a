import UcdTables.Program.CommandLine

/-!
# A session

A session is one call of the program on a tree of files: what it prints, what it logs and in which
form, the files it leaves and its exit code.
-/

namespace UcdTables

/-- The outcome of a call. -/
structure Session where
  exitCode : Nat
  printed : String
  form : LogForm
  log : List String
  files : FileTree

namespace Session

/-- What the program says when asked for its version. -/
def versionText : String := "unicode_ctype_bakery 0.1.0\n"

/-- The exit code of a build. -/
def exitCodeOf : Except BuildError Unit → Nat
  | .ok () => 0
  | .error _ => 1

/-- The events of a build, with the failure at the end if there is one. -/
def closingEvents (built : Logged Unit) : List Event :=
  match built.result with
  | .ok () => built.events
  | .error error => built.events ++ [.buildFailed error.message]

/-- One call of the program. -/
def run (arguments : List String) (environment : String → Option String) (files : FileTree) :
    Session :=
  match CommandLine.invocation arguments environment with
  | .misuse => ⟨2, "", .readable, [], files⟩
  | .version => ⟨0, versionText, .readable, [], files⟩
  | .build paths form =>
    let (changed, built) := files.build paths
    let threshold := Threshold.ofText (environment "RUST_LOG")
    ⟨exitCodeOf built.result, "", form, logLines threshold form (closingEvents built), changed⟩

end Session

end UcdTables
