import UcdTables.Text.Quoted

/-!
# Events

What a run reports while it works. An event has a level, a message and named values, and is written
as a line for a reader or as a line of JSON.
-/

namespace UcdTables

/-- How much an event matters. -/
inductive Level where
  | trace
  | debug
  | info
  | warn
  | error
  deriving DecidableEq, Repr

namespace Level

/-- The name of a level. -/
def name : Level → String
  | trace => "TRACE"
  | debug => "DEBUG"
  | info => "INFO"
  | warn => "WARN"
  | error => "ERROR"

/-- The place of a level, from the least to the most important. -/
def rank : Level → Nat
  | trace => 0
  | debug => 1
  | info => 2
  | warn => 3
  | error => 4

end Level

/-- A value of an event. -/
inductive EventValue where
  /-- A number. -/
  | number (n : Nat)
  /-- A name, which stands in quotes. -/
  | name (text : String)
  /-- A text that is shown as it is. -/
  | shown (text : String)
  deriving DecidableEq

/-- What a run reports while it works. -/
inductive Event where
  | builtCategories (records properties : Nat)
  | builtScripts (records scripts : Nat)
  | absentProperty (rule property : String)
  | derivedClass (rule : String) (codepoints : Nat)
  | derivedClasses (classes : Nat)
  | encodedProperty (property : String) (ranges codepoints : Nat)
  | tablesWritten (properties : Nat) (output : String)
  | buildFailed (error : String)
  deriving DecidableEq

namespace Event

/-- How much an event matters. -/
def level : Event → Level
  | absentProperty .. | derivedClass .. | encodedProperty .. => .debug
  | builtCategories .. | builtScripts .. | derivedClasses .. | tablesWritten .. => .info
  | buildFailed .. => .error

/-- What an event says. -/
def message : Event → String
  | builtCategories .. => "built categories"
  | builtScripts .. => "built scripts"
  | absentProperty .. => "property is absent, read as empty"
  | derivedClass .. => "derived"
  | derivedClasses .. => "derived classes"
  | encodedProperty .. => "encoded"
  | tablesWritten .. => "tables written"
  | buildFailed .. => "build failed, nothing written"

/-- The named values of an event. -/
def values : Event → List (String × EventValue)
  | builtCategories records properties =>
    [("records", .number records), ("properties", .number properties)]
  | builtScripts records scripts => [("records", .number records), ("scripts", .number scripts)]
  | absentProperty rule property => [("class", .name rule), ("property", .name property)]
  | derivedClass rule codepoints => [("class", .name rule), ("codepoints", .number codepoints)]
  | derivedClasses classes => [("classes", .number classes)]
  | encodedProperty property ranges codepoints =>
    [("property", .name property), ("ranges", .number ranges), ("codepoints", .number codepoints)]
  | tablesWritten properties output =>
    [("properties", .number properties), ("output", .shown output)]
  | buildFailed error => [("error", .shown error)]

/-- The line of an event for a reader. -/
def readableLine (e : Event) : String :=
  let value : EventValue → String
    | .number n => toString n
    | .name text => Text.quote Text.escapeReadable text
    | .shown text => text
  e.level.name ++ " " ++ e.message ++
    String.join (e.values.map fun (key, v) => " " ++ key ++ "=" ++ value v)

/-- The line of an event in JSON. -/
def jsonLine (e : Event) : String :=
  let value : EventValue → String
    | .number n => toString n
    | .name text | .shown text => Text.quote Text.escapeJson text
  let member (key written : String) := Text.quote Text.escapeJson key ++ ":" ++ written
  let members := member "level" (value (.name e.level.name)) ::
    member "message" (value (.name e.message)) :: e.values.map fun (key, v) => member key (value v)
  "\x7b" ++ String.intercalate "," members ++ "\x7d"

end Event

end UcdTables
