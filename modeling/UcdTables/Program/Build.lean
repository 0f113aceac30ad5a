import UcdTables.Class.Posix
import UcdTables.Database.Assignment
import UcdTables.Database.Scripts
import UcdTables.Files.Tree
import UcdTables.Program.Event
import UcdTables.Property.Partition
import UcdTables.Table.Statistics
import UcdTables.Table.Text

/-!
# A build

A build reads the character database and, if asked to, the script database, and writes the tables
of all properties. All tables are there before the first file is written, so that a build that
fails before leaves the files as they were.

* `tablesOf` goes from the two texts to the tables.
* `writes` is the list of files to be written, and `FileTree.perform` writes them one by one.
* `FileTree.build` does both on a tree of files.
-/

namespace UcdTables

/-- A computation that reports events, and that may fail. What was reported before a failure
stays. -/
structure Logged (α : Type) where
  events : List Event
  result : Except BuildError α

namespace Logged

/-- A computation that reports nothing. -/
def ofResult {α : Type} (result : Except BuildError α) : Logged α := ⟨[], result⟩

/-- A computation that reports one event. -/
def report (e : Event) : Logged Unit := ⟨[e], .ok ()⟩

instance : Monad Logged where
  pure a := ⟨[], .ok a⟩
  bind x f :=
    match x.result with
    | .ok a => ⟨x.events ++ (f a).events, (f a).result⟩
    | .error error => ⟨x.events, .error error⟩

end Logged

namespace PropertyMap

/-- What is reported while the classes of a list of rules are added. -/
def classEvents (m : PropertyMap) : List ClassRule → List Event
  | [] => []
  | rule :: rules =>
    (rule.absent m).map (.absentProperty rule.name) ++
      match rule.evaluate m with
      | .error _ => []
      | .ok p =>
        .derivedClass rule.name p.codes.size ::
          match m.insertNew rule.name p with
          | .ok grown => classEvents grown rules
          | .error _ => []

/-- The map with the classes of a list of rules, if all of them can be added. -/
def withClasses (m : PropertyMap) (rules : List ClassRule) : Logged PropertyMap :=
  let (grown, outcome) := m.addClasses rules
  ⟨m.classEvents rules, outcome.map fun _ => grown⟩

/-- The tables of the properties, each reported up to the first that is empty. -/
def loggedTables (m : PropertyMap) : Logged (List RangeTable) :=
  let written := m.entries.takeWhile fun (_, p) => !p.codes.isEmpty
  ⟨written.map fun (name, p) => .encodedProperty name p.codes.toRanges.length p.codes.size,
    m.rangeTables⟩

/-- The map of the general and major categories. -/
def ofCharacters (source : Except BuildError String) : Logged PropertyMap := do
  let records ← .ofResult (source >>= CharacterRecord.ofText)
  let draft ← .ofResult (categoryDraft records)
  .report (.builtCategories records.length draft.size)
  let m ← .ofResult (PropertyMap.merged .empty draft)
  .ofResult m.checkPartition
  pure m

/-- The map with the scripts. -/
def withScripts (m : PropertyMap) (source : Except BuildError String) : Logged PropertyMap := do
  let ranges ← .ofResult (source >>= ScriptRange.ofText)
  let draft := scriptDraft ranges
  .report (.builtScripts ranges.length draft.size)
  .ofResult (m.merged draft)

end PropertyMap

/-- The tables of the databases. -/
def tablesOf (characters : Except BuildError String)
    (scripts : Option (Except BuildError String)) : Logged (List RangeTable) := do
  let categories ← PropertyMap.ofCharacters characters
  let properties ← match scripts with
    | some source => categories.withScripts source
    | none => pure categories
  let properties ← properties.withClasses posixRules
  .report (.derivedClasses posixRules.length)
  properties.loggedTables

/-! ## Reading and writing -/

/-- The files that a build reads and writes. -/
structure BuildPaths where
  characters : String
  scripts : Option String
  output : String
  statistics : Option String
  deriving DecidableEq

/-- A text to be written to a file, and what is reported when that is done. -/
structure PendingWrite where
  path : String
  text : String
  done : Option Event

/-- The files to be written for a list of tables. -/
def writes (paths : BuildPaths) (tables : List RangeTable) : List PendingWrite :=
  let statistics := Statistics.ofTables tables
  { path := paths.output
    text := RangeTable.arrays tables
    done := some (.tablesWritten statistics.total paths.output) } ::
  paths.statistics.toList.map fun path => { path, text := statistics.text, done := none }

/-- The files to be written, given what the reading of the databases gave. -/
def plan (paths : BuildPaths) (characters : Except BuildError String)
    (scripts : Option (Except BuildError String)) : Logged (List PendingWrite) := do
  let tables ← tablesOf characters scripts
  pure (writes paths tables)

namespace FileTree

/-- Reads the file at a path as a text; a failure names the path. -/
def readDatabase (files : FileTree) (path : String) : Except BuildError String :=
  (files.readText path).mapError (.file path)

/-- Writes the texts of a list, up to the first that cannot be written. -/
def perform (files : FileTree) : List PendingWrite → FileTree × Logged Unit
  | [] => (files, pure ())
  | w :: ws =>
    match files.write w.path w.text with
    | .error reason => (files, .ofResult (.error (.file w.path reason)))
    | .ok changed =>
      let (final, rest) := changed.perform ws
      (final, ⟨w.done.toList ++ rest.events, rest.result⟩)

/-- A build on a tree of files. -/
def build (files : FileTree) (paths : BuildPaths) : FileTree × Logged Unit :=
  let planned := plan paths (files.readDatabase paths.characters)
    (paths.scripts.map files.readDatabase)
  match planned.result with
  | .error error => (files, ⟨planned.events, .error error⟩)
  | .ok pending =>
    let (final, outcome) := files.perform pending
    (final, ⟨planned.events ++ outcome.events, outcome.result⟩)

end FileTree

end UcdTables
