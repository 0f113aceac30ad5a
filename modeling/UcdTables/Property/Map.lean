import UcdTables.Error
import UcdTables.NameMap
import UcdTables.Property.Basic
import UcdTables.Property.Draft

/-!
# Properties by name

A map of properties only grows: a draft merged into it adds codes to its properties and makes new
ones, and a property inserted into it takes a free name.

A merge that meets a name of another kind stops there, and what it merged before stays; so a merge
gives a map beside its outcome.
-/

namespace UcdTables

/-- Properties by name. -/
abbrev PropertyMap := NameMap Property

namespace PropertyMap

/-- Merges what is gathered under one name: the codes join those of the property of that name,
which has to be of the same kind. -/
def mergeEntry (m : PropertyMap) (e : DraftEntry) : Except BuildError PropertyMap :=
  match m.find? e.name with
  | none => .ok (m.insert e.name ⟨e.kind, .ofRanges e.ranges.toList⟩)
  | some held =>
    if held.kind = e.kind then
      .ok (m.insert e.name ⟨e.kind, .ofRanges (e.ranges.toList ++ held.codes.toRanges)⟩)
    else .error (.duplicateProperty e.name)

/-- Merges entries in the order given, up to the first that fails. -/
def mergeEntries (m : PropertyMap) : List DraftEntry → PropertyMap × Except BuildError Unit
  | [] => (m, .ok ())
  | e :: es =>
    match m.mergeEntry e with
    | .ok grown => mergeEntries grown es
    | .error error => (m, .error error)

/-- Merges the entries of a draft. -/
def merge (m : PropertyMap) (d : Draft) : PropertyMap × Except BuildError Unit :=
  m.mergeEntries d.entries

/-- The map with a draft merged into it, if that succeeds. -/
def merged (m : PropertyMap) (d : Draft) : Except BuildError PropertyMap :=
  let (grown, outcome) := m.merge d
  outcome.map fun _ => grown

/-- The map with a property under a name that it does not hold. -/
def insertNew (m : PropertyMap) (name : String) (p : Property) : Except BuildError PropertyMap :=
  if m.contains name then .error (.duplicateProperty name) else .ok (m.insert name p)

/-- The sets of one kind, in ascending order of names. -/
def setsOfKind (m : PropertyMap) (kind : PropertyKind) : List CodeSet :=
  (m.entries.filter (·.2.kind = kind)).map (·.2.codes)

end PropertyMap

end UcdTables
