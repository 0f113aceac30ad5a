import UcdTables.Property.Map

/-!
# Range tables

What is written of a property: its name, its kind and its ranges. A map of properties gives its
tables in the order of its names, and a property without codes has no table.
-/

namespace UcdTables

/-- A property as it is written. -/
structure RangeTable where
  name : String
  kind : PropertyKind
  ranges : List CodeRange
  deriving DecidableEq

namespace RangeTable

/-- The number of codes of all ranges. -/
def size (t : RangeTable) : Nat := CodeRange.totalSize t.ranges

/-- The table of a property, under its name. -/
def ofProperty (name : String) (p : Property) : Except BuildError RangeTable :=
  if p.codes.isEmpty then .error (.emptyProperty name)
  else .ok ⟨name, p.kind, p.codes.toRanges⟩

end RangeTable

/-- The tables of the properties, in ascending order of names. -/
def PropertyMap.rangeTables (m : PropertyMap) : Except BuildError (List RangeTable) :=
  m.entries.mapM fun (name, p) => RangeTable.ofProperty name p

end UcdTables
