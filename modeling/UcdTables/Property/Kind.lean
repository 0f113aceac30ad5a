/-!
# Kinds of properties

A property is a named set of codes. Its kind says where it comes from, and labels it in the
tables.
-/

namespace UcdTables

/-- Where a property comes from. -/
inductive PropertyKind where
  /-- A category of two letters, such as `Lu`. -/
  | generalCategory
  /-- The first letter of a category, such as `L`. -/
  | majorCategory
  /-- A script, such as `Latin`. -/
  | script
  /-- A class put together from other properties, such as `Alpha`. -/
  | posixClass
  deriving DecidableEq, Repr

namespace PropertyKind

/-- The label of a kind in the tables and the statistics. -/
def label : PropertyKind → String
  | generalCategory => "General Category"
  | majorCategory => "Major Category"
  | script => "Script"
  | posixClass => "POSIX Bracket"

theorem label_injective {k k' : PropertyKind} (h : k.label = k'.label) : k = k' := by
  cases k <;> cases k' <;> first | rfl | (simp [label] at h)

end PropertyKind

end UcdTables
