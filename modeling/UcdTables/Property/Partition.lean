import UcdTables.Property.Map

/-!
# Partition of the code space

Every code of the code space belongs to exactly one general category and to exactly one major
category. The number of sets that hold a code changes only where a range starts or where one has
ended. So the least code that breaks the rule is 0 or such a place, and only these are looked at.
-/

namespace UcdTables.PropertyMap

/-- The number of sets of a list that hold a code. -/
def multiplicity (sets : List CodeSet) (code : Code) : Nat := sets.countP (·.contains code)

/-- The codes at which the number of sets that hold a code may change, in ascending order. -/
def breakpoints (sets : List CodeSet) : List Code :=
  let changes := sets.flatMap fun s => s.toRanges.flatMap fun r => [r.first, r.last + 1]
  ((0 :: changes).filter (· ≤ lastCode)).mergeSort (· ≤ ·)

/-- Checks that the sets of one kind hold codes of the code space only, and each of those once. -/
def checkKind (m : PropertyMap) (kind : PropertyKind) : Except BuildError Unit :=
  let sets := m.setsOfKind kind
  if sets.any fun s => s.last?.any (lastCode < ·) then .error (.outsideCodeSpace kind)
  else match (breakpoints sets).find? (multiplicity sets · ≠ 1) with
    | none => .ok ()
    | some code => .error (.partition code (multiplicity sets code))

/-- Checks that every code of the code space lies in one general and in one major category. -/
def checkPartition (m : PropertyMap) : Except BuildError Unit := do
  m.checkKind .generalCategory
  m.checkKind .majorCategory

end UcdTables.PropertyMap
