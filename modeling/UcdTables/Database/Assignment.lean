import UcdTables.Database.Characters
import UcdTables.Property.Draft

/-!
# Which category a code has

The records of the character database, read in order, assign categories to ascending ranges of
codes. What lies between these ranges, and after the last, is unassigned.

* `Assignment.ofRecords` checks that the codes ascend and that the records of each block stand
  together.
* `fillGaps` adds the unassigned ranges, so that every code of the code space has one category.
* `categoryDraft` gathers the codes of each general and each major category.
-/

namespace UcdTables

/-- A range of codes with the category of each of them. -/
structure Assignment where
  range : CodeRange
  category : Category
  deriving DecidableEq

namespace Assignment

/-- Refuses a record whose code is not above that of the record before it. -/
def checkOrder (previous : Option CodePoint) (r : CharacterRecord) : Except BuildError Unit :=
  match previous with
  | some code => if r.code.val ≤ code.val then throw (.ordering r.line code r.code) else pure ()
  | none => pure ()

/-- The assignments of the records that follow the code `previous`. If the record before them was
the first of a block, it is `opened`. -/
def assignmentsFrom (previous : Option CodePoint) (opened : Option CharacterRecord) :
    List CharacterRecord → Except BuildError (List Assignment)
  | [] =>
    match opened with
    | none => pure []
    | some first => throw (.malformedRecord first.line (.notClosed first.name))
  | r :: rs => do
    checkOrder previous r
    match opened, r.bound? with
    | none, some .first => assignmentsFrom (some r.code) (some r) rs
    | none, some .last => throw (.malformedRecord r.line (.notOpened r.name))
    | none, none =>
      let rest ← assignmentsFrom (some r.code) none rs
      pure (⟨.single r.code, r.category⟩ :: rest)
    | some first, some .last =>
      let block : CodeRange := ⟨first.code, r.code⟩
      if first.category = r.category then
        let rest ← assignmentsFrom (some r.code) none rs
        pure (⟨block, r.category⟩ :: rest)
      else
        throw (.malformedRecord r.line
          (.changesCategory block first.category.name r.category.name))
    | some first, _ => throw (.malformedRecord r.line (.notClosed first.name))

/-- The assignments of the records of a database. -/
def ofRecords (records : List CharacterRecord) : Except BuildError (List Assignment) :=
  assignmentsFrom none none records

/-- The unassigned codes from `next` up to but not including `bound`. -/
def gap (next bound : Code) : List Assignment :=
  if next < bound then [⟨⟨next, bound - 1⟩, .unassigned⟩] else []

/-- The assignments, the first unassigned code being `next`, with the gaps between them. -/
def fillGaps (next : Code) : List Assignment → List Assignment
  | [] => gap next (lastCode + 1)
  | a :: as => gap next a.range.first ++ a :: fillGaps (a.range.last + 1) as

/-- Adds the codes of an assignment to its general and its major category. -/
def addTo (d : Draft) (a : Assignment) : Draft :=
  (d.extend .generalCategory a.category.name [a.range]).extend
    .majorCategory a.category.majorName [a.range]

end Assignment

/-- The codes of each general and each major category. -/
def categoryDraft (records : List CharacterRecord) : Except BuildError Draft := do
  let assigned ← Assignment.ofRecords records
  pure ((Assignment.fillGaps 0 assigned).foldl Assignment.addTo .empty)

end UcdTables
