/-!
# Categories

A general category is written with two ASCII letters. The first alone names the major category that
it belongs to.
-/

namespace UcdTables

/-- A general category: two ASCII letters. -/
structure Category where
  major : Char
  minor : Char
  isAlpha_major : major.isAlpha = true := by decide
  isAlpha_minor : minor.isAlpha = true := by decide
  deriving DecidableEq

namespace Category

/-- The category of the codes that no record mentions. -/
def unassigned : Category := { major := 'C', minor := 'n' }

/-- The name of the general category. -/
def name (c : Category) : String := String.ofList [c.major, c.minor]

/-- The name of the major category. -/
def majorName (c : Category) : String := String.ofList [c.major]

/-- The category that a text writes. -/
def ofChars? : List Char → Option Category
  | [major, minor] =>
    if h : major.isAlpha = true ∧ minor.isAlpha = true then some ⟨major, minor, h.1, h.2⟩ else none
  | _ => none

theorem ofChars?_eq_some_iff {text : List Char} {c : Category} :
    ofChars? text = some c ↔ text = [c.major, c.minor] := by
  obtain ⟨major, minor, h, h'⟩ := c
  rcases text with _ | ⟨a, _ | ⟨b, _ | ⟨_, _⟩⟩⟩ <;> simp [ofChars?]
  rintro rfl rfl
  exact ⟨h, h'⟩

theorem name_injective {c d : Category} (h : c.name = d.name) : c = d := by
  obtain ⟨a, b, _, _⟩ := c
  obtain ⟨a', b', _, _⟩ := d
  simpa [name, String.ofList_inj] using h

end Category

end UcdTables
