import UcdTables.Code.Set
import UcdTables.Property.Kind

/-!
# Properties

A property is a set of codes with its kind. Its name is not part of it: names are the keys of a
`PropertyMap`.
-/

namespace UcdTables

/-- A set of codes, and where it comes from. -/
structure Property where
  kind : PropertyKind
  codes : CodeSet
  deriving DecidableEq

namespace Property

/-- The property of the codes of a list, which may come in any order and more than once. -/
def ofCodes (kind : PropertyKind) (codes : List Code) : Property := ⟨kind, .ofCodes codes⟩

instance : Membership Code Property := ⟨fun p code => code ∈ p.codes⟩

theorem mem_def {p : Property} {code : Code} : code ∈ p ↔ code ∈ p.codes := Iff.rfl

instance (p : Property) (code : Code) : Decidable (code ∈ p) :=
  inferInstanceAs (Decidable (code ∈ p.codes))

@[simp] theorem mem_ofCodes {kind : PropertyKind} {codes : List Code} {code : Code} :
    code ∈ ofCodes kind codes ↔ code ∈ codes := CodeSet.mem_ofCodes

end Property

end UcdTables
