import UcdTables.Code.Basic

/-!
# Ranges of codes

A range is given by its first and last code, both included, and is empty if the last is below the
first. A list of ranges stands for the codes of its members, one range after the other.

* `CodeRange.joinAdjacent` folds each range into the one before it when it begins with the code
  directly after that one's last; the codes and their order stay the same.
* `CodeRange.runs?` does so for single codes. On codes in ascending order this gives the fewest
  ranges.
-/

namespace UcdTables

/-- The codes from `first` to `last`, both included. -/
structure CodeRange where
  first : Code
  last : Code
  deriving DecidableEq, Repr

namespace CodeRange

/-- The range of one code. -/
def single (code : Code) : CodeRange := ⟨code, code⟩

instance : Membership Code CodeRange := ⟨fun r code => r.first ≤ code ∧ code ≤ r.last⟩

theorem mem_def {r : CodeRange} {code : Code} : code ∈ r ↔ r.first ≤ code ∧ code ≤ r.last := Iff.rfl

theorem mem_iff_toNat {r : CodeRange} {code : Code} :
    code ∈ r ↔ r.first.toNat ≤ code.toNat ∧ code.toNat ≤ r.last.toNat := by
  simp only [mem_def, UInt32.le_iff_toNat_le]

instance (r : CodeRange) (code : Code) : Decidable (code ∈ r) :=
  inferInstanceAs (Decidable (r.first ≤ code ∧ code ≤ r.last))

/-- A range that holds a code. -/
def Inhabited (r : CodeRange) : Prop := r.first ≤ r.last

instance (r : CodeRange) : Decidable r.Inhabited := inferInstanceAs (Decidable (_ ≤ _))

/-- The number of codes of a range. -/
def size (r : CodeRange) : Nat := r.last.toNat + 1 - r.first.toNat

/-- The number of codes of the ranges of a list, a code counted as often as it occurs. -/
def totalSize : List CodeRange → Nat
  | [] => 0
  | r :: rs => r.size + totalSize rs

/-- The codes of a range in ascending order. -/
def codes (r : CodeRange) : List Code := (List.range' r.first.toNat r.size).map UInt32.ofNat

@[simp] theorem length_codes (r : CodeRange) : r.codes.length = r.size := by simp [codes]

@[simp] theorem mem_codes {r : CodeRange} {code : Code} : code ∈ r.codes ↔ code ∈ r := by
  have hf := r.first.toNat_lt
  have hl := r.last.toNat_lt
  have hc := code.toNat_lt
  simp only [codes, List.mem_map, List.mem_range'_1, size, mem_iff_toNat]
  constructor
  · rintro ⟨n, ⟨hn, hn'⟩, rfl⟩
    have : (UInt32.ofNat n).toNat = n := UInt32.toNat_ofNat_of_lt' (show n < 4294967296 by omega)
    omega
  · intro h
    exact ⟨code.toNat, by omega, UInt32.ofNat_toNat⟩

@[simp] theorem codes_single (code : Code) : (single code).codes = [code] := by
  simp [codes, single, size]

/-- Folds into `current` the ranges that continue it. -/
def joinFrom (current : CodeRange) : List CodeRange → List CodeRange
  | [] => [current]
  | r :: rs =>
    if r.first.toNat = current.last.toNat + 1 then joinFrom ⟨current.first, r.last⟩ rs
    else current :: joinFrom r rs

/-- Folds each range into the one before it where it continues that one. -/
def joinAdjacent : List CodeRange → List CodeRange
  | [] => []
  | r :: rs => joinFrom r rs

/-- The codes of a list as ranges, neighbours joined. There are no ranges of no codes. -/
def runs? (codes : List Code) : Option (List CodeRange) :=
  if codes = [] then none else some (joinAdjacent (codes.map single))

end CodeRange

end UcdTables
