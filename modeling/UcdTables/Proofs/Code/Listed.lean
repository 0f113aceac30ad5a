import Mathlib.Data.List.Destutter
import UcdTables.NameMap
import UcdTables.Proofs.Code.Runs
import UcdTables.Property.Basic

/-!
# Lists of codes as sets

A list of codes, in any order and with any repeats, makes the set of its members. The codes of that
set in ascending order are the one ascending list with these members. To sort the list and then to
leave out what repeats its neighbour is one way to find them.

* `CodeSet.codes_eq_of_ascending`: a set has one ascending list of codes.
* `pairwise_destutter`: a sorted list without adjacent repeats ascends.
* `CodeSet.search_codes_iff`: halving finds a code among the codes as it does among the ranges.
* `Property.setOf_ofCodes`: the property that a list of codes makes.
-/

namespace UcdTables

variable {cs ds : List Code} {code : Code}

/-! ## Sorted lists -/

theorem mem_destutter (h : cs.Pairwise (· ≤ ·)) : code ∈ cs.destutter (· ≠ ·) ↔ code ∈ cs := by
  rw [h.destutter_eq_dedup, List.mem_dedup]

/-- In a sorted list, equal codes stand next to one another, so that no code is left twice. -/
theorem pairwise_destutter (h : cs.Pairwise (· ≤ ·)) :
    (cs.destutter (· ≠ ·)).Pairwise (· < ·) := by
  have hle : (cs.destutter (· ≠ ·)).Pairwise (· ≤ ·) := h.sublist (cs.destutter_sublist _)
  have hne : (cs.destutter (· ≠ ·)).Pairwise (· ≠ ·) := by
    rw [h.destutter_eq_dedup]
    exact cs.nodup_dedup
  exact (hle.and hne).imp fun h => Std.lt_of_le_of_ne h.1 h.2

/-! ## The codes of a set -/

namespace CodeSet

variable {s : CodeSet}

/-- A set has one ascending list of codes. -/
theorem codes_eq_of_ascending (hcs : cs.Pairwise (· < ·)) (h : ∀ code, code ∈ cs ↔ code ∈ s) :
    s.codes = cs :=
  eq_of_ascending id s.pairwise_codes hcs fun code => mem_codes.trans (h code).symm

/-- The codes of an ascending list are left as they are. -/
theorem codes_ofCodes (hcs : cs.Pairwise (· < ·)) : (ofCodes cs).codes = cs :=
  codes_eq_of_ascending hcs fun _ => mem_ofCodes.symm

theorem ofCodes_congr (h : ∀ code, code ∈ cs ↔ code ∈ ds) : ofCodes cs = ofCodes ds :=
  CodeSet.ext fun code => by rw [mem_ofCodes, mem_ofCodes, h]

theorem ofCodes_codes (s : CodeSet) : ofCodes s.codes = s :=
  CodeSet.ext fun code => by rw [mem_ofCodes, mem_codes]

/-- Among the codes themselves, each of them a range of its own, halving finds the same. -/
theorem search_codes_iff (s : CodeSet) (code : Code) :
    search (s.codes.map CodeRange.single).toArray code 0
      (s.codes.map CodeRange.single).toArray.size (Nat.le_refl _) = true ↔ code ∈ s := by
  have hinhabited : ∀ r ∈ s.codes.map CodeRange.single, r.Inhabited := fun r hr =>
    CodeRange.inhabited_iff.2 (CodeRange.mem_map_single s.codes r hr)
  rw [search_eq_true_iff_covers hinhabited (CodeRange.pairwise_map_single s.pairwise_codes),
    CodeRange.covers_iff_mem_flatMap, CodeRange.flatMap_codes_single, mem_codes]

end CodeSet

/-! ## The property of a list -/

namespace Property

/-- What the property that a list of codes makes has of the list. -/
structure SetOf (kind : PropertyKind) (cs : List Code) (p : Property) : Prop where
  /-- The kind is as given. -/
  kind_eq : p.kind = kind
  /-- The codes ascend. -/
  ascending : p.codes.codes.Pairwise (· < ·)
  /-- They are the members of the list. -/
  members : ∀ code, code ∈ p.codes.codes ↔ code ∈ cs
  /-- No other ascending list has these members. -/
  unique : ∀ ds : List Code, ds.Pairwise (· < ·) → (∀ code, code ∈ ds ↔ code ∈ cs) →
    ds = p.codes.codes
  /-- The list is sorted in some way, and then what repeats its neighbour is left out. -/
  sorted : ∀ ds : List Code, ds.Perm cs → ds.Pairwise (· ≤ ·) →
    ds.destutter (· ≠ ·) = p.codes.codes
  /-- Any list with the same members makes the same property. -/
  sameMembers : ∀ ds : List Code, (∀ code, code ∈ ds ↔ code ∈ cs) → ofCodes kind ds = p
  /-- So do the codes of the property. -/
  again : ofCodes kind p.codes.codes = p
  /-- Halving the ranges finds the members of the list. -/
  contains : ∀ code, p.codes.contains code = true ↔ code ∈ cs
  /-- So does halving the codes. -/
  search : ∀ code, CodeSet.search (p.codes.codes.map CodeRange.single).toArray code 0
    (p.codes.codes.map CodeRange.single).toArray.size (Nat.le_refl _) = true ↔ code ∈ cs

/-- A list of codes, in any order and with any repeats, makes the set of its members. -/
theorem setOf_ofCodes (kind : PropertyKind) (cs : List Code) : SetOf kind cs (ofCodes kind cs) := by
  have hmembers : ∀ code, code ∈ CodeSet.ofCodes cs ↔ code ∈ cs := fun _ => CodeSet.mem_ofCodes
  have hunique : ∀ ds : List Code, ds.Pairwise (· < ·) → (∀ code, code ∈ ds ↔ code ∈ cs) →
      ds = (CodeSet.ofCodes cs).codes := by
    intro ds hds h
    calc
      ds = (CodeSet.ofCodes ds).codes := (CodeSet.codes_ofCodes hds).symm
      _ = (CodeSet.ofCodes cs).codes := by rw [CodeSet.ofCodes_congr h]
  refine SetOf.mk rfl (CodeSet.pairwise_codes _) ?members hunique ?sorted ?sameMembers ?again
    ?contains ?search
  case members => exact fun code => CodeSet.mem_codes.trans (hmembers code)
  case sorted =>
    intro ds hperm hds
    apply hunique _ (pairwise_destutter hds)
    exact fun code => (mem_destutter hds).trans hperm.mem_iff
  case sameMembers =>
    intro ds h
    rw [ofCodes, CodeSet.ofCodes_congr h, ofCodes]
  case again => rw [ofCodes, ofCodes, CodeSet.ofCodes_codes]
  case contains => exact fun code => CodeSet.contains_eq_true_iff.trans (hmembers code)
  case search => exact fun code => (CodeSet.search_codes_iff _ code).trans (hmembers code)

/-- In a list that is not sorted, repeats need not stand next to one another. -/
example : ([7, 3, 7, 1, 3] : List Code).destutter (· ≠ ·) = [7, 3, 7, 1, 3] := by decide

end Property

end UcdTables
