import UcdTables.Proofs.Code.Runs

/-!
# The number of codes

The size of a list of ranges is the number of codes that are written out. Only a range of all words
has a size that is no word itself; the size of any other range can be computed in words.

* `length_flatMap_codes`, `CodeSet.length_codes`: sizes count codes.
* `sizesInWords?_eq_some`: fewer codes than there are words are counted in words.
-/

namespace UcdTables

namespace CodeRange

variable {r : CodeRange} {rs : List CodeRange}

theorem length_flatMap_codes (rs : List CodeRange) : (rs.flatMap codes).length = totalSize rs := by
  induction rs with
  | nil => rfl
  | cons r rs ih => rw [List.flatMap_cons, List.length_append, length_codes, ih, totalSize]

/-- The size of a range, computing in words. There is no result if a step has none: the last code
lies below the first, or one is added to the last word. -/
def sizeInWords? (r : CodeRange) : Option UInt32 :=
  if r.first ≤ r.last then Code.next? (r.last - r.first) else none

/-- The size of a list of ranges, those of the ranges computed in words. -/
def sizesInWords? : List CodeRange → Option Nat
  | [] => some 0
  | r :: rs => do
    let size ← r.sizeInWords?
    let rest ← sizesInWords? rs
    pure (size.toNat + rest)

theorem sizeInWords?_eq_some (hr : r.Inhabited) (h : r.size < UInt32.size) :
    ∃ word, r.sizeInWords? = some word ∧ word.toNat = r.size := by
  have hle := hr.toNat_le
  have hsub : (r.last - r.first).toNat = r.last.toNat - r.first.toNat :=
    UInt32.toNat_sub_of_le _ _ hr
  have hsize : r.size = (r.last - r.first).toNat + 1 := by
    rw [size, hsub]
    omega
  rw [hsize] at h
  refine ⟨r.last - r.first + 1, ?_, ?_⟩
  · rw [sizeInWords?, if_pos (show r.first ≤ r.last from hr), Code.next?, if_pos h]
  · rw [UInt32.toNat_add, UInt32.toNat_one, Nat.mod_eq_of_lt h, hsize]

/-- Fewer codes than there are words are counted in words. -/
theorem sizesInWords?_eq_some (hrs : ∀ r ∈ rs, r.Inhabited) (h : totalSize rs < UInt32.size) :
    sizesInWords? rs = some (totalSize rs) := by
  induction rs with
  | nil => rfl
  | cons r rs ih =>
    rw [totalSize] at h
    obtain ⟨hr, hrs⟩ := List.forall_mem_cons.1 hrs
    obtain ⟨word, hword, hsize⟩ := sizeInWords?_eq_some hr (by omega)
    rw [sizesInWords?, hword, ih hrs (by omega), totalSize, ← hsize]
    rfl

/-- All words together are one more than the last word. -/
example : sizeInWords? ⟨0, 0xFFFFFFFF⟩ = none := by decide

end CodeRange

/-- The size of a set is the number of its codes. -/
theorem CodeSet.length_codes (s : CodeSet) : s.codes.length = s.size :=
  CodeRange.length_flatMap_codes s.toRanges

end UcdTables
