import Mathlib.Data.List.Perm.Subperm
import UcdTables.Proofs.Code.Runs

/-!
# The fewest ranges

A canonical list has the fewest ranges that cover its codes: no range can span the gap after one of
its ranges, so each of them needs a range of its own in any other list. The other list may be in any
order, and its ranges may overlap, touch or be empty.

* `Canonical.length_le_of_covers`: a canonical list is as short as any list that covers the same
  codes.
* `runs?_fewest`: ascending codes have no cover with fewer ranges than their runs.
-/

namespace UcdTables.CodeRange

variable {r s s' : CodeRange} {rs ss : List CodeRange} {code : Code}

/-- The code directly after a range of a canonical list lies in a gap. -/
theorem Canonical.not_covers_next (h : Canonical rs) (hr : r ∈ rs)
    (hcode : code.toNat = r.last.toNat + 1) : ¬ Covers rs code := by
  induction rs with
  | nil => exact covers_nil code
  | cons first rs ih =>
    obtain ⟨hfirst, hgap, hrs⟩ := canonical_cons.1 h
    intro hcovers
    rcases List.mem_cons.1 hr with rfl | hr
    · rcases covers_cons.1 hcovers with hmem | hlater
      · have hle := (mem_iff_toNat.1 hmem).2
        omega
      · have hlt := h.lt_of_covers_tail hlater
        omega
    · rcases covers_cons.1 hcovers with hmem | hlater
      · have hle := (mem_iff_toNat.1 hmem).2
        have hlt := hgap r hr
        have hinhabited := (hrs.inhabited r hr).toNat_le
        omega
      · exact ih hrs hr hlater

/-- A range that holds nothing but codes of a canonical list does not reach from one range of the
list to the next. -/
theorem Canonical.not_mem_of_first_mem (h : Canonical rs) (hr : r ∈ rs)
    (hgap : r.last.toNat + 1 < s.first.toNat) (hwithin : ∀ code ∈ s', Covers rs code)
    (hfirst : r.first ∈ s') : s.first ∉ s' := by
  intro hsecond
  have hinhabited := (h.inhabited r hr).toNat_le
  have hword := s.first.toNat_lt
  have hnext : (r.last + 1).toNat = r.last.toNat + 1 := by
    rw [UInt32.toNat_add, UInt32.toNat_one]
    omega
  have hmem : r.last + 1 ∈ s' := by
    rw [mem_iff_toNat] at hfirst hsecond ⊢
    omega
  exact h.not_covers_next hr hnext (hwithin _ hmem)

/-- A canonical list is as short as any list of ranges that covers the same codes. -/
theorem Canonical.length_le_of_covers (hrs : Canonical rs)
    (h : ∀ code, Covers ss code ↔ Covers rs code) : rs.length ≤ ss.length := by
  -- each range of the canonical list is sent to a range of the other that holds its first code
  have hheld : ∀ r, ∃ s, r ∈ rs → s ∈ ss ∧ r.first ∈ s := by
    intro r
    by_cases hr : r ∈ rs
    · obtain ⟨s, hs, hfirst⟩ :=
        (h r.first).2 ⟨r, hr, first_mem (hrs.inhabited r hr).toNat_le⟩
      exact ⟨s, fun _ => ⟨hs, hfirst⟩⟩
    · exact ⟨r, fun hmem => absurd hmem hr⟩
  choose holder hholder using hheld
  have hnodup : (rs.map holder).Nodup := by
    rw [List.Nodup, List.pairwise_map]
    refine hrs.apart.imp_of_mem fun {a b} ha hb hgap hsame => ?_
    obtain ⟨hs, hfirst⟩ := hholder a ha
    have hwithin : ∀ code ∈ holder a, Covers rs code := fun code hcode =>
      (h code).1 ⟨holder a, hs, hcode⟩
    exact hrs.not_mem_of_first_mem ha hgap hwithin hfirst (hsame ▸ (hholder b hb).2)
  have hsubset : rs.map holder ⊆ ss := by
    intro s hs
    obtain ⟨r, hr, rfl⟩ := List.mem_map.1 hs
    exact (hholder r hr).1
  calc rs.length = (rs.map holder).length := (List.length_map holder).symm
    _ ≤ ss.length := (List.subperm_of_subset hnodup hsubset).length_le

/-- The runs of codes in ascending order cover them with the fewest ranges. -/
theorem runs?_fewest {cs : List Code} (hne : cs ≠ []) (hcs : cs.Pairwise (· < ·)) :
    ∃ rs, runs? cs = some rs ∧ (∀ code, Covers rs code ↔ code ∈ cs) ∧
      ∀ ss : List CodeRange, (∀ code, Covers ss code ↔ code ∈ cs) → rs.length ≤ ss.length := by
  obtain ⟨rs, hruns⟩ := Option.ne_none_iff_exists'.1 fun hnone => hne (runs?_eq_none_iff.1 hnone)
  obtain ⟨hcanonical, hcodes⟩ := runs?_eq_some hcs hruns
  have hcovers : ∀ code, Covers rs code ↔ code ∈ cs := fun code => by
    rw [covers_iff_mem_flatMap, hcodes]
  refine ⟨rs, hruns, hcovers, fun ss hss => ?_⟩
  exact hcanonical.length_le_of_covers fun code => (hss code).trans (hcovers code).symm

/-- Three runs, and a cover by four ranges that are out of order, two of which overlap. -/
theorem runs?_fewest_overlapping :
    let cs : List Code := [5, 6, 7, 10, 11, 20]
    let ss : List CodeRange := [.single 20, ⟨6, 7⟩, ⟨10, 11⟩, ⟨5, 6⟩]
    cs ≠ [] ∧ cs.Pairwise (· < ·) ∧ (∀ code, Covers ss code ↔ code ∈ cs) ∧
      ∃ rs, runs? cs = some rs ∧ rs = [⟨5, 7⟩, ⟨10, 11⟩, .single 20] ∧ rs.length ≤ ss.length := by
  intro cs ss
  have hcs : cs.Pairwise (· < ·) := by decide
  have hsubset : ss.flatMap codes ⊆ cs ∧ cs ⊆ ss.flatMap codes := by decide
  have hss : ∀ code, Covers ss code ↔ code ∈ cs := fun code => by
    rw [covers_iff_mem_flatMap]
    exact ⟨fun hcode => hsubset.1 hcode, fun hcode => hsubset.2 hcode⟩
  obtain ⟨rs, hruns, -, hfewest⟩ := runs?_fewest (by decide) hcs
  have hsome : runs? cs = some [⟨5, 7⟩, ⟨10, 11⟩, .single 20] := by decide
  refine ⟨by decide, hcs, hss, rs, hruns, ?_, hfewest ss hss⟩
  rw [hruns, Option.some.injEq] at hsome
  exact hsome

end UcdTables.CodeRange
