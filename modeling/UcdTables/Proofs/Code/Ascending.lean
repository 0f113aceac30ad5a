import UcdTables.Code.Set

/-!
# Codes in ascending order

Written out, the codes of a range ascend, and so do those of a list of ranges each of which ends
below the start of the next.
-/

namespace UcdTables

namespace CodeRange

theorem pairwise_codes (r : CodeRange) : r.codes.Pairwise (· < ·) := by
  unfold codes
  rw [List.pairwise_map]
  refine List.Pairwise.imp_of_mem (fun {a b} _ hb hlt => ?_) (List.pairwise_lt_range' 1)
  have hlast := r.last.toNat_lt
  rw [List.mem_range'_1, size] at hb
  rw [UInt32.lt_iff_toNat_lt, UInt32.toNat_ofNat_of_lt' (by omega : a < 4294967296),
    UInt32.toNat_ofNat_of_lt' (by omega : b < 4294967296)]
  exact hlt

theorem pairwise_flatMap_codes {rs : List CodeRange}
    (h : rs.Pairwise fun r s => r.last.toNat < s.first.toNat) :
    (rs.flatMap codes).Pairwise (· < ·) := by
  refine List.pairwise_flatMap.2 ⟨fun r _ => r.pairwise_codes, h.imp ?_⟩
  intro r s hlt code hcode code' hcode'
  rw [mem_codes, mem_iff_toNat] at hcode hcode'
  rw [UInt32.lt_iff_toNat_lt]
  omega

theorem covers_iff_mem_flatMap {rs : List CodeRange} {code : Code} :
    Covers rs code ↔ code ∈ rs.flatMap codes := by
  simp [Covers]

theorem first_mem {r : CodeRange} (h : r.first.toNat ≤ r.last.toNat) : r.first ∈ r :=
  mem_iff_toNat.2 ⟨Nat.le_refl _, h⟩

theorem last_mem {r : CodeRange} (h : r.first.toNat ≤ r.last.toNat) : r.last ∈ r :=
  mem_iff_toNat.2 ⟨h, Nat.le_refl _⟩

end CodeRange

namespace CodeSet

theorem mem_codes {s : CodeSet} {code : Code} : code ∈ s.codes ↔ code ∈ s := by
  simp [codes, mem_def, CodeRange.Covers]

/-- The codes of a set ascend. -/
theorem pairwise_codes (s : CodeSet) : s.codes.Pairwise (· < ·) := by
  refine CodeRange.pairwise_flatMap_codes (s.canonical.apart.imp fun {a b} hlt => ?_)
  omega

/-- The bounds of the ranges of a set are codes of the set. -/
theorem bounds_mem {s : CodeSet} {r : CodeRange} (h : r ∈ s.toRanges) : r.first ∈ s ∧ r.last ∈ s :=
  have hle := (s.canonical.inhabited r h).toNat_le
  ⟨⟨r, h, CodeRange.first_mem hle⟩, ⟨r, h, CodeRange.last_mem hle⟩⟩

theorem isEmpty_eq_false_iff {s : CodeSet} : s.isEmpty = false ↔ ∃ code, code ∈ s := by
  constructor
  · intro h
    have hne : s.toRanges ≠ [] := by simpa [isEmpty, toRanges] using h
    obtain ⟨r, hr⟩ := List.exists_mem_of_ne_nil _ hne
    exact ⟨r.first, (bounds_mem hr).1⟩
  · intro hright
    obtain ⟨code, r, hr, -⟩ := hright
    have hne : s.toRanges ≠ [] := List.ne_nil_of_mem hr
    simpa [isEmpty, toRanges] using hne

theorem mem_of_last? {s : CodeSet} {code : Code} (h : s.last? = some code) : code ∈ s := by
  obtain ⟨r, hr, rfl⟩ := Option.map_eq_some_iff.1 h
  exact (bounds_mem (by simpa [toRanges] using Array.mem_of_back? hr)).2

/-- The last code of a set is at or above each of its codes. -/
theorem exists_last?_ge {s : CodeSet} {code : Code} (h : code ∈ s) :
    ∃ last, s.last? = some last ∧ code ≤ last := by
  obtain ⟨r, hr, hcode⟩ := h
  obtain ⟨rs, last, hsplit⟩ :=
    (List.eq_nil_or_concat s.toRanges).resolve_left (List.ne_nil_of_mem hr)
  have hback : s.last? = some last.last := by
    rw [last?, ← Array.getLast?_toList]
    change s.toRanges.getLast?.map (·.last) = _
    simp [hsplit]
  refine ⟨last.last, hback, UInt32.le_iff_toNat_le.2 ?_⟩
  have hle := (CodeRange.mem_iff_toNat.1 hcode).2
  have hapart := s.canonical.apart
  have hinhabited := s.canonical.inhabited
  change s.toRanges.Pairwise _ at hapart
  change ∀ r ∈ s.toRanges, _ at hinhabited
  rw [hsplit, List.concat_eq_append] at hr hapart hinhabited
  rcases List.mem_append.1 hr with hbefore | hlast
  · have hlt := (List.pairwise_append.1 hapart).2.2 r hbefore last (by simp)
    have hlast := (hinhabited last (by simp)).toNat_le
    omega
  · obtain rfl := List.mem_singleton.1 hlast
    exact hle

end CodeSet

end UcdTables
