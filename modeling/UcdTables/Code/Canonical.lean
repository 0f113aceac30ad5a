import UcdTables.Code.Range

/-!
# Canonical lists of ranges

A list of ranges covers the codes of its members. It is canonical when every range holds a code,
the ranges ascend, and at least one code lies between a range and the next.

* `canonical_normalize`, `covers_normalize`: any list of ranges, in any order and overlapping at
  will, has a canonical list that covers the same codes. It is found by ordering the ranges by
  their first code and merging those that touch.
-/

namespace UcdTables.CodeRange

/-- A code that some range of the list holds. -/
def Covers (rs : List CodeRange) (code : Code) : Prop := ∃ r ∈ rs, code ∈ r

/-- Ascending ranges, none empty, with a gap after each. -/
structure Canonical (rs : List CodeRange) : Prop where
  inhabited : ∀ r ∈ rs, r.Inhabited
  apart : rs.Pairwise fun a b => a.last.toNat + 1 < b.first.toNat

instance (rs : List CodeRange) : Decidable (Canonical rs) :=
  decidable_of_iff ((∀ r ∈ rs, r.Inhabited) ∧
      rs.Pairwise fun a b => a.last.toNat + 1 < b.first.toNat)
    ⟨fun h => ⟨h.1, h.2⟩, fun h => ⟨h.1, h.2⟩⟩

@[simp] theorem covers_nil (code : Code) : ¬ Covers [] code := by simp [Covers]

@[simp] theorem covers_cons {r : CodeRange} {rs : List CodeRange} {code : Code} :
    Covers (r :: rs) code ↔ code ∈ r ∨ Covers rs code := by simp [Covers]

@[simp] theorem covers_append {rs ss : List CodeRange} {code : Code} :
    Covers (rs ++ ss) code ↔ Covers rs code ∨ Covers ss code := by
  simp only [Covers, List.mem_append, or_and_right, exists_or]

theorem Inhabited.toNat_le {r : CodeRange} (h : r.Inhabited) : r.first.toNat ≤ r.last.toNat :=
  UInt32.le_iff_toNat_le.1 h

theorem inhabited_iff {r : CodeRange} : r.Inhabited ↔ r.first.toNat ≤ r.last.toNat :=
  UInt32.le_iff_toNat_le

theorem canonical_nil : Canonical [] := ⟨by simp, .nil⟩

theorem canonical_cons {r : CodeRange} {rs : List CodeRange} :
    Canonical (r :: rs) ↔ r.Inhabited ∧
      (∀ s ∈ rs, r.last.toNat + 1 < s.first.toNat) ∧ Canonical rs := by
  constructor
  · rintro ⟨h, h'⟩
    rw [List.pairwise_cons] at h'
    exact ⟨h r (by simp), h'.1, fun s hs => h s (by simp [hs]), h'.2⟩
  · rintro ⟨hr, h, ⟨h₁, h₂⟩⟩
    refine ⟨?_, List.pairwise_cons.2 ⟨h, h₂⟩⟩
    simp only [List.mem_cons, forall_eq_or_imp]
    exact ⟨hr, h₁⟩

/-- Every code of a canonical list lies at or above the start of its first range. -/
theorem Canonical.le_of_covers {r : CodeRange} {rs : List CodeRange} {code : Code}
    (h : Canonical (r :: rs)) (hc : Covers (r :: rs) code) : r.first.toNat ≤ code.toNat := by
  obtain ⟨hr, hgap, -⟩ := canonical_cons.1 h
  have := hr.toNat_le
  rcases covers_cons.1 hc with hc | ⟨s, hs, hc⟩
  · exact (mem_iff_toNat.1 hc).1
  · have := hgap s hs
    have := (mem_iff_toNat.1 hc).1
    omega

/-- Past the first range of a canonical list, a gap lies before every code. -/
theorem Canonical.lt_of_covers_tail {r : CodeRange} {rs : List CodeRange} {code : Code}
    (h : Canonical (r :: rs)) (hc : Covers rs code) : r.last.toNat + 1 < code.toNat := by
  obtain ⟨-, hgap, -⟩ := canonical_cons.1 h
  obtain ⟨s, hs, hc⟩ := hc
  have := hgap s hs
  have := (mem_iff_toNat.1 hc).1
  omega

/-! ## Merging ranges that touch -/

/-- Merges into `current` the ranges that overlap or continue it, of a list ordered by first
code. -/
def absorb (current : CodeRange) : List CodeRange → List CodeRange
  | [] => [current]
  | r :: rs =>
    if r.first.toNat ≤ current.last.toNat + 1 then
      absorb ⟨current.first, if current.last ≤ r.last then r.last else current.last⟩ rs
    else current :: absorb r rs

/-- Merges the ranges that overlap or continue one another, of a list ordered by first code. -/
def mergeTouching : List CodeRange → List CodeRange
  | [] => []
  | r :: rs => absorb r rs

/-- The canonical list that covers the same codes. -/
def normalize (rs : List CodeRange) : List CodeRange :=
  mergeTouching ((rs.filter (·.Inhabited)).mergeSort (·.first ≤ ·.first))

/-- Ranges that hold a code each, ordered by first code. -/
private structure Ordered (rs : List CodeRange) : Prop where
  inhabited : ∀ r ∈ rs, r.Inhabited
  ordered : rs.Pairwise fun a b => a.first.toNat ≤ b.first.toNat

private theorem Ordered.of_cons {r : CodeRange} {rs : List CodeRange} (h : Ordered (r :: rs)) :
    r.first.toNat ≤ r.last.toNat ∧ (∀ s ∈ rs, r.first.toNat ≤ s.first.toNat) ∧ Ordered rs := by
  have h' := List.pairwise_cons.1 h.ordered
  exact ⟨(h.inhabited r (by simp)).toNat_le, h'.1, fun s hs => h.inhabited s (by simp [hs]), h'.2⟩

private theorem Ordered.cons {r : CodeRange} {rs : List CodeRange}
    (hr : r.first.toNat ≤ r.last.toNat) (h : ∀ s ∈ rs, r.first.toNat ≤ s.first.toNat)
    (hs : Ordered rs) : Ordered (r :: rs) := by
  refine ⟨?_, List.pairwise_cons.2 ⟨h, hs.ordered⟩⟩
  simp only [List.mem_cons, forall_eq_or_imp]
  exact ⟨inhabited_iff.2 hr, hs.inhabited⟩

private theorem toNat_ite_le (a b : Code) :
    (if a ≤ b then b else a).toNat = max a.toNat b.toNat := by
  split
  next h => rw [UInt32.le_iff_toNat_le] at h; omega
  next h => rw [UInt32.le_iff_toNat_le] at h; omega

private theorem Ordered.grow {current r : CodeRange} {rs : List CodeRange}
    (h : Ordered (current :: r :: rs)) :
    Ordered (⟨current.first, if current.last ≤ r.last then r.last else current.last⟩ :: rs) := by
  obtain ⟨hc, hle, hr⟩ := h.of_cons
  obtain ⟨-, -, hrs⟩ := hr.of_cons
  refine .cons ?_ (fun s hs => hle s (by simp [hs])) hrs
  simp only [toNat_ite_le]
  omega

private theorem covers_absorb {current : CodeRange} {rs : List CodeRange}
    (h : Ordered (current :: rs)) (code : Code) :
    Covers (absorb current rs) code ↔ Covers (current :: rs) code := by
  induction rs generalizing current with
  | nil => rfl
  | cons r rs ih =>
    obtain ⟨hc, hle, hr⟩ := h.of_cons
    have hle := hle r (by simp)
    have hr' := hr.of_cons.1
    rw [absorb]
    split
    next htouch =>
      rw [ih h.grow]
      simp only [covers_cons, ← or_assoc]
      refine or_congr ?_ Iff.rfl
      simp only [mem_iff_toNat, toNat_ite_le]
      omega
    next => simp only [covers_cons, ih hr]

private theorem canonical_absorb {current : CodeRange} {rs : List CodeRange}
    (h : Ordered (current :: rs)) :
    Canonical (absorb current rs) ∧
      ∀ s ∈ absorb current rs, current.first.toNat ≤ s.first.toNat := by
  induction rs generalizing current with
  | nil =>
    obtain ⟨hc, -, -⟩ := h.of_cons
    exact ⟨⟨by simpa [absorb] using inhabited_iff.2 hc, by simp [absorb]⟩, by simp [absorb]⟩
  | cons r rs ih =>
    obtain ⟨hc, hle, hr⟩ := h.of_cons
    rw [absorb]
    split
    next => exact ih h.grow
    next hgap =>
      obtain ⟨hcan, hfirst⟩ := ih hr
      refine ⟨canonical_cons.2 ⟨inhabited_iff.2 hc, fun s hs => ?_, hcan⟩, ?_⟩
      · have := hfirst s hs
        omega
      · have := hle r (by simp)
        simp only [List.mem_cons, forall_eq_or_imp]
        exact ⟨by omega, fun s hs => by have := hfirst s hs; omega⟩

private theorem ordered_sorted (rs : List CodeRange) :
    Ordered ((rs.filter (·.Inhabited)).mergeSort (·.first ≤ ·.first)) := by
  refine ⟨fun r hr => ?_, ?_⟩
  · simpa using (List.mem_filter.1 (List.mem_mergeSort.1 hr)).2
  · refine (List.pairwise_mergeSort ?_ ?_ _).imp ?_
    · simp only [decide_eq_true_eq, UInt32.le_iff_toNat_le]; omega
    · simp only [Bool.or_eq_true, decide_eq_true_eq, UInt32.le_iff_toNat_le]; omega
    · simp [UInt32.le_iff_toNat_le]

theorem canonical_normalize (rs : List CodeRange) : Canonical (normalize rs) := by
  have h := ordered_sorted rs
  rw [normalize]
  cases hs : (rs.filter (·.Inhabited)).mergeSort (·.first ≤ ·.first) with
  | nil => exact canonical_nil
  | cons r rs => exact (canonical_absorb (hs ▸ h)).1

/-- A list and its canonical list cover the same codes. -/
theorem covers_normalize (rs : List CodeRange) (code : Code) :
    Covers (normalize rs) code ↔ Covers rs code := by
  have h := ordered_sorted rs
  have hmem : Covers ((rs.filter (·.Inhabited)).mergeSort (·.first ≤ ·.first)) code ↔
      Covers rs code := by
    simp only [Covers, List.mem_mergeSort, List.mem_filter, decide_eq_true_eq, and_assoc]
    refine exists_congr fun r => and_congr Iff.rfl (and_iff_right_of_imp fun hc => ?_)
    rw [mem_iff_toNat] at hc
    exact inhabited_iff.2 (by omega)
  rw [normalize, ← hmem]
  cases hs : (rs.filter (·.Inhabited)).mergeSort (·.first ≤ ·.first) with
  | nil => rfl
  | cons r rs => exact covers_absorb (hs ▸ h) code

end UcdTables.CodeRange
