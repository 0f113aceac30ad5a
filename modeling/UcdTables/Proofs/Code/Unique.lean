import UcdTables.Code.Set

/-!
# One list for each set

A canonical list of ranges is determined by the codes that it covers, and so is the set that it
stands for.
-/

namespace UcdTables

namespace CodeRange

variable {r s : CodeRange} {rs ss : List CodeRange}

/-- The first range of a canonical list reaches as far as that of another such list that begins
with the same code and covers no more. -/
private theorem last_le_of_covers (hr : Canonical (r :: rs)) (hfirst : s.first = r.first)
    (h : ∀ code, Covers (s :: ss) code → Covers (r :: rs) code) : s.last.toNat ≤ r.last.toNat := by
  obtain ⟨hinhabited, -, -⟩ := canonical_cons.1 hr
  have hle := hinhabited.toNat_le
  apply Nat.le_of_not_lt
  intro hlt
  -- the code after the first range of the one list is in the first range of the other
  have hnext : (r.last + 1).toNat = r.last.toNat + 1 := by
    have hword := s.last.toNat_lt
    rw [UInt32.toNat_add, UInt32.toNat_one]
    omega
  have hmem : r.last + 1 ∈ s := by
    rw [mem_iff_toNat, hfirst, hnext]
    omega
  rcases covers_cons.1 (h _ (covers_cons.2 (.inl hmem))) with hcode | hcode
  · have hlast := (mem_iff_toNat.1 hcode).2
    omega
  · have hgap := hr.lt_of_covers_tail hcode
    omega

/-- Two canonical lists that cover the same codes are equal. -/
theorem Canonical.eq_of_covers (hr : Canonical rs) (hs : Canonical ss)
    (h : ∀ code, Covers rs code ↔ Covers ss code) : rs = ss := by
  induction rs generalizing ss with
  | nil =>
    cases ss with
    | nil => rfl
    | cons s ss =>
      have hfirst : s.first ∈ s :=
        mem_iff_toNat.2 ⟨Nat.le_refl _, (canonical_cons.1 hs).1.toNat_le⟩
      exact absurd ((h s.first).2 (covers_cons.2 (.inl hfirst))) (covers_nil _)
  | cons r rs ih =>
    have hr' := (canonical_cons.1 hr).1.toNat_le
    have hrfirst : Covers (r :: rs) r.first :=
      covers_cons.2 (.inl (mem_iff_toNat.2 ⟨Nat.le_refl _, hr'⟩))
    cases ss with
    | nil => exact absurd ((h r.first).1 hrfirst) (covers_nil _)
    | cons s ss =>
      have hs' := (canonical_cons.1 hs).1.toNat_le
      have hsfirst : Covers (s :: ss) s.first :=
        covers_cons.2 (.inl (mem_iff_toNat.2 ⟨Nat.le_refl _, hs'⟩))
      have hfirst : r.first = s.first := by
        have hle := hs.le_of_covers ((h _).1 hrfirst)
        have hge := hr.le_of_covers ((h _).2 hsfirst)
        exact UInt32.toNat_inj.1 (by omega)
      have hlast : r.last = s.last := by
        have hle := last_le_of_covers hr hfirst.symm fun code => (h code).2
        have hge := last_le_of_covers hs hfirst fun code => (h code).1
        exact UInt32.toNat_inj.1 (by omega)
      obtain rfl : r = s := by
        cases r
        cases s
        simp_all
      congr 1
      apply ih (canonical_cons.1 hr).2.2 (canonical_cons.1 hs).2.2
      intro code
      constructor
      · intro hcode
        have hlt := hr.lt_of_covers_tail hcode
        apply (covers_cons.1 ((h code).1 (covers_cons.2 (.inr hcode)))).resolve_left
        intro hmem
        have := (mem_iff_toNat.1 hmem).2
        omega
      · intro hcode
        have hlt := hs.lt_of_covers_tail hcode
        apply (covers_cons.1 ((h code).2 (covers_cons.2 (.inr hcode)))).resolve_left
        intro hmem
        have := (mem_iff_toNat.1 hmem).2
        omega

end CodeRange

/-- Two sets of the same codes are equal. -/
theorem CodeSet.ext {s t : CodeSet} (h : ∀ code, code ∈ s ↔ code ∈ t) : s = t := by
  obtain ⟨⟨rs⟩, hrs⟩ := s
  obtain ⟨⟨ss⟩, hss⟩ := t
  obtain rfl : rs = ss := CodeRange.Canonical.eq_of_covers hrs hss h
  rfl

end UcdTables
