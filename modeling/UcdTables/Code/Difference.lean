import UcdTables.Code.Canonical

/-!
# Taking codes away from ranges

From the ranges of one list, the codes of a second list are taken away in one pass over both.

* `canonical_subtract`: what is left is canonical if the first list was.
* `covers_subtract`: of two canonical lists, what is left is covered by the first and not by the
  second.
-/

namespace UcdTables.CodeRange

/-- The part of a range below a code, if it holds one. -/
def below (r : CodeRange) (bound : Code) : List CodeRange :=
  if r.first < bound then [⟨r.first, bound - 1⟩] else []

/-- The ranges with the codes of the second list taken away. Both lists ascend, and neither is ever
walked backwards: a range of the second list is dropped once it lies below what is left of the
first. -/
def subtract : List CodeRange → List CodeRange → List CodeRange
  | [], _ => []
  | r :: rs, [] => r :: rs
  | r :: rs, m :: ms =>
    if m.last < r.first then subtract (r :: rs) ms
    else if r.last < m.first then r :: subtract rs (m :: ms)
    else if m.last < r.last then r.below m.first ++ subtract (⟨m.last + 1, r.last⟩ :: rs) ms
    else r.below m.first ++ subtract rs (m :: ms)
termination_by rs ms => rs.length + ms.length

private theorem toNat_pred {a b : Code} (h : a < b) : (b - 1).toNat = b.toNat - 1 := by
  rw [UInt32.lt_iff_toNat_lt] at h
  exact UInt32.toNat_sub_of_le _ _ (UInt32.le_iff_toNat_le.2 (by simp; omega))

private theorem toNat_succ {a b : Code} (h : a < b) : (a + 1).toNat = a.toNat + 1 := by
  rw [UInt32.lt_iff_toNat_lt] at h
  have := b.toNat_lt
  rw [UInt32.toNat_add]
  simp only [UInt32.toNat_one]
  omega

private theorem mem_below {r s : CodeRange} {bound : Code} (h : s ∈ r.below bound) :
    s.first.toNat = r.first.toNat ∧ s.last.toNat + 1 = bound.toNat ∧ s.Inhabited := by
  rw [below] at h
  split at h
  next hlt =>
    have hpred := toNat_pred hlt
    rw [UInt32.lt_iff_toNat_lt] at hlt
    obtain rfl := List.mem_singleton.1 h
    exact ⟨rfl, by simp only; omega, inhabited_iff.2 (by simp only; omega)⟩
  next => simp at h

theorem covers_below {r : CodeRange} {bound code : Code} :
    Covers (r.below bound) code ↔ r.first.toNat ≤ code.toNat ∧ code.toNat < bound.toNat := by
  rw [below]
  split
  next hlt =>
    have hpred := toNat_pred hlt
    rw [UInt32.lt_iff_toNat_lt] at hlt
    simp only [covers_cons, covers_nil, or_false, mem_iff_toNat, hpred]
    omega
  next hlt =>
    rw [UInt32.lt_iff_toNat_lt] at hlt
    simp only [covers_nil, false_iff]
    omega

private theorem canonical_below_append {r : CodeRange} {bound : Code} {rs : List CodeRange}
    (h : ∀ s ∈ rs, bound.toNat < s.first.toNat) (hrs : Canonical rs) :
    Canonical (r.below bound ++ rs) := by
  have hmem := fun s => @mem_below r s bound
  rw [below] at hmem ⊢
  split
  next hlt =>
    obtain ⟨-, hlast, hs⟩ := hmem ⟨r.first, bound - 1⟩ (by simp [hlt])
    exact canonical_cons.2 ⟨hs, fun s hs => by have := h s hs; omega, hrs⟩
  next => exact hrs

/-- Each range that is left lies within a range of the first list. -/
private theorem within_of_mem_subtract {rs ms : List CodeRange} {s : CodeRange}
    (hs : s ∈ subtract rs ms) :
    ∃ r ∈ rs, r.first.toNat ≤ s.first.toNat ∧ s.last.toNat ≤ r.last.toNat := by
  fun_induction subtract rs ms with
  | case1 => simp at hs
  | case2 r rs => exact ⟨s, hs, by omega, by omega⟩
  | case3 r rs m ms hlt ih => exact ih hs
  | case4 r rs m ms hlt hgt ih =>
    rcases List.mem_cons.1 hs with rfl | hs
    · exact ⟨s, by simp, by omega, by omega⟩
    · obtain ⟨r', hr', h⟩ := ih hs
      exact ⟨r', by simp [hr'], h⟩
  | case5 r rs m ms hlt hgt hmore ih =>
    have hsucc := toNat_succ hmore
    simp only [UInt32.lt_iff_toNat_lt] at hlt hgt
    rcases List.mem_append.1 hs with hs | hs
    · have := mem_below hs
      exact ⟨r, by simp, by omega, by omega⟩
    · obtain ⟨r', hr', h⟩ := ih hs
      rcases List.mem_cons.1 hr' with rfl | hr'
      · exact ⟨r, by simp, by simp only at h; omega, h.2⟩
      · exact ⟨r', by simp [hr'], h⟩
  | case6 r rs m ms hlt hgt hmore ih =>
    simp only [UInt32.lt_iff_toNat_lt] at hgt
    rcases List.mem_append.1 hs with hs | hs
    · have := mem_below hs
      exact ⟨r, by simp, by omega, by omega⟩
    · obtain ⟨r', hr', h⟩ := ih hs
      exact ⟨r', by simp [hr'], h⟩

/-- Taking codes away leaves a canonical list canonical. -/
theorem canonical_subtract {rs ms : List CodeRange} (hr : Canonical rs)
    (hm : ∀ m ∈ ms, m.Inhabited) : Canonical (subtract rs ms) := by
  fun_induction subtract rs ms with
  | case1 => exact canonical_nil
  | case2 r rs => exact hr
  | case3 r rs m ms hlt ih => exact ih hr fun m' h => hm m' (by simp [h])
  | case4 r rs m ms hlt hgt ih =>
    obtain ⟨hrange, hgap, hrs⟩ := canonical_cons.1 hr
    refine canonical_cons.2 ⟨hrange, fun s hs => ?_, ih hrs hm⟩
    obtain ⟨r', hr', h, -⟩ := within_of_mem_subtract hs
    have := hgap r' hr'
    omega
  | case5 r rs m ms hlt hgt hmore ih =>
    obtain ⟨hrange, hgap, hrs⟩ := canonical_cons.1 hr
    have hm' := (hm m (by simp)).toNat_le
    have hsucc := toNat_succ hmore
    simp only [UInt32.lt_iff_toNat_lt] at hgt hmore
    have hleft : Canonical (⟨m.last + 1, r.last⟩ :: rs) :=
      canonical_cons.2 ⟨inhabited_iff.2 (by simp only; omega), hgap, hrs⟩
    refine canonical_below_append (fun s hs => ?_) (ih hleft fun m' h => hm m' (by simp [h]))
    obtain ⟨r', hr', h, -⟩ := within_of_mem_subtract hs
    rcases List.mem_cons.1 hr' with rfl | hr'
    · simp only at h
      omega
    · have := hgap r' hr'
      omega
  | case6 r rs m ms hlt hgt hmore ih =>
    obtain ⟨hrange, hgap, hrs⟩ := canonical_cons.1 hr
    simp only [UInt32.lt_iff_toNat_lt] at hgt
    refine canonical_below_append (fun s hs => ?_) (ih hrs hm)
    obtain ⟨r', hr', h, -⟩ := within_of_mem_subtract hs
    have := hgap r' hr'
    omega

/-- What is left is covered by the first list and not by the second. -/
theorem covers_subtract {rs ms : List CodeRange} (hr : Canonical rs) (hm : Canonical ms)
    (code : Code) : Covers (subtract rs ms) code ↔ Covers rs code ∧ ¬ Covers ms code := by
  fun_induction subtract rs ms with
  | case1 => simp
  | case2 r rs => simp
  | case3 r rs m ms hlt ih =>
    rw [ih hr (canonical_cons.1 hm).2.2, covers_cons (r := m)]
    rw [UInt32.lt_iff_toNat_lt] at hlt
    refine and_congr_right fun hc => not_congr (or_iff_right fun hmem => ?_).symm
    have := hr.le_of_covers hc
    have := (mem_iff_toNat.1 hmem).2
    omega
  | case4 r rs m ms hlt hgt ih =>
    rw [covers_cons, ih (canonical_cons.1 hr).2.2 hm, covers_cons (r := r), or_and_right]
    rw [UInt32.lt_iff_toNat_lt] at hgt
    refine or_congr (iff_self_and.2 fun hmem hc => ?_) Iff.rfl
    have := hm.le_of_covers hc
    have := (mem_iff_toNat.1 hmem).2
    omega
  | case5 r rs m ms hlt hgt hmore ih =>
    have hsucc := toNat_succ hmore
    obtain ⟨-, hgap, hrs⟩ := canonical_cons.1 hr
    simp only [UInt32.lt_iff_toNat_lt] at hlt hgt hmore
    have hleft : Canonical (⟨m.last + 1, r.last⟩ :: rs) :=
      canonical_cons.2 ⟨inhabited_iff.2 (by simp only; omega), hgap, hrs⟩
    have hm' := (canonical_cons.1 hm).1.toNat_le
    have := fun h : Covers rs code => hr.lt_of_covers_tail h
    have := fun h : Covers ms code => hm.lt_of_covers_tail h
    simp only [covers_append, covers_below, ih hleft (canonical_cons.1 hm).2.2, covers_cons,
      mem_iff_toNat, hsucc]
    grind
  | case6 r rs m ms hlt hgt hmore ih =>
    simp only [UInt32.lt_iff_toNat_lt] at hlt hgt hmore
    have hm' := (canonical_cons.1 hm).1.toNat_le
    have := fun h : Covers rs code => hr.lt_of_covers_tail h
    have := fun h : Covers ms code => hm.lt_of_covers_tail h
    simp only [covers_append, covers_below, ih (canonical_cons.1 hr).2.2 hm, covers_cons,
      mem_iff_toNat]
    grind

end UcdTables.CodeRange
