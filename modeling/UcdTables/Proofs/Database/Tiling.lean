import UcdTables.Database.Assignment

/-!
# Filling the gaps

With the unassigned ranges between them and after the last, the assignments of ascending records
tile the code space: each range begins with the code directly after the one before it, from the
first code to the last.

* `tiles_fillGaps`: the tiling.
* `exists_mem_fillGaps`: what is assigned stays as it is, and all other codes are unassigned.
-/

namespace UcdTables

/-- The code after one of the code space is the next number: nothing wraps around. -/
theorem toNat_add_one {code : Code} (h : code ≤ lastCode) : (code + 1).toNat = code.toNat + 1 := by
  have hlast : code.toNat ≤ 0x10FFFF := UInt32.le_iff_toNat_le.1 h
  rw [UInt32.toNat_add, UInt32.toNat_one]
  omega

namespace CodeRange

/-- Ranges that hold a code each and follow one another without a gap, from `next` to the end of
the code space. -/
def Tiles : Nat → List CodeRange → Prop
  | next, [] => next = lastCode.toNat + 1
  | next, r :: rs =>
    r.first.toNat = next ∧ r.first.toNat ≤ r.last.toNat ∧ Tiles (r.last.toNat + 1) rs

namespace Tiles

variable {next : Nat} {rs : List CodeRange}

theorem le_end (h : Tiles next rs) : next ≤ lastCode.toNat + 1 := by
  induction rs generalizing next with
  | nil => exact Nat.le_of_eq h
  | cons r rs ih =>
    obtain ⟨hfirst, hle, hrs⟩ := h
    have := ih hrs
    omega

theorem bounds (h : Tiles next rs) :
    ∀ r ∈ rs, next ≤ r.first.toNat ∧ r.first.toNat ≤ r.last.toNat ∧
      r.last.toNat ≤ lastCode.toNat := by
  induction rs generalizing next with
  | nil => simp
  | cons r rs ih =>
    obtain ⟨hfirst, hle, hrs⟩ := h
    intro s hs
    rcases List.mem_cons.1 hs with rfl | hs
    · have := hrs.le_end
      omega
    · have := ih hrs s hs
      omega

/-- No code lies in two tiles. -/
theorem pairwise (h : Tiles next rs) :
    rs.Pairwise fun r s => r.last.toNat < s.first.toNat := by
  induction rs generalizing next with
  | nil => exact .nil
  | cons r rs ih =>
    obtain ⟨hfirst, hle, hrs⟩ := h
    refine List.pairwise_cons.2 ⟨fun s hs => ?_, ih hrs⟩
    have := (hrs.bounds s hs).1
    omega

end Tiles

end CodeRange

namespace Assignment

/-- Assignments to ascending ranges of the code space, none below `next`. -/
def AscendFrom : Nat → List Assignment → Prop
  | next, [] => next ≤ lastCode.toNat + 1
  | next, a :: as =>
    next ≤ a.range.first.toNat ∧ a.range.first.toNat ≤ a.range.last.toNat ∧
      a.range.last ≤ lastCode ∧ AscendFrom (a.range.last.toNat + 1) as

theorem ascendFrom_of_pairwise {next : Nat} {as : List Assignment}
    (hnext : next ≤ lastCode.toNat + 1) (hfrom : ∀ a ∈ as, next ≤ a.range.first.toNat)
    (hinhabited : ∀ a ∈ as, a.range.first.toNat ≤ a.range.last.toNat)
    (hlast : ∀ a ∈ as, a.range.last ≤ lastCode)
    (h : as.Pairwise fun a b => a.range.last.toNat < b.range.first.toNat) :
    AscendFrom next as := by
  induction as generalizing next with
  | nil => exact hnext
  | cons a as ih =>
    obtain ⟨ha, has⟩ := List.pairwise_cons.1 h
    have hend := UInt32.le_iff_toNat_le.1 (hlast a (by simp))
    refine ⟨hfrom a (by simp), hinhabited a (by simp), hlast a (by simp), ?_⟩
    exact ih (by omega) ha (fun b hb => hinhabited b (by simp [hb]))
      (fun b hb => hlast b (by simp [hb])) has

/-! ## A single gap -/

private theorem toNat_sub_one {next bound : Code} (h : next < bound) :
    (bound - 1).toNat = bound.toNat - 1 := by
  have hlt := UInt32.lt_iff_toNat_lt.1 h
  refine UInt32.toNat_sub_of_le _ _ (UInt32.le_iff_toNat_le.2 ?_)
  rw [UInt32.toNat_one]
  omega

private theorem tiles_gap_append {next bound : Code} {rs : List CodeRange}
    (hle : next.toNat ≤ bound.toNat) (h : CodeRange.Tiles bound.toNat rs) :
    CodeRange.Tiles next.toNat ((gap next bound).map (·.range) ++ rs) := by
  unfold gap
  split
  next hlt =>
    have hpred := toNat_sub_one hlt
    have hpos := UInt32.lt_iff_toNat_lt.1 hlt
    have hend : (bound - 1).toNat + 1 = bound.toNat := by omega
    refine ⟨rfl, by simp only; omega, ?_⟩
    show CodeRange.Tiles ((bound - 1).toNat + 1) rs
    rw [hend]
    exact h
  next hlt =>
    have heq : next.toNat = bound.toNat := by
      rw [UInt32.lt_iff_toNat_lt] at hlt
      omega
    show CodeRange.Tiles next.toNat rs
    rw [heq]
    exact h

private theorem exists_mem_gap {next bound code : Code} {g : Category} :
    (∃ a ∈ gap next bound, code ∈ a.range ∧ a.category = g) ↔
      next.toNat ≤ code.toNat ∧ code.toNat < bound.toNat ∧ g = .unassigned := by
  unfold gap
  split
  next hlt =>
    have hpred := toNat_sub_one hlt
    have hpos := UInt32.lt_iff_toNat_lt.1 hlt
    simp only [List.mem_singleton, exists_eq_left, CodeRange.mem_iff_toNat, hpred]
    constructor
    · intro hleft
      obtain ⟨⟨hnext, hlast⟩, hg⟩ := hleft
      exact ⟨hnext, by omega, hg.symm⟩
    · intro hright
      obtain ⟨hnext, hlast, hg⟩ := hright
      exact ⟨⟨hnext, by omega⟩, hg.symm⟩
  next hlt =>
    rw [UInt32.lt_iff_toNat_lt] at hlt
    constructor
    · intro hleft
      obtain ⟨a, ha, -⟩ := hleft
      cases ha
    · intro hright
      obtain ⟨hnext, hbound, -⟩ := hright
      omega

/-! ## All gaps -/

/-- With the gaps filled, the assignments tile the code space. -/
theorem tiles_fillGaps {next : Code} {as : List Assignment} (h : AscendFrom next.toNat as) :
    CodeRange.Tiles next.toNat ((fillGaps next as).map (·.range)) := by
  induction as generalizing next with
  | nil =>
    have hnext : next.toNat ≤ (lastCode + 1).toNat := h
    have hend : CodeRange.Tiles (lastCode + 1).toNat [] := rfl
    simpa [fillGaps] using tiles_gap_append hnext hend
  | cons a as ih =>
    obtain ⟨hnext, hle, hlast, has⟩ := h
    rw [← toNat_add_one hlast] at has
    rw [fillGaps, List.map_append, List.map_cons]
    refine tiles_gap_append hnext ⟨rfl, hle, ?_⟩
    rw [← toNat_add_one hlast]
    exact ih has

theorem AscendFrom.le_of_mem {next : Nat} {as : List Assignment} (h : AscendFrom next as) :
    ∀ a ∈ as, ∀ code ∈ a.range, next ≤ code.toNat := by
  induction as generalizing next with
  | nil => simp
  | cons a as ih =>
    obtain ⟨hnext, hle, -, has⟩ := h
    intro b hb code hcode
    rcases List.mem_cons.1 hb with rfl | hb
    · have := (CodeRange.mem_iff_toNat.1 hcode).1
      omega
    · have := ih has b hb code hcode
      omega

/-- The category of a code once the gaps are filled: that of the assignment to it, and no category
but `unassigned` where there is none. -/
theorem exists_mem_fillGaps {next code : Code} {as : List Assignment}
    (h : AscendFrom next.toNat as) {g : Category} :
    (∃ a ∈ fillGaps next as, code ∈ a.range ∧ a.category = g) ↔
      next.toNat ≤ code.toNat ∧ code ≤ lastCode ∧
        ((∃ a ∈ as, code ∈ a.range ∧ a.category = g) ∨
          (g = .unassigned ∧ ∀ a ∈ as, code ∉ a.range)) := by
  induction as generalizing next with
  | nil =>
    have hend : code.toNat < (lastCode + 1).toNat ↔ code ≤ lastCode := by
      rw [UInt32.le_iff_toNat_le]
      exact Nat.lt_succ_iff
    rw [fillGaps, exists_mem_gap, hend]
    simp
  | cons a as ih =>
    obtain ⟨hnext, hle, hlast, has⟩ := h
    have hbeyond := has.le_of_mem
    rw [← toNat_add_one hlast] at has
    have hend := UInt32.le_iff_toNat_le.1 hlast
    have hsucc := toNat_add_one hlast
    simp only [fillGaps, List.mem_append, List.mem_cons, or_and_right, exists_or, exists_eq_left,
      forall_eq_or_imp, exists_mem_gap, ih has, hsucc]
    simp only [UInt32.le_iff_toNat_le, CodeRange.mem_iff_toNat (r := a.range)]
    -- the code lies below the first assignment, in it or above it
    rcases Nat.lt_or_ge code.toNat a.range.first.toNat with hbelow | hfrom
    · have hrest : ∀ b ∈ as, code ∉ b.range := fun b hb hcode => by
        have := hbeyond b hb code hcode
        omega
      grind
    · rcases Nat.lt_or_ge a.range.last.toNat code.toNat with habove | hin
      · grind
      · have hrest : ∀ b ∈ as, code ∉ b.range := fun b hb hcode => by
          have := hbeyond b hb code hcode
          omega
        grind

end Assignment

end UcdTables
