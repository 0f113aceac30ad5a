import Mathlib.Data.List.Chain
import UcdTables.Proofs.Code.Ascending
import UcdTables.Proofs.Code.Unique

/-!
# Codes as ranges, and back

Joining neighbours leads from codes in ascending order to a canonical list of ranges, and writing
out the codes leads back. So the two are forms of one thing, and each can be had from the other.

* `flatMap_codes_joinAdjacent`: the codes and their order stay the same.
* `canonical_joinAdjacent`: ranges that ascend become canonical.
* `joinWords_eq_some`: a pass over ascending codes never adds one to the last word.
* `runs?_bijective`: both ways are inverse to one another.
-/

namespace UcdTables

namespace CodeRange

variable {r s current : CodeRange} {rs : List CodeRange}

/-! ## The codes stay the same -/

/-- Two ranges, the second of which continues the first, hold the codes of one range. -/
theorem codes_append (hr : r.first.toNat ≤ r.last.toNat) (hs : s.first.toNat ≤ s.last.toNat)
    (h : s.first.toNat = r.last.toNat + 1) : codes ⟨r.first, s.last⟩ = r.codes ++ s.codes := by
  have hsize : size ⟨r.first, s.last⟩ = r.size + s.size := by
    simp only [size]
    omega
  have hfirst : s.first.toNat = r.first.toNat + r.size := by
    simp only [size]
    omega
  simp only [codes]
  rw [hsize, hfirst, ← List.map_append, List.range'_append_1]

theorem flatMap_codes_joinFrom (h : ∀ r ∈ current :: rs, r.first.toNat ≤ r.last.toNat) :
    (joinFrom current rs).flatMap codes = current.codes ++ rs.flatMap codes := by
  induction rs generalizing current with
  | nil => simp [joinFrom]
  | cons r rs ih =>
    have hcurrent := h current (by simp)
    have hr := h r (by simp)
    have hrs : ∀ s ∈ rs, s.first.toNat ≤ s.last.toNat := fun s hs => h s (by simp [hs])
    rw [joinFrom]
    split
    next hnext =>
      rw [ih, codes_append hcurrent hr hnext, List.flatMap_cons, List.append_assoc]
      refine List.forall_mem_cons.2 ⟨?_, hrs⟩
      simp only
      omega
    next =>
      rw [List.flatMap_cons, ih (List.forall_mem_cons.2 ⟨hr, hrs⟩), List.flatMap_cons]

/-- Joining the neighbours of a list of ranges changes neither its codes nor their order. -/
theorem flatMap_codes_joinAdjacent (h : ∀ r ∈ rs, r.first.toNat ≤ r.last.toNat) :
    (joinAdjacent rs).flatMap codes = rs.flatMap codes := by
  cases rs with
  | nil => rfl
  | cons r rs => exact flatMap_codes_joinFrom h

/-! ## The ranges are canonical -/

/-- It is enough that each range leaves a gap before the next. -/
theorem Canonical.of_isChain (hrs : ∀ r ∈ rs, r.Inhabited)
    (h : rs.IsChain fun r s => r.last.toNat + 1 < s.first.toNat) : Canonical rs := by
  induction rs with
  | nil => exact canonical_nil
  | cons r rs ih =>
    obtain ⟨hr, hrs⟩ := List.forall_mem_cons.1 hrs
    have hcanonical := ih hrs h.tail
    refine canonical_cons.2 ⟨hr, fun t ht => ?_, hcanonical⟩
    cases rs with
    | nil => cases ht
    | cons s rs =>
      have hgap := (List.isChain_cons_cons.1 h).1
      rcases List.mem_cons.1 ht with rfl | ht
      · exact hgap
      · obtain ⟨hs, hlater, -⟩ := canonical_cons.1 hcanonical
        have hst := hlater t ht
        have hle := hs.toNat_le
        omega

/-- The range that is open at the start stays first, and may only grow. -/
theorem canonical_joinFrom (hinhabited : ∀ r ∈ current :: rs, r.first.toNat ≤ r.last.toNat)
    (h : (current :: rs).Pairwise fun r s => r.last.toNat < s.first.toNat) :
    Canonical (joinFrom current rs) ∧
      ∀ s ∈ joinFrom current rs, current.first.toNat ≤ s.first.toNat := by
  induction rs generalizing current with
  | nil =>
    have hcurrent := hinhabited current (by simp)
    exact ⟨canonical_cons.2 ⟨inhabited_iff.2 hcurrent, by simp, canonical_nil⟩, by simp [joinFrom]⟩
  | cons r rs ih =>
    obtain ⟨hcurrent, hr, hrs⟩ := by simpa only [List.forall_mem_cons] using hinhabited
    obtain ⟨hbelow, hrest⟩ := List.pairwise_cons.1 h
    obtain ⟨hlater, htail⟩ := List.pairwise_cons.1 hrest
    have hlt := hbelow r (by simp)
    rw [joinFrom]
    split
    next hnext =>
      refine @ih ⟨current.first, r.last⟩ ?_ (List.pairwise_cons.2 ⟨hlater, htail⟩)
      refine List.forall_mem_cons.2 ⟨?_, hrs⟩
      simp only
      omega
    next hgap =>
      obtain ⟨hcanonical, hfirst⟩ := ih (List.forall_mem_cons.2 ⟨hr, hrs⟩) hrest
      constructor
      · refine canonical_cons.2 ⟨inhabited_iff.2 hcurrent, fun s hs => ?_, hcanonical⟩
        have hle := hfirst s hs
        omega
      · refine List.forall_mem_cons.2 ⟨Nat.le_refl _, fun s hs => ?_⟩
        have hle := hfirst s hs
        omega

/-- Joining the neighbours of ranges that ascend makes a canonical list. -/
theorem canonical_joinAdjacent (hinhabited : ∀ r ∈ rs, r.first.toNat ≤ r.last.toNat)
    (h : rs.Pairwise fun r s => r.last.toNat < s.first.toNat) : Canonical (joinAdjacent rs) := by
  cases rs with
  | nil => exact canonical_nil
  | cons r rs => exact (canonical_joinFrom hinhabited h).1

/-! ## Single codes -/

variable {cs : List Code}

theorem flatMap_codes_single (cs : List Code) : (cs.map single).flatMap codes = cs := by
  simp [List.flatMap_map]

theorem mem_map_single (cs : List Code) : ∀ r ∈ cs.map single, r.first.toNat ≤ r.last.toNat := by
  intro r hr
  obtain ⟨c, -, rfl⟩ := List.mem_map.1 hr
  exact Nat.le_refl _

theorem pairwise_map_single (h : cs.Pairwise (· < ·)) :
    (cs.map single).Pairwise fun r s => r.last.toNat < s.first.toNat :=
  List.pairwise_map.2 (h.imp UInt32.lt_iff_toNat_lt.1)

theorem runs?_eq_none_iff : runs? cs = none ↔ cs = [] := by simp [runs?]

/-- The ranges of codes in ascending order. -/
theorem runs?_eq_some {rs : List CodeRange} (hcs : cs.Pairwise (· < ·)) (h : runs? cs = some rs) :
    Canonical rs ∧ rs.flatMap codes = cs := by
  obtain rfl : joinAdjacent (cs.map single) = rs := by
    unfold runs? at h
    split at h
    next => cases h
    next => exact Option.some.inj h
  refine ⟨canonical_joinAdjacent (mem_map_single cs) (pairwise_map_single hcs), ?_⟩
  rw [flatMap_codes_joinAdjacent (mem_map_single cs), flatMap_codes_single]

/-- The ranges of the codes of a canonical list are those of the list: no other such list covers
these codes. -/
theorem runs?_flatMap_codes (hne : rs ≠ []) (h : Canonical rs) :
    runs? (rs.flatMap codes) = some rs := by
  have hascending : (rs.flatMap codes).Pairwise (· < ·) :=
    pairwise_flatMap_codes (h.apart.imp Nat.lt_of_succ_lt)
  cases hruns : runs? (rs.flatMap codes) with
  | none =>
    obtain ⟨r, hr⟩ := List.exists_mem_of_ne_nil rs hne
    have hfirst : r.first ∈ rs.flatMap codes :=
      List.mem_flatMap.2 ⟨r, hr, mem_codes.2 (first_mem (h.inhabited r hr).toNat_le)⟩
    exact absurd (runs?_eq_none_iff.1 hruns) (List.ne_nil_of_mem hfirst)
  | some ss =>
    obtain ⟨hss, hcodes⟩ := runs?_eq_some hascending hruns
    refine congrArg some (hss.eq_of_covers h fun code => ?_)
    have hmem : code ∈ ss.flatMap codes ↔ code ∈ rs.flatMap codes := by rw [hcodes]
    simpa [Covers] using hmem

end CodeRange

/-! ## Computing in words -/

/-- The word after a code, if there is one. -/
def Code.next? (code : Code) : Option Code :=
  if code.toNat + 1 < UInt32.size then some (code + 1) else none

theorem Code.next?_of_lt {code bound : Code} (h : code < bound) :
    code.next? = some (code + 1) ∧ (code + 1).toNat = code.toNat + 1 := by
  have hlt := UInt32.lt_iff_toNat_lt.1 h
  have hword : code.toNat + 1 < UInt32.size := Nat.lt_of_le_of_lt hlt bound.toNat_lt
  refine ⟨if_pos hword, ?_⟩
  rw [UInt32.toNat_add, UInt32.toNat_one, Nat.mod_eq_of_lt hword]

namespace CodeRange

/-- Joins codes to the range that is open, computing in words. There is no result if the word after
the last code of the open range is asked for and does not exist. -/
def joinWords (current : CodeRange) : List Code → Option (List CodeRange)
  | [] => some [current]
  | code :: codes => do
    let next ← current.last.next?
    if code = next then joinWords ⟨current.first, code⟩ codes
    else
      let rest ← joinWords (.single code) codes
      pure (current :: rest)

/-- Over ascending codes, computing in words is computing with numbers: only the last code can be
the last word, and after it nothing is asked for. -/
theorem joinWords_eq_some {current : CodeRange} {cs : List Code}
    (h : (current.last :: cs).Pairwise (· < ·)) :
    joinWords current cs = some (joinFrom current (cs.map single)) := by
  induction cs generalizing current with
  | nil => rfl
  | cons c cs ih =>
    obtain ⟨hlt, hcs⟩ := List.pairwise_cons.1 h
    obtain ⟨hnext, hword⟩ := Code.next?_of_lt (hlt c (by simp))
    have hiff : c = current.last + 1 ↔ (single c).first.toNat = current.last.toNat + 1 := by
      rw [← hword, UInt32.toNat_inj]
      rfl
    rw [joinWords, hnext, List.map_cons, joinFrom]
    by_cases hc : c = current.last + 1
    · rw [if_pos (hiff.1 hc)]
      simp only [Option.bind_eq_bind, Option.bind_some, if_pos hc]
      exact @ih ⟨current.first, c⟩ hcs
    · rw [if_neg (fun h => hc (hiff.2 h))]
      simp only [Option.bind_eq_bind, Option.bind_some, if_neg hc]
      rw [@ih (single c) hcs]
      rfl

/-- Joining neighbours leads from the codes in ascending order to the canonical lists of ranges,
and writing out the codes leads back. On the way, one is never added to the last word. -/
theorem runs?_bijective :
    (∀ cs : List Code, cs.Pairwise (· < ·) →
      (runs? cs = none ↔ cs = []) ∧
      (∀ rs, runs? cs = some rs → Canonical rs ∧ rs.flatMap codes = cs) ∧
      ∀ first rest, cs = first :: rest →
        ∃ rs, runs? cs = some rs ∧ joinWords (.single first) rest = some rs) ∧
    ∀ rs : List CodeRange, rs ≠ [] → (∀ r ∈ rs, r.Inhabited) →
      (rs.IsChain fun r s => r.last.toNat + 1 < s.first.toNat) →
      runs? (rs.flatMap codes) = some rs := by
  refine ⟨fun cs hcs => ⟨runs?_eq_none_iff, fun rs => runs?_eq_some hcs, ?_⟩, ?_⟩
  · rintro first rest rfl
    exact ⟨_, by simp [runs?, joinAdjacent], joinWords_eq_some hcs⟩
  · intro rs hne hinhabited hchain
    exact runs?_flatMap_codes hne (.of_isChain hinhabited hchain)

/-- Two runs around a single code, the second of which ends with the last word. -/
theorem runs?_bijective_lastWord :
    let cs : List Code := [0, 1, 5, 0xFFFFFFFE, 0xFFFFFFFF]
    let rs : List CodeRange := [⟨0, 1⟩, .single 5, ⟨0xFFFFFFFE, 0xFFFFFFFF⟩]
    runs? cs = some rs ∧ Canonical rs ∧ rs.flatMap codes = cs ∧
      (∃ rs', runs? cs = some rs' ∧
        joinWords (.single 0) [1, 5, 0xFFFFFFFE, 0xFFFFFFFF] = some rs') ∧
      runs? (rs.flatMap codes) = some rs := by
  intro cs rs
  obtain ⟨-, hforward, hwords⟩ := runs?_bijective.1 cs (by decide)
  have hruns : runs? cs = some rs := by decide
  obtain ⟨hcanonical, hcodes⟩ := hforward rs hruns
  refine ⟨hruns, hcanonical, hcodes, hwords _ _ rfl, ?_⟩
  exact runs?_bijective.2 rs (by decide) (by decide) (by decide)

end CodeRange

/-- The ranges of a set are the runs of its codes. -/
theorem CodeSet.runs?_codes (s : CodeSet) :
    CodeRange.runs? s.codes = if s.isEmpty then none else some s.toRanges := by
  cases hs : s.isEmpty with
  | true =>
    have hranges : s.toRanges = [] := by simpa [isEmpty, toRanges] using hs
    rw [if_pos rfl, CodeRange.runs?_eq_none_iff, codes, hranges]
    rfl
  | false =>
    obtain ⟨code, r, hr, -⟩ := isEmpty_eq_false_iff.1 hs
    exact CodeRange.runs?_flatMap_codes (List.ne_nil_of_mem hr) s.canonical

end UcdTables
