import UcdTables.Code.Difference

/-!
# Sets of codes

A set of codes is kept as its canonical list of ranges, so that a set of a million codes is as
small as its description. A set has one such list, and the list is the set: two sets of the same
codes are equal (`CodeSet.ext`).

* `mem_ofRanges`, `mem_ofCodes`, `mem_unions`, `mem_difference` say which codes a set holds.
* `contains_eq_true_iff`: membership is decided by halving the list of ranges.
-/

namespace UcdTables

open CodeRange (Canonical Covers)

/-- A set of codes, as its canonical list of ranges. -/
structure CodeSet where
  ranges : Array CodeRange
  canonical : Canonical ranges.toList
  deriving DecidableEq

namespace CodeSet

/-- The ranges of a set, in ascending order. -/
def toRanges (s : CodeSet) : List CodeRange := s.ranges.toList

/-- The set of the codes that some range of the list holds. -/
def ofRanges (rs : List CodeRange) : CodeSet :=
  ⟨(CodeRange.normalize rs).toArray, CodeRange.canonical_normalize rs⟩

/-- The set of the codes of a list. -/
def ofCodes (codes : List Code) : CodeSet := ofRanges (codes.map .single)

/-- The set of no codes. -/
def empty : CodeSet := ⟨#[], CodeRange.canonical_nil⟩

/-- The codes of a set in ascending order. -/
def codes (s : CodeSet) : List Code := s.toRanges.flatMap CodeRange.codes

/-- The number of codes of a set. -/
def size (s : CodeSet) : Nat := CodeRange.totalSize s.toRanges

/-- A set that holds no code has no range. -/
def isEmpty (s : CodeSet) : Bool := s.ranges.isEmpty

instance : Membership Code CodeSet := ⟨fun s code => Covers s.toRanges code⟩

theorem mem_def {s : CodeSet} {code : Code} : code ∈ s ↔ Covers s.toRanges code := Iff.rfl

/-- The codes of all the sets of a list. -/
def unions (sets : List CodeSet) : CodeSet := ofRanges (sets.flatMap toRanges)

/-- The codes of the first set that the second does not hold. -/
def difference (s t : CodeSet) : CodeSet :=
  ⟨(CodeRange.subtract s.toRanges t.toRanges).toArray,
    CodeRange.canonical_subtract s.canonical t.canonical.inhabited⟩

/-- Looks for the range of a code among those with an index from `low` up to but not including
`high`. -/
def search (rs : Array CodeRange) (code : Code) (low high : Nat) (hhigh : high ≤ rs.size) : Bool :=
  if hlt : low < high then
    let middle := low + (high - low) / 2
    if code < rs[middle].first then search rs code low middle (by omega)
    else if rs[middle].last < code then search rs code (middle + 1) high hhigh
    else true
  else false
termination_by high - low

/-- Whether a set holds a code. -/
def contains (s : CodeSet) (code : Code) : Bool := search s.ranges code 0 s.ranges.size (by omega)

/-- The greatest code of a set. -/
def last? (s : CodeSet) : Option Code := s.ranges.back?.map (·.last)

/-! ## Which codes a set holds -/

@[simp] theorem toRanges_ofRanges (rs : List CodeRange) :
    (ofRanges rs).toRanges = CodeRange.normalize rs := by simp [toRanges, ofRanges]

@[simp] theorem mem_ofRanges {rs : List CodeRange} {code : Code} :
    code ∈ ofRanges rs ↔ Covers rs code := by
  rw [mem_def, toRanges_ofRanges, CodeRange.covers_normalize]

@[simp] theorem mem_ofCodes {codes : List Code} {code : Code} :
    code ∈ ofCodes codes ↔ code ∈ codes := by
  have single : ∀ c : Code, code ∈ CodeRange.single c ↔ c = code := fun c => by
    simp only [CodeRange.mem_iff_toNat, CodeRange.single, ← UInt32.toNat_inj]
    omega
  rw [ofCodes, mem_ofRanges]
  simp only [Covers, List.mem_map]
  constructor
  · rintro ⟨_, ⟨c, hc, rfl⟩, h⟩
    exact (single c).1 h ▸ hc
  · exact fun h => ⟨_, ⟨code, h, rfl⟩, (single code).2 rfl⟩

@[simp] theorem not_mem_empty (code : Code) : code ∉ empty := by simp [mem_def, toRanges, empty]

@[simp] theorem mem_unions {sets : List CodeSet} {code : Code} :
    code ∈ unions sets ↔ ∃ s ∈ sets, code ∈ s := by
  rw [unions, mem_ofRanges]
  simp only [Covers, List.mem_flatMap, mem_def]
  constructor
  · rintro ⟨r, ⟨s, hs, hr⟩, h⟩; exact ⟨s, hs, r, hr, h⟩
  · rintro ⟨s, hs, r, hr, h⟩; exact ⟨r, ⟨s, hs, hr⟩, h⟩

@[simp] theorem mem_difference {s t : CodeSet} {code : Code} :
    code ∈ s.difference t ↔ code ∈ s ∧ code ∉ t := by
  simp only [mem_def, toRanges, difference]
  exact CodeRange.covers_subtract s.canonical t.canonical code

/-! ## Looking a code up -/

/-- Halving needs ranges that ascend, but no gaps between them. -/
private theorem search_eq_true_iff {rs : Array CodeRange} {code : Code} {low high : Nat}
    (hinhabited : ∀ r ∈ rs.toList, r.Inhabited)
    (hapart : rs.toList.Pairwise fun a b => a.last.toNat < b.first.toNat) (hhigh : high ≤ rs.size) :
    search rs code low high hhigh = true ↔
      ∃ (i : Nat) (hi : i < rs.size), low ≤ i ∧ i < high ∧ code ∈ rs[i] := by
  have inhabited : ∀ (i : Nat) (hi : i < rs.size), rs[i].first.toNat ≤ rs[i].last.toNat :=
    fun i hi => (hinhabited rs[i] (by simp)).toNat_le
  have apart : ∀ (i j : Nat) (hi : i < rs.size) (hj : j < rs.size), i < j →
      rs[i].last.toNat < rs[j].first.toNat := by
    intro i j hi hj hij
    have := List.pairwise_iff_getElem.1 hapart i j (by simpa using hi) (by simpa using hj) hij
    simpa using this
  fun_induction search rs code low high hhigh with
  | case1 low high hhigh hlt middle hfirst ih =>
    refine Iff.trans ih ?_
    rw [UInt32.lt_iff_toNat_lt] at hfirst
    refine exists_congr fun i => exists_congr fun hi => and_congr_right fun hlow => ?_
    refine ⟨fun ⟨h₁, h₂⟩ => ⟨by omega, h₂⟩, fun ⟨h₁, h₂⟩ => ⟨?_, h₂⟩⟩
    rw [CodeRange.mem_iff_toNat] at h₂
    refine Nat.lt_of_not_le fun hle => ?_
    rcases Nat.eq_or_lt_of_le hle with rfl | hlt
    · omega
    · have := apart middle i (by omega) hi hlt
      have := inhabited middle (by omega)
      omega
  | case2 low high hhigh hlt middle hfirst hlast ih =>
    refine Iff.trans ih ?_
    rw [UInt32.lt_iff_toNat_lt] at hlast
    refine exists_congr fun i => exists_congr fun hi => ?_
    refine ⟨fun ⟨h₀, h₁, h₂⟩ => ⟨by omega, h₁, h₂⟩, fun ⟨h₀, h₁, h₂⟩ => ⟨?_, h₁, h₂⟩⟩
    rw [CodeRange.mem_iff_toNat] at h₂
    refine Nat.lt_of_not_le fun hle => ?_
    rcases Nat.eq_or_lt_of_le hle with rfl | hlt
    · omega
    · have := apart i middle hi (by omega) hlt
      have := inhabited middle (by omega)
      omega
  | case3 low high hhigh hlt middle hfirst hlast =>
    rw [UInt32.lt_iff_toNat_lt] at hfirst hlast
    simp only [true_iff]
    exact ⟨middle, by omega, by omega, by omega, CodeRange.mem_iff_toNat.2 (by omega)⟩
  | case4 low high hhigh hlt =>
    simp only [Bool.false_eq_true, false_iff]
    rintro ⟨i, -, h₀, h₁, -⟩
    omega

/-- Halving a list of ascending ranges finds exactly the codes that it covers. -/
theorem search_eq_true_iff_covers {rs : Array CodeRange} {code : Code}
    (hinhabited : ∀ r ∈ rs.toList, r.Inhabited)
    (hapart : rs.toList.Pairwise fun a b => a.last.toNat < b.first.toNat) :
    search rs code 0 rs.size (Nat.le_refl _) = true ↔ Covers rs.toList code := by
  rw [search_eq_true_iff hinhabited hapart, Covers]
  constructor
  · rintro ⟨i, hi, -, -, h⟩
    exact ⟨rs[i], by simp, h⟩
  · rintro ⟨r, hr, h⟩
    obtain ⟨i, hi, rfl⟩ := List.getElem_of_mem hr
    simp only [Array.length_toList] at hi
    exact ⟨i, hi, by omega, hi, by simpa using h⟩

/-- Halving the list of ranges finds exactly the codes of the set. -/
theorem contains_eq_true_iff {s : CodeSet} {code : Code} : s.contains code = true ↔ code ∈ s :=
  search_eq_true_iff_covers s.canonical.inhabited (s.canonical.apart.imp Nat.lt_of_succ_lt)

instance (s : CodeSet) (code : Code) : Decidable (code ∈ s) :=
  decidable_of_iff _ contains_eq_true_iff

end CodeSet

end UcdTables
