import UcdTables.Proofs.Code.Ascending
import UcdTables.Proofs.Database.Entry
import UcdTables.Proofs.Database.Tiling

/-!
# The category of a code

A code has the category of the entry of the database that it lies in, and is unassigned if it lies
in none. The definition mentions neither the order in which the records are read nor the filling of
gaps.

* `hasCategory_iff`: it is the category of the tile that the code lies in.
* `HasCategory.unique`: a code has one category.
-/

namespace UcdTables

/-- The category that the records of the database give to a code of the code space: that of the
entry that the code lies in, or `unassigned` where it lies in none. -/
def HasCategory (rs : List CharacterRecord) (code : Code) (g : Category) : Prop :=
  code ≤ lastCode ∧
    ((∃ e : CharacterEntry, e.StandsIn rs ∧ code ∈ e.range ∧ e.category = g) ∨
      (g = .unassigned ∧ ∀ e : CharacterEntry, e.StandsIn rs → code ∉ e.range))

theorem exists_hasCategory (rs : List CharacterRecord) {code : Code} (h : code ≤ lastCode) :
    ∃ g, HasCategory rs code g := by
  by_cases hcovered : ∃ e : CharacterEntry, e.StandsIn rs ∧ code ∈ e.range
  · obtain ⟨e, he, hcode⟩ := hcovered
    exact ⟨e.category, h, .inl ⟨e, he, hcode, rfl⟩⟩
  · exact ⟨.unassigned, h, .inr ⟨rfl, fun e he hcode => hcovered ⟨e, he, hcode⟩⟩⟩

variable {rs : List CharacterRecord} {as : List Assignment}

/-- A category that a code has is that of a record, unless it is `unassigned`. -/
theorem HasCategory.exists_record {code : Code} {g : Category} (h : HasCategory rs code g) :
    g = .unassigned ∨ ∃ r ∈ rs, r.category = g := by
  obtain ⟨-, ⟨e, ⟨-, hrecords⟩, -, rfl⟩ | ⟨rfl, -⟩⟩ := h
  · right
    cases e with
    | single r => exact ⟨r, hrecords.subset (by simp [CharacterEntry.records]), rfl⟩
    | block first last => exact ⟨last, hrecords.subset (by simp [CharacterEntry.records]), rfl⟩
  · exact .inl rfl

/-- No code lies in two entries of the records. -/
theorem CharacterEntry.StandsIn.unique (h : Assignment.ofRecords rs = .ok as)
    {e e' : CharacterEntry} (he : e.StandsIn rs) (he' : e'.StandsIn rs) {code : Code}
    (hcode : code ∈ e.range) (hcode' : code ∈ e'.range) : e = e' := by
  obtain ⟨es, rfl, hes, hascending, -⟩ := Assignment.exists_entries h
  rw [standsIn_iff_mem hes] at he he'
  exact unique_of_mem_range hascending he he' hcode hcode'

/-- A code has one category. -/
theorem HasCategory.unique (h : Assignment.ofRecords rs = .ok as) {code : Code} {g g' : Category}
    (hg : HasCategory rs code g) (hg' : HasCategory rs code g') : g = g' := by
  obtain ⟨-, ⟨e, he, hcode, rfl⟩ | ⟨rfl, hnone⟩⟩ := hg
  · obtain ⟨-, ⟨e', he', hcode', rfl⟩ | ⟨rfl, hnone⟩⟩ := hg'
    · rw [he.unique h he' hcode hcode']
    · exact absurd hcode (hnone e he)
  · obtain ⟨-, ⟨e', he', hcode', rfl⟩ | ⟨rfl, -⟩⟩ := hg'
    · exact absurd hcode' (hnone e' he')
    · rfl

/-- The code of a record has the category of the record. -/
theorem hasCategory_of_mem (h : Assignment.ofRecords rs = .ok as) {r : CharacterRecord}
    (hr : r ∈ rs) : HasCategory rs r.code r.category := by
  obtain ⟨es, rfl, hes, hascending, -⟩ := Assignment.exists_entries h
  obtain ⟨e, he, hr⟩ := List.mem_flatMap.1 hr
  have hinhabited := CharacterEntry.inhabited_of_ascending hascending e he
  refine ⟨r.code.property, .inl ⟨e, (CharacterEntry.standsIn_iff_mem hes).2 he, ?_⟩⟩
  cases e with
  | single r' =>
    obtain rfl : r = r' := by simpa [CharacterEntry.records] using hr
    exact ⟨CodeRange.first_mem hinhabited, rfl⟩
  | block first last =>
    obtain ⟨-, -, hcategory⟩ := hes _ he
    obtain rfl | rfl : r = first ∨ r = last := by simpa [CharacterEntry.records] using hr
    · exact ⟨CodeRange.first_mem hinhabited, hcategory.symm⟩
    · exact ⟨CodeRange.last_mem hinhabited, rfl⟩

namespace Assignment

private theorem ascendFrom_ofRecords (h : ofRecords rs = .ok as) :
    AscendFrom (0 : Code).toNat as := by
  obtain ⟨es, rfl, -, hascending, rfl⟩ := exists_entries h
  have hinhabited := CharacterEntry.inhabited_of_ascending hascending
  apply ascendFrom_of_pairwise (Nat.zero_le _) (fun _ _ => Nat.zero_le _)
  · intro a ha
    obtain ⟨e, he, rfl⟩ := List.mem_map.1 ha
    exact hinhabited e he
  · intro a ha
    obtain ⟨e, -, rfl⟩ := List.mem_map.1 ha
    exact e.last_le_lastCode
  · exact List.pairwise_map.2 (CharacterEntry.pairwise_of_ascending hascending)

/-- With the gaps filled, the categories of a database tile the code space. -/
theorem tiles_ofRecords (h : ofRecords rs = .ok as) :
    CodeRange.Tiles 0 ((fillGaps 0 as).map (·.range)) :=
  tiles_fillGaps (ascendFrom_ofRecords h)

end Assignment

/-- The category of a code is that of the tile that the code lies in. -/
theorem hasCategory_iff (h : Assignment.ofRecords rs = .ok as) {code : Code} {g : Category} :
    HasCategory rs code g ↔
      ∃ a ∈ Assignment.fillGaps 0 as, code ∈ a.range ∧ a.category = g := by
  have hascend := Assignment.ascendFrom_ofRecords h
  rw [Assignment.exists_mem_fillGaps hascend]
  obtain ⟨es, rfl, hes, -, rfl⟩ := Assignment.exists_entries h
  have hmap : (∃ a ∈ es.map CharacterEntry.assignment, code ∈ a.range ∧ a.category = g) ↔
      ∃ e ∈ es, code ∈ e.range ∧ e.category = g := by
    constructor
    · intro hleft
      obtain ⟨_, ha, hcode⟩ := hleft
      obtain ⟨e, he, rfl⟩ := List.mem_map.1 ha
      exact ⟨e, he, hcode⟩
    · intro hright
      obtain ⟨e, he, hcode⟩ := hright
      exact ⟨_, List.mem_map_of_mem he, hcode⟩
  rw [hmap, HasCategory]
  simp [CharacterEntry.standsIn_iff_mem hes, CharacterEntry.assignment]

end UcdTables
