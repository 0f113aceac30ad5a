import UcdTables.Proofs.Code.Size
import UcdTables.Proofs.Table.Ranges

/-!
# Tables encode the map

A map in which every name holds a code has a table for each of its properties, in ascending order of
names, and a table gives the property back: its name, its kind and its codes. So the tables
determine the map. In any other map the least of the names that hold no code is at fault.

* `RangeTable.encodes_of_mem`: what one table says of its property.
* `rangeTables_inj`: two maps with the same tables are equal.
* `rangeTables_encode`: what becomes of any map.
-/

namespace UcdTables

theorem CodeSet.toRanges_inj {s t : CodeSet} (h : s.toRanges = t.toRanges) : s = t :=
  CodeSet.ext fun code => by rw [mem_def, h, mem_def]

/-- A table says all that there is to say of a property. -/
structure RangeTable.Encodes (t : RangeTable) (name : String) (p : Property) : Prop where
  name : t.name = name
  kind : t.kind = p.kind
  /-- Its ranges are the runs of the codes. -/
  runs : CodeRange.runs? p.codes.codes = some t.ranges
  /-- Written out, its ranges are the codes. -/
  codes : t.ranges.flatMap CodeRange.codes = p.codes.codes
  /-- Its size is the number of the codes. -/
  size : t.size = p.codes.codes.length
  /-- If they are fewer than there are words, they can be counted in words. -/
  words : p.codes.codes.length < UInt32.size →
    CodeRange.sizesInWords? t.ranges = some p.codes.codes.length

theorem RangeTable.encodes_of_mem {p : Property} {code : Code} (name : String) (h : code ∈ p) :
    Encodes ⟨name, p.kind, p.codes.toRanges⟩ name p := by
  have hruns : CodeRange.runs? p.codes.codes = some p.codes.toRanges := by
    rw [CodeSet.runs?_codes, CodeSet.isEmpty_eq_false_iff.2 ⟨code, h⟩]
    rfl
  refine Encodes.mk rfl rfl hruns rfl p.codes.length_codes.symm fun hlt => ?_
  rw [p.codes.length_codes] at hlt ⊢
  exact CodeRange.sizesInWords?_eq_some p.codes.canonical.inhabited hlt

namespace PropertyMap

variable {m n : PropertyMap} {ts : List RangeTable} {e : BuildError}

/-- The tables are those of the entries, one by one. -/
theorem forall₂_encodes (h : m.rangeTables = .ok ts) :
    List.Forall₂ (fun entry t => t.Encodes entry.1 entry.2) m.entries ts := by
  obtain ⟨rfl, hinhabited⟩ := rangeTables_eq_ok h
  rw [List.forall₂_map_right_iff, List.forall₂_same]
  intro entry hentry
  obtain ⟨code, hcode⟩ := hinhabited entry hentry
  exact RangeTable.encodes_of_mem entry.1 hcode

/-- Two maps with the same tables are equal. -/
theorem rangeTables_inj (h : m.rangeTables = .ok ts) (h' : n.rangeTables = .ok ts) : m = n := by
  have htables := (rangeTables_eq_ok h).1.symm.trans (rangeTables_eq_ok h').1
  have hentries : m.entries = n.entries := by
    refine List.map_injective_iff.2 ?_ htables
    rintro ⟨name, kind, codes⟩ ⟨name', kind', codes'⟩ hsame
    simp only [RangeTable.mk.injEq] at hsame
    obtain ⟨rfl, rfl, hranges⟩ := hsame
    rw [CodeSet.toRanges_inj hranges]
  apply NameMap.ext
  intro name
  rw [NameMap.find?, hentries, NameMap.find?]

/-- There are no tables if and only if a name holds no code, and the least such name is at fault. -/
theorem rangeTables_eq_error_iff : m.rangeTables = .error e ↔
    ∃ name, e = .emptyProperty name ∧ m.EmptyAt name ∧
      ∀ other, m.EmptyAt other → name ≤ other := by
  refine ⟨rangeTables_eq_error_least, ?_⟩
  rintro ⟨name, rfl, hempty, hleast⟩
  cases h : m.rangeTables with
  | ok ts => exact absurd hempty (exists_rangeTables_iff.1 ⟨ts, h⟩ name)
  | error e =>
    obtain ⟨name', rfl, hempty', hleast'⟩ := rangeTables_eq_error_least h
    rw [String.le_antisymm (hleast name' hempty') (hleast' name hempty)]

/-- What becomes of a map of which tables are asked for. -/
structure Encoding (m : PropertyMap) (outcome : Except BuildError (List RangeTable)) : Prop where
  /-- Each entry of the map is given the runs of its codes; if it has none, its name is at fault. -/
  runs : outcome = m.entries.mapM fun (name, p) =>
    match CodeRange.runs? p.codes.codes with
    | none => .error (.emptyProperty name)
    | some rs => .ok ⟨name, p.kind, rs⟩
  /-- There are tables if every name holds a code, and only then. -/
  succeeds : (∃ ts, outcome = .ok ts) ↔ ∀ name p, m.find? name = some p → ∃ code, code ∈ p
  /-- The tables stand in ascending order of names. -/
  ascending : ∀ ts, outcome = .ok ts → ts.Pairwise fun t t' => t.name < t'.name
  /-- There is one table for each entry of the map, and it encodes the property of the entry. -/
  entries : ∀ ts, outcome = .ok ts →
    List.Forall₂ (fun entry t => t.Encodes entry.1 entry.2) m.entries ts
  /-- Otherwise the least name that holds no code is at fault. -/
  least : ∀ e, outcome = .error e ↔ ∃ name, e = .emptyProperty name ∧ m.EmptyAt name ∧
    ∀ other, m.EmptyAt other → name ≤ other
  /-- No other map has these tables. -/
  faithful : ∀ ts n, outcome = .ok ts → n.rangeTables = .ok ts → n = m

/-- The tables of a map encode its properties one by one, if none of them is empty. -/
theorem rangeTables_encode (m : PropertyMap) : Encoding m m.rangeTables := by
  refine Encoding.mk ?runs ?succeeds (fun _ => pairwise_rangeTables) (fun _ => forall₂_encodes)
    (fun _ => rangeTables_eq_error_iff) (fun _ _ h h' => rangeTables_inj h' h)
  case runs =>
    unfold rangeTables
    congr 1
    funext entry
    exact RangeTable.ofProperty_eq_runs entry.1 entry.2
  case succeeds =>
    rw [exists_rangeTables_iff]
    refine forall_congr' fun name => ?_
    simp only [EmptyAt, not_exists, not_and, not_forall, not_not]

end PropertyMap

end UcdTables
