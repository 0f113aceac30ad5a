import UcdTables.Proofs.Table.Encoding
import UcdTables.Proofs.Table.Statistics
import UcdTables.Proofs.Table.Text

/-!
# Statistics agree with the tables

The statistics of the tables of a map say of each property how many ranges and how many codes it
has. These are the number of rows in the text of its table and the number of codes in the map, and
the properties of a kind are as many in the statistics as in the map.

* `RangeTable.shows_array`: the number of ranges, in the text of a table.
* `statisticsAgree_ofTables`: the statistics, the text and the map.
-/

namespace UcdTables

/-! ## Ranges in the text -/

namespace RangeTable

variable {t : RangeTable}

/-- A line that begins as a row does. -/
def startsRow (l : List Char) : Bool := "\t0x".toList.isPrefixOf l

theorem fields_array (h : '\n' ∉ t.name.toList) :
    Text.fields '\n' t.array.toList = t.lines ++ [[]] := by
  rw [toList_array, Text.fields_flatMap (not_mem_lines h)]

theorem startsRow_of_head? {l : List Char} (h : l.head? ≠ some '\t') : startsRow l = false := by
  cases l with
  | nil => rfl
  | cons c l =>
    have hc : '\t' ≠ c := by
      rintro rfl
      exact h rfl
    simp [startsRow, List.isPrefixOf, hc]

theorem startsRow_line (r : CodeRange) : startsRow r.line = true := by
  simp [startsRow, CodeRange.line, Code.toList_literal]

/-- The line with the number of ranges is no row: it has no character but digits. -/
theorem startsRow_count (t : RangeTable) : startsRow t.count.toList = false := by
  have hx : 'x' ∉ t.count.toList := by
    have hdigits : 'x' ∉ Nat.toDigits 10 t.ranges.length := fun hmem =>
      absurd (Nat.isDigit_of_mem_toDigits (by decide) (by decide) hmem) (by decide)
    simpa [count] using hdigits
  rw [startsRow, Bool.eq_false_iff]
  intro hprefix
  exact hx ((List.isPrefixOf_iff_prefix.1 hprefix).subset (by simp))

theorem countP_startsRow (t : RangeTable) : t.lines.countP startsRow = t.ranges.length := by
  have hrows : (t.ranges.map CodeRange.line).countP startsRow = t.ranges.length := by
    simp [List.countP_map, Function.comp_def, startsRow_line]
  have hcomment : startsRow t.comment.toList = false :=
    startsRow_of_head? (by simp [comment])
  have hopening : startsRow t.opening.toList = false :=
    startsRow_of_head? (by simp [toList_opening])
  have hclosing : startsRow t.closing.toList = false :=
    startsRow_of_head? (by simp [closing])
  have hnil : startsRow [] = false := rfl
  simp [lines, hrows, hcomment, hopening, hclosing, hnil, startsRow_count]

/-- What the array of a table shows of the number of its ranges. -/
structure Shows (t : RangeTable) (count : Nat) : Prop where
  /-- The array has a line with the number, and after it that many rows. -/
  array : ∃ rs : List CodeRange, rs.length = count ∧
    t.array = "\n" ++ t.comment ++ "\n" ++ t.opening ++ "\n" ++
      "\t" ++ toString count ++ ",\n" ++ String.join (rs.map CodeRange.row) ++
      t.closing ++ "\n"
  /-- If the name has no line feed, these are the fourth line and all lines that begin as a row
  does. -/
  lines : '\n' ∉ t.name.toList →
    (Text.fields '\n' t.array.toList)[3]? = some ("\t" ++ toString count ++ ",").toList ∧
      (Text.fields '\n' t.array.toList).countP startsRow = count

theorem shows_array (t : RangeTable) : t.Shows t.ranges.length := by
  refine Shows.mk ⟨t.ranges, rfl, ?_⟩ fun hname => ?_
  · unfold RangeTable.array opening
    rw [← String.toList_inj]
    simp [CodeRange.rows, comment, closing]
  · rw [fields_array hname, List.countP_append, countP_startsRow]
    exact ⟨rfl, rfl⟩

theorem arrays_append_cons (ts : List RangeTable) (t : RangeTable) (us : List RangeTable) :
    arrays (ts ++ t :: us) = arrays ts ++ t.array ++ arrays us := by
  simp [arrays, String.append_assoc]

end RangeTable

/-! ## The statistics of tables -/

namespace Statistics

variable {ts : List RangeTable} {label name : String}

/-- The call that counts a table. -/
def Call.ofTable (t : RangeTable) : Call := .add t.kind.label t.name (describe t)

theorem ofTables_eq_run (ts : List RangeTable) : ofTables ts = run (ts.map Call.ofTable) := by
  rw [run, List.foldl_map]
  rfl

theorem given_ofTables (ts : List RangeTable) (label : String) :
    given (ts.map Call.ofTable) label =
      (ts.filter (·.kind.label = label)).map fun t => (t.name, describe t) := by
  induction ts with
  | nil => rfl
  | cons t ts ih =>
    by_cases h : t.kind.label = label
    · simp_all [given, Call.ofTable, Call.entry?]
    · simp_all [given, Call.ofTable, Call.entry?]

theorem mem_given_ofTables {t : RangeTable} (ht : t ∈ ts) :
    (t.name, describe t) ∈ given (ts.map Call.ofTable) t.kind.label := by
  rw [given_ofTables]
  exact List.mem_map_of_mem (List.mem_filter.2 ⟨ht, by simp⟩)

theorem countP_counts_ofTables (ts : List RangeTable) :
    (ts.map Call.ofTable).countP Call.counts = ts.length := by
  rw [List.countP_map, List.countP_eq_length]
  exact fun _ _ => rfl

/-- Tables of different names have different names in each block. -/
theorem nodup_given_ofTables (hdistinct : (ts.map (·.name)).Nodup) (label : String) :
    ((given (ts.map Call.ofTable) label).map (·.1)).Nodup := by
  have hnames : (given (ts.map Call.ofTable) label).map (·.1) =
      (ts.filter (·.kind.label = label)).map (·.name) := by
    rw [given_ofTables, List.map_map]
    rfl
  rw [hnames]
  exact hdistinct.sublist (List.filter_sublist.map _)

end Statistics

namespace PropertyMap

variable {m : PropertyMap} {ts : List RangeTable}

/-- The tables under the label of a kind are as many as the sets of the kind. -/
theorem length_setsOfKind (h : m.rangeTables = .ok ts) (kind : PropertyKind) :
    (m.setsOfKind kind).length = (ts.filter (·.kind.label = kind.label)).length := by
  have hlabel : ∀ p : Property, (p.kind = kind) ↔ p.kind.label = kind.label := fun p =>
    ⟨congrArg _, PropertyKind.label_injective⟩
  rw [(rangeTables_eq_ok h).1, setsOfKind, List.filter_map, List.length_map, List.length_map]
  simp only [hlabel]
  rfl

theorem nodup_names_rangeTables (h : m.rangeTables = .ok ts) : (ts.map (·.name)).Nodup := by
  rw [List.Nodup, List.pairwise_map]
  exact (pairwise_rangeTables h).imp Std.ne_of_lt

/-- Statistics agree with a map and with its tables. -/
structure StatisticsAgree (m : PropertyMap) (ts : List RangeTable) (s : Statistics) : Prop where
  /-- There is a block for each kind of property in the map, and no other. -/
  blocks : ∀ label, (∃ b ∈ s.blocks, b.label = label) ↔
    ∃ name p, m.find? name = some p ∧ p.kind.label = label
  /-- It counts the properties of the kind, and has one entry for each. -/
  counts : ∀ b ∈ s.blocks, ∀ kind : PropertyKind, kind.label = b.label →
    b.count = (m.setsOfKind kind).length ∧ b.entries.size = (m.setsOfKind kind).length
  /-- Each property has one table in the text, which encodes it, and its entry gives the number of
  rows that the text shows and the number of codes of the property. -/
  entries : ∀ name p, m.find? name = some p → ∃ before t after, ts = before ++ t :: after ∧
    t.Encodes name p ∧ t.Shows t.ranges.length ∧
    RangeTable.arrays ts = RangeTable.arrays before ++ t.array ++ RangeTable.arrays after ∧
    ∃ b ∈ s.blocks, b.label = p.kind.label ∧ b.entries.find? name =
      some (toString t.ranges.length ++ " ranges, " ++
        toString p.codes.codes.length ++ " codepoints")
  /-- The blocks are numbered from 1 on in the order in which the kinds appear by name. -/
  orders : s.blocks.map (·.order) = List.range' 1 s.blocks.length ∧
    s.blocks.map (·.label) = (m.entries.map (·.2.kind.label)).eraseDups
  /-- All blocks together count the tables, which are as many as the names of the map. -/
  total : s.total = ts.length ∧ s.total = m.size

/-- The statistics of the tables of a map agree with the map and with the text of the tables. -/
theorem statisticsAgree_ofTables (h : m.rangeTables = .ok ts) :
    StatisticsAgree m ts (.ofTables ts) := by
  obtain ⟨htables, hinhabited⟩ := rangeTables_eq_ok h
  have hdistinct := nodup_names_rangeTables h
  have hrecords := Statistics.records_run (ts.map .ofTable)
  rw [← Statistics.ofTables_eq_run] at hrecords
  have hlabels : (ts.map Statistics.Call.ofTable).map (·.label) = m.entries.map (·.2.kind.label) := by
    rw [htables, List.map_map, List.map_map]
    rfl
  have hblock : ∀ label, (∃ b ∈ (Statistics.ofTables ts).blocks, b.label = label) ↔
      ∃ name p, m.find? name = some p ∧ p.kind.label = label := by
    intro label
    have hmem : label ∈ (Statistics.ofTables ts).blocks.map (·.label) ↔
        label ∈ m.entries.map (·.2.kind.label) := by
      rw [hrecords.mem_labels_iff, hlabels]
    simpa [NameMap.find?_eq_some_iff] using hmem
  refine StatisticsAgree.mk hblock ?counts ?entries ⟨hrecords.orders, ?labels⟩ ?total
  case counts =>
    intro b hb kind hkind
    have hcount : b.count = (m.setsOfKind kind).length := by
      rw [hrecords.count b hb, Statistics.given_ofTables, List.length_map, ← hkind,
        length_setsOfKind h]
    have hentries := (hrecords.size_entries hb).2.2 (Statistics.nodup_given_ofTables hdistinct _)
    exact ⟨hcount, hentries.trans hcount⟩
  case entries =>
    intro name p hp
    have hentry : (name, p) ∈ m.entries := NameMap.find?_eq_some_iff.1 hp
    obtain ⟨code, hcode⟩ := hinhabited _ hentry
    have ht : (⟨name, p.kind, p.codes.toRanges⟩ : RangeTable) ∈ ts := by
      rw [htables]
      exact List.mem_map.2 ⟨_, hentry, rfl⟩
    obtain ⟨before, after, hsplit⟩ := List.append_of_mem ht
    obtain ⟨b, hb, hlabel⟩ := (hblock p.kind.label).2 ⟨name, p, hp, rfl⟩
    refine ⟨before, _, after, hsplit, RangeTable.encodes_of_mem name hcode,
      RangeTable.shows_array _, by rw [hsplit, RangeTable.arrays_append_cons], b, hb, hlabel, ?_⟩
    have hgiven := Statistics.mem_given_ofTables ht
    rw [← hlabel] at hgiven
    rw [hrecords.entries b hb,
      Statistics.lastGiven_eq_some (Statistics.nodup_given_ofTables hdistinct _) hgiven,
      p.codes.length_codes]
    rfl
  case labels => rw [hrecords.labels, hlabels]
  case total =>
    have hlength : ts.length = m.size := by
      rw [htables, List.length_map, NameMap.size]
    have htotal : (Statistics.ofTables ts).total = ts.length := by
      rw [hrecords.total, Statistics.countP_counts_ofTables]
    exact ⟨htotal, htotal.trans hlength⟩

/-- A major category of two ranges comes first by name, and so its kind has the first block. -/
theorem statisticsAgree_ofTables_letters :
    let letters : Property := ⟨.majorCategory, ⟨#[⟨0x41, 0x42⟩, .single 0x61], by decide⟩⟩
    let lower : Property := ⟨.generalCategory, ⟨#[.single 0x61], by decide⟩⟩
    let upper : Property := ⟨.generalCategory, ⟨#[⟨0x41, 0x42⟩], by decide⟩⟩
    let m : PropertyMap :=
      ((NameMap.empty.insert "Lu" upper).insert "L" letters).insert "Ll" lower
    let ts : List RangeTable := [⟨"L", .majorCategory, [⟨0x41, 0x42⟩, .single 0x61]⟩,
      ⟨"Ll", .generalCategory, [.single 0x61]⟩, ⟨"Lu", .generalCategory, [⟨0x41, 0x42⟩]⟩]
    m.rangeTables = .ok ts ∧ StatisticsAgree m ts (.ofTables ts) ∧
      (Statistics.ofTables ts).blocks.map (fun b => (b.order, b.label, b.count)) =
        [(1, "Major Category", 1), (2, "General Category", 2)] := by
  intro letters lower upper m ts
  have hts : m.rangeTables = .ok ts := by decide +kernel
  exact ⟨hts, statisticsAgree_ofTables hts, by decide +kernel⟩

end PropertyMap

end UcdTables
