import UcdTables.Proofs.Text.Hex
import UcdTables.Table.Text
import UcdTables.Text.Fields

/-!
# The text of the tables loses nothing

Different lists of tables have different texts, whatever is in the names of the tables, as long as
they have no line feed. The text falls into lines, and the lines of an array are told apart by how
they begin: the second line gives the name, the first the kind once the name is known, and each row
begins with a tabulator, which the last line does not.

* `RangeTable.toList_arrays`: the lines of the text.
* `RangeTable.lines_append_inj`: an array can be told from what follows it.
* `RangeTable.arrays_inj`: the text gives the list.
-/

namespace UcdTables

/-! ## Rows -/

namespace Code

variable {code code' : Code}

theorem toList_literal (code : Code) :
    code.literal.toList = '0' :: 'x' :: Text.hexWord .lower code.toNat := by
  simp [literal]

theorem literal_inj : code.literal = code'.literal ↔ code = code' := by
  rw [← String.toList_inj, toList_literal, toList_literal]
  simp [Text.hexWord_inj]

theorem not_mem_literal {c : Char} (h : Text.hexDigit? c = none) (hx : c ≠ 'x') :
    c ∉ code.literal.toList := by
  have h0 : c ≠ '0' := by
    rintro rfl
    cases h
  simp [toList_literal, h0, hx, Text.not_mem_hexWord h]

end Code

namespace CodeRange

variable {r r' : CodeRange}

/-- The row of a range, without its line feed. -/
def line (r : CodeRange) : List Char :=
  '\t' :: r.first.literal.toList ++ ',' :: ' ' :: r.last.literal.toList ++ [',']

theorem toList_row (r : CodeRange) : r.row.toList = r.line ++ ['\n'] := by
  simp [row, line]

theorem not_mem_line (r : CodeRange) : '\n' ∉ r.line := by
  simp [line, Code.not_mem_literal (c := '\n') rfl (by decide)]

theorem line_inj : r.line = r'.line ↔ r = r' := by
  have hcomma : ∀ code : Code, ',' ∉ code.literal.toList := fun code =>
    Code.not_mem_literal rfl (by decide)
  have hnext : ∀ code : Code, ',' ∉ ' ' :: code.literal.toList := by
    intro code
    simp [hcomma code]
  have hshape : ∀ r : CodeRange, r.line =
      '\t' :: (r.first.literal.toList ++ ',' :: ((' ' :: r.last.literal.toList) ++ [','])) := by
    intro r
    simp [line]
  constructor
  · intro h
    rw [hshape, hshape, List.cons_inj_right, Text.append_sep_inj (hcomma _) (hcomma _),
      List.append_left_inj, List.cons_inj_right, String.toList_inj, String.toList_inj,
      Code.literal_inj, Code.literal_inj] at h
    cases r
    cases r'
    simp_all
  · rintro rfl
    rfl

/-- Rows can be told from a line that does not begin with a tabulator, and from what follows it. -/
theorem map_line_append_inj {rs rs' : List CodeRange} {l l' : List Char}
    {rest rest' : List (List Char)} (hl : l.head? ≠ some '\t') (hl' : l'.head? ≠ some '\t')
    (h : rs.map line ++ l :: rest = rs'.map line ++ l' :: rest') :
    rs = rs' ∧ l = l' ∧ rest = rest' := by
  have htab : ∀ r : CodeRange, r.line.head? = some '\t' := fun _ => rfl
  induction rs generalizing rs' with
  | nil =>
    cases rs' with
    | nil => exact ⟨rfl, List.cons_eq_cons.1 h⟩
    | cons r' rs' =>
      obtain ⟨rfl, -⟩ := List.cons_eq_cons.1 h
      exact absurd (htab r') hl
  | cons r rs ih =>
    cases rs' with
    | nil =>
      obtain ⟨rfl, -⟩ := List.cons_eq_cons.1 h
      exact absurd (htab r) hl'
    | cons r' rs' =>
      obtain ⟨hline, hrest⟩ := List.cons_eq_cons.1 h
      obtain rfl := line_inj.1 hline
      obtain ⟨rfl, hend⟩ := ih hrest
      exact ⟨rfl, hend⟩

end CodeRange

namespace RangeTable

variable {t t' : RangeTable} {ts ts' : List RangeTable}

/-- The comment over an array. -/
def comment (t : RangeTable) : String := "/* '" ++ t.name ++ "': " ++ t.kind.label ++ " */"

/-- The line that begins an array. -/
def opening (t : RangeTable) : String := "static const OnigCodePoint CR_" ++ t.name ++ "[] = \x7b"

/-- The number of ranges, as it stands in an array. -/
def count (t : RangeTable) : String := "\t" ++ toString t.ranges.length ++ ","

/-- The line that ends an array. -/
def closing (t : RangeTable) : String := "\x7d; /* CR_" ++ t.name ++ " */"

/-- The lines of the text of a table, the first of which is empty. -/
def lines (t : RangeTable) : List (List Char) :=
  [] :: t.comment.toList :: t.opening.toList :: t.count.toList ::
    (t.ranges.map CodeRange.line ++ [t.closing.toList])

-- `array` and `opening` are unfolded first: `simp` would evaluate their long literals.

theorem toList_opening (t : RangeTable) :
    t.opening.toList =
      "static const OnigCodePoint CR_".toList ++ t.name.toList ++ "[] = \x7b".toList := by
  unfold opening
  rw [String.toList_append, String.toList_append]

theorem toList_array (t : RangeTable) : t.array.toList = t.lines.flatMap (· ++ ['\n']) := by
  unfold array
  simp [lines, comment, toList_opening, count, closing, CodeRange.rows, CodeRange.toList_row,
    List.flatMap_map]

theorem toList_arrays (ts : List RangeTable) :
    (arrays ts).toList = (ts.flatMap lines).flatMap (· ++ ['\n']) := by
  rw [arrays, String.toList_join, List.flatMap_map, List.flatMap_assoc]
  simp only [toList_array]

theorem not_mem_lines (h : '\n' ∉ t.name.toList) : ∀ l ∈ t.lines, '\n' ∉ l := by
  have hlabel : '\n' ∉ t.kind.label.toList := by
    cases t.kind <;> decide
  have hcount : '\n' ∉ t.count.toList := by
    have hdigits : '\n' ∉ Nat.toDigits 10 t.ranges.length := fun hmem =>
      absurd (Nat.isDigit_of_mem_toDigits (by decide) (by decide) hmem) (by decide)
    simpa [count] using hdigits
  have hcomment : '\n' ∉ t.comment.toList := by simp [comment, h, hlabel]
  have hopening : '\n' ∉ t.opening.toList := by simp [toList_opening, h]
  have hclosing : '\n' ∉ t.closing.toList := by simp [closing, h]
  intro l hl
  simp only [lines, List.mem_cons, List.mem_append, List.mem_map, List.not_mem_nil, or_false] at hl
  rcases hl with rfl | rfl | rfl | rfl | ⟨r, -, rfl⟩ | rfl
  · exact List.not_mem_nil
  · exact hcomment
  · exact hopening
  · exact hcount
  · exact r.not_mem_line
  · exact hclosing

theorem opening_inj : t.opening = t'.opening ↔ t.name = t'.name := by
  rw [← String.toList_inj, toList_opening, toList_opening, List.append_left_inj,
    List.append_right_inj, String.toList_inj]

/-- The text of a table can be told from what follows it. -/
theorem lines_append_inj {rest rest' : List (List Char)} (h : t.lines ++ rest = t'.lines ++ rest') :
    t = t' ∧ rest = rest' := by
  simp only [lines, List.cons_append, List.append_assoc, List.cons_eq_cons, String.toList_inj] at h
  obtain ⟨-, hcomment, hopening, -, hrows⟩ := h
  have hname : t.name = t'.name := opening_inj.1 hopening
  have hkind : t.kind = t'.kind := by
    -- what a comment says of the name is known now, and the rest of it is the label
    apply PropertyKind.label_injective
    simpa [comment, hname, ← String.toList_inj] using hcomment
  have hbrace : ∀ t : RangeTable, t.closing.toList.head? ≠ some '\t' := by
    intro t
    simp [closing]
  obtain ⟨hranges, -, hrest⟩ := CodeRange.map_line_append_inj (hbrace t) (hbrace t') hrows
  refine ⟨?_, hrest⟩
  cases t
  cases t'
  simp_all

theorem flatMap_lines_inj : ts.flatMap lines = ts'.flatMap lines ↔ ts = ts' := by
  constructor
  · intro h
    induction ts generalizing ts' with
    | nil =>
      cases ts' with
      | nil => rfl
      | cons t' ts' => cases h
    | cons t ts ih =>
      cases ts' with
      | nil => cases h
      | cons t' ts' =>
        obtain ⟨rfl, hrest⟩ := lines_append_inj h
        rw [ih hrest]
  · rintro rfl
    rfl

theorem not_mem_flatMap_lines (h : ∀ t ∈ ts, '\n' ∉ t.name.toList) :
    ∀ l ∈ ts.flatMap lines, '\n' ∉ l := by
  intro l hl
  obtain ⟨t, ht, hl⟩ := List.mem_flatMap.1 hl
  exact not_mem_lines (h t ht) l hl

/-- Two lists of tables whose names have no line feed have the same text only if they are equal. -/
theorem arrays_inj (h : ∀ t ∈ ts, '\n' ∉ t.name.toList) (h' : ∀ t ∈ ts', '\n' ∉ t.name.toList) :
    arrays ts = arrays ts' ↔ ts = ts' := by
  constructor
  · intro heq
    have hfields := congrArg (Text.fields '\n') (String.toList_inj.2 heq)
    rw [toList_arrays, toList_arrays, Text.fields_flatMap (not_mem_flatMap_lines h),
      Text.fields_flatMap (not_mem_flatMap_lines h'), List.append_left_inj] at hfields
    exact flatMap_lines_inj.1 hfields
  · rintro rfl
    rfl

/-- A name that imitates the end of a comment, a name that is empty, and a range that ends before
it begins. -/
theorem arrays_inj_imitation :
    let ts : List RangeTable :=
      [⟨"Latin': Script */", .posixClass, []⟩, ⟨"", .script, [⟨0xFFFFFFFF, 0⟩]⟩]
    let ts' : List RangeTable := [⟨"Latin", .script, [⟨0xFFFFFFFF, 0⟩]⟩]
    (∀ t ∈ ts, '\n' ∉ t.name.toList) ∧ (∀ t ∈ ts', '\n' ∉ t.name.toList) ∧
      arrays ts ≠ arrays ts' := by
  intro ts ts'
  have h : ∀ t ∈ ts, '\n' ∉ t.name.toList := by decide
  have h' : ∀ t ∈ ts', '\n' ∉ t.name.toList := by decide
  have hne : ts ≠ ts' := by decide
  exact ⟨h, h', fun heq => hne ((arrays_inj h h').1 heq)⟩

end RangeTable

end UcdTables
