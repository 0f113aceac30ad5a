import UcdTables.Proofs.Database.Errors
import UcdTables.Proofs.Database.Numeral
import UcdTables.Proofs.Database.Reading
import UcdTables.Proofs.Text.Fields

/-!
# The grammar of the character database

What a line of the character database writes, told from the text alone: where its first three
fields stand, which code the first of them is, and which two letters the third.

* `Category.Writes`: the category that a field writes.
* `CharacterRecord.Writes`: the record of a line.
* `ofLine_eq_ok_iff`: a line is read as a record if and only if it writes the record.
* `readsFields`: a database is read by the grammar, and what follows a third semicolon does not
  count.
-/

namespace UcdTables

namespace Category

variable {c : Char} {field : List Char} {g : Category}

/-- An ASCII letter of either case. -/
def IsLetter (c : Char) : Prop := ('A' ≤ c ∧ c ≤ 'Z') ∨ ('a' ≤ c ∧ c ≤ 'z')

theorem isAlpha_iff : c.isAlpha = true ↔ IsLetter c := by
  have hupper : c.isUpper = true ↔ 'A' ≤ c ∧ c ≤ 'Z' := decide_eq_true_iff
  have hlower : c.isLower = true ↔ 'a' ≤ c ∧ c ≤ 'z' :=
    Bool.and_eq_true_iff.trans (and_congr decide_eq_true_iff decide_eq_true_iff)
  exact Bool.or_eq_true_iff.trans (or_congr hupper hlower)

/-- A field writes a category: it is two letters, but for blanks around them, and the first of the
letters alone is the name of the major category. -/
def Writes (field : List Char) (g : Category) : Prop :=
  ∃ major minor, IsLetter major ∧ IsLetter minor ∧ Text.trim field = [major, minor] ∧
    g.name = String.ofList [major, minor] ∧ g.majorName = String.ofList [major]

theorem ofChars?_trim_eq_some_iff : ofChars? (Text.trim field) = some g ↔ Writes field g := by
  rw [ofChars?_eq_some_iff]
  constructor
  · intro hfield
    exact ⟨g.major, g.minor, isAlpha_iff.1 g.isAlpha_major, isAlpha_iff.1 g.isAlpha_minor, hfield,
      rfl, rfl⟩
  · rintro ⟨major, minor, -, -, hfield, hname, -⟩
    rw [hfield, ← String.ofList_inj]
    exact hname.symm

end Category

namespace CharacterRecord

variable {source line line' first second rest : List Char} {number : Nat} {r : CharacterRecord}

/-! ## What a line writes -/

/-- The line of a number is to be read, as not all of it is blank. -/
def RecordAt (source : List Char) (number : Nat) (line : List Char) : Prop :=
  Text.LineAt source line number ∧ ∃ c ∈ line, Text.isBlank c = false

theorem mem_recordLines_iff : (line, number) ∈ recordLines source ↔ RecordAt source number line := by
  simp [recordLines, RecordAt, Text.mem_numberedLines_iff]

theorem pairwise_recordLines (source : List Char) : (recordLines source).Pairwise (·.2 < ·.2) :=
  (Text.pairwise_numberedLines source).filter _

/-- A line writes a record: its first three fields are the code, the name and the category, each
with or without blanks around it. -/
def Writes (number : Nat) (line : List Char) (r : CharacterRecord) : Prop :=
  r.line = number ∧ ∃ first second rest third, line = first ++ ';' :: (second ++ ';' :: rest) ∧
    ';' ∉ first ∧ ';' ∉ second ∧ Text.UpTo ';' rest third ∧
    Database.Writes first r.code ∧ Text.trim second = r.name.toList ∧ r.category.Writes third

/-! ## Reading a line -/

theorem ofLine_of_not_mem (hfree : ';' ∉ line) :
    ofLine number line = .error (.malformedRecord number (.tooFewFields 1)) := by
  rw [ofLine, Text.fields_of_not_mem hfree]
  rfl

theorem ofLine_of_one {last : List Char} (hfirst : ';' ∉ first) (hlast : ';' ∉ last) :
    ofLine number (first ++ ';' :: last) = .error (.malformedRecord number (.tooFewFields 2)) := by
  rw [ofLine, Text.fields_append_cons hfirst, Text.fields_of_not_mem hlast]
  rfl

/-- A line with two semicolons is read from the fields before them and from the field behind the
second. -/
theorem ofLine_append_cons (hfirst : ';' ∉ first) (hsecond : ';' ∉ second) :
    ofLine number (first ++ ';' :: (second ++ ';' :: rest)) = .ok r ↔
      r.line = number ∧ Database.Writes first r.code ∧ Text.trim second = r.name.toList ∧
        Category.Writes (Text.cut ';' rest).1 r.category := by
  obtain ⟨more, hmore⟩ := Text.exists_fields_eq_cons ';' rest
  rw [ofLine, Text.fields_append_cons hfirst, Text.fields_append_cons hsecond, hmore]
  constructor
  · intro h
    obtain ⟨code, hcode, h⟩ := bind_eq_ok_iff.1 h
    simp only at h
    split at h
    next category hcategory =>
      cases h
      exact ⟨rfl, Database.readCode_eq_ok_iff.1 hcode, String.toList_ofList.symm,
        Category.ofChars?_trim_eq_some_iff.1 hcategory⟩
    next => cases h
  · rintro ⟨rfl, hcode, hname, hcategory⟩
    refine bind_eq_ok_iff.2 ⟨r.code, Database.readCode_eq_ok_iff.2 hcode, ?_⟩
    simp only [Category.ofChars?_trim_eq_some_iff.2 hcategory, hname, String.ofList_toList]
    rfl

/-- A line is read as a record if and only if it writes the record. -/
theorem ofLine_eq_ok_iff : ofLine number line = .ok r ↔ Writes number line r := by
  rcases Text.exists_separators ';' line with hfree | ⟨first, last, rfl, hfirst, hlast⟩ |
    ⟨first, second, rest, rfl, hfirst, hsecond⟩
  · rw [ofLine_of_not_mem hfree]
    refine iff_of_false nofun ?_
    rintro ⟨-, first, second, rest, third, rfl, -⟩
    simp at hfree
  · rw [ofLine_of_one hfirst hlast]
    refine iff_of_false nofun ?_
    rintro ⟨-, first', second', rest, third, hline, hfirst', -⟩
    obtain ⟨-, rfl⟩ := (Text.append_sep_inj hfirst hfirst').1 hline
    simp at hlast
  · rw [ofLine_append_cons hfirst hsecond]
    constructor
    · rintro ⟨hline, hcode, hname, hcategory⟩
      exact ⟨hline, first, second, rest, _, rfl, hfirst, hsecond, Text.upTo_iff.2 rfl, hcode, hname,
        hcategory⟩
    · rintro ⟨hline, first', second', rest', third, htext, hfirst', hsecond', hthird, hcode, hname,
        hcategory⟩
      obtain ⟨rfl, hafter⟩ := (Text.append_sep_inj hfirst hfirst').1 htext
      obtain ⟨rfl, rfl⟩ := (Text.append_sep_inj hsecond hsecond').1 hafter
      rw [Text.upTo_iff.1 hthird]
      exact ⟨hline, hcode, hname, hcategory⟩

/-- A category is two letters, and not two bytes. -/
example : ofLine 1 "41;A;é".toList = .error (.malformedRecord 1 (.badCategory "é")) := by
  decide +kernel

/-! ## Reading a database -/

/-- Two lines agree up to the third semicolon. -/
def SameFields (line line' : List Char) : Prop :=
  line = line' ∨ ∃ first second rest rest' third, ';' ∉ first ∧ ';' ∉ second ∧
    line = first ++ ';' :: (second ++ ';' :: rest) ∧
    line' = first ++ ';' :: (second ++ ';' :: rest') ∧
    Text.UpTo ';' rest third ∧ Text.UpTo ';' rest' third

theorem ofLine_congr (h : SameFields line line') : ofLine number line = ofLine number line' := by
  rcases h with rfl | ⟨first, second, rest, rest', third, hfirst, hsecond, rfl, rfl, hthird,
    hthird'⟩
  · rfl
  · obtain ⟨more, hmore⟩ := Text.exists_fields_eq_cons ';' rest
    obtain ⟨more', hmore'⟩ := Text.exists_fields_eq_cons ';' rest'
    rw [ofLine, ofLine, Text.fields_append_cons hfirst, Text.fields_append_cons hfirst,
      Text.fields_append_cons hsecond, Text.fields_append_cons hsecond, hmore, hmore',
      Text.upTo_iff.1 hthird, Text.upTo_iff.1 hthird']

/-- A line with a semicolon is not blank. -/
theorem all_isBlank_congr (h : SameFields line line') :
    line.all Text.isBlank = line'.all Text.isBlank := by
  rcases h with rfl | ⟨first, second, rest, rest', third, -, -, rfl, rfl, -, -⟩
  · rfl
  · have hsemicolon : Text.isBlank ';' = false := by decide
    simp [hsemicolon]

/-- A character database is read by its grammar. -/
structure ReadsFields (source : String) : Prop where
  /-- The records are those that the lines write that are not blank. -/
  byLines : ReadByLines (RecordAt source.toList) Writes (recordLines source.toList) (ofText source)
  /-- A database whose lines agree with these up to the third semicolon has the same outcome. -/
  ignored : ∀ source' : String,
    List.Forall₂ SameFields (Text.lines source.toList) (Text.lines source'.toList) →
      ofText source' = ofText source

/-- A character database is read by its grammar, and refused at the first line that is not of the
grammar. -/
theorem readsFields (source : String) : ReadsFields source := by
  refine ReadsFields.mk ?byLines ?ignored
  case byLines =>
    exact readByLines_mapM (fun _ _ _ => ofLine_eq_ok_iff) (fun _ _ _ => malformed_of_ofLine)
      (fun _ _ => mem_recordLines_iff) (pairwise_recordLines _)
  case ignored =>
    intro source' h
    unfold ofText recordLines Text.numberedLines
    generalize Text.lines source.toList = ls, Text.lines source'.toList = ls', 1 = number at h
    induction h generalizing number with
    | nil => rfl
    | @cons line line' ls ls' hline _ ih =>
      simp only [List.zipIdx_cons, List.filter_cons, all_isBlank_congr hline]
      split
      next => simp only [List.mapM_cons, ih, ofLine_congr hline]
      next => exact ih _

end CharacterRecord

end UcdTables
