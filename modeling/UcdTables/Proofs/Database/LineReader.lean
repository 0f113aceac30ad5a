import UcdTables.Proofs.Database.CharacterGrammar
import UcdTables.Proofs.Database.Renumber
import UcdTables.Proofs.Text.Blank
import UcdTables.Proofs.Text.Layout

/-!
# Readers of databases

Both databases are read in one way: what the lines hold is read line by line, and a line is read
alike under any number. From this alone follows how the outcome for a text comes from the outcomes
for its parts, and what changes of its layout do to it.

* `LineReader`: how the lines of a database are read.
* `CharacterRecord.reader`, `ScriptRange.reader`: the readers of the two databases.
* `LineReader.read_append`: texts one after the other.
* `LineReader.read_relaid`: texts in another layout.
-/

namespace UcdTables

/-- How the lines of a database are read. -/
structure LineReader (ρ : Type) where
  /-- What a line holds. -/
  content : List Char → List Char
  /-- The record that is read from what a line holds. -/
  readLine : Nat → List Char → Except BuildError ρ
  /-- The record of a line that has another number. -/
  renumber : (Nat → Nat) → ρ → ρ
  rule : Text.ContentRule content
  readLine_renumber : ∀ {f : Nat → Nat} (number : Nat) (text : List Char),
    readLine (f number) text = renumbered f (renumber f) (readLine number text)

namespace LineReader

variable {ρ : Type} {s s' : List Char} {f : Nat → Nat}

/-- Reads the records of a text, up to the first line that is refused. -/
def read (R : LineReader ρ) (s : List Char) : Except BuildError (List ρ) :=
  (Text.contents R.content s).mapM fun (text, number) => R.readLine number text

/-- The second of two texts is read under numbers that go on from those of the first, if the first
is not refused. -/
theorem read_append (R : LineReader ρ) (hstart : Text.StartsLine s) (t : List Char) :
    R.read (s ++ t) = R.read s >>= fun rs =>
      renumbered (· + s.count '\n') (List.map (R.renumber (· + s.count '\n'))) (R.read t) >>=
        fun rs' => pure (rs ++ rs') := by
  rw [read, Text.contents_append R.rule hstart, List.mapM_append,
    mapM_renumber R.readLine_renumber]
  rfl

/-- A text in another layout is read as the same records under other numbers, or refused for the
same reason. -/
theorem read_relaid (R : LineReader ρ) {Idle : List Char → Prop}
    (hidle : ∀ tail, Idle tail → Text.Idles R.content tail) (h : Text.Relaid Idle s s' f) :
    R.read s' = renumbered f (List.map (R.renumber f)) (R.read s) := by
  rw [read, Text.contents_relaid R.rule hidle h, mapM_renumber R.readLine_renumber]
  rfl

/-- Carriage returns before line feeds leave no trace. -/
theorem read_withReturns (R : LineReader ρ) (s : List Char) :
    R.read (Text.withReturns none s) = R.read s := by
  rw [read, Text.contents_withReturns, read]

end LineReader

variable {tail : List Char}

/-! ## The character database -/

namespace CharacterRecord

theorem idles_of_blank (h : Text.AllBlank tail) : Text.Idles Text.trimEnd tail :=
  fun _ => Text.trimEnd_append_of_blank h

/-- Blanks at the end of a line are at the end of its last field. -/
theorem ofLine_append_of_blank (h : Text.AllBlank tail) (number : Nat) (line : List Char) :
    ofLine number (line ++ tail) = ofLine number line := by
  have hsemicolon : Text.isBlank ';' = false := by decide
  have hfree : ';' ∉ tail := fun hmem => by simp [h _ hmem] at hsemicolon
  rcases Text.exists_separators ';' line with hline | ⟨first, last, rfl, hfirst, hlast⟩ |
    ⟨first, second, rest, rfl, hfirst, hsecond⟩
  · rw [ofLine_of_not_mem hline, ofLine_of_not_mem (by simp [hline, hfree])]
  · rw [List.append_assoc, List.cons_append, ofLine_of_one hfirst hlast,
      ofLine_of_one hfirst (by simp [hlast, hfree])]
  · obtain ⟨more, hmore⟩ := Text.exists_fields_eq_cons ';' rest
    obtain ⟨more', hmore'⟩ := Text.exists_fields_eq_cons ';' (rest ++ tail)
    have hthird := Text.trim_fst_cut_append hsemicolon rest h
    simp only [List.append_assoc, List.cons_append, ofLine, Text.fields_append_cons hfirst,
      Text.fields_append_cons hsecond, hmore, hmore', hthird]

/-- The reader of the character database. -/
def reader : LineReader CharacterRecord where
  content := Text.trimEnd
  readLine := ofLine
  renumber := renumber
  rule := ⟨rfl, idles_of_blank Text.allBlank_return⟩
  readLine_renumber := ofLine_renumber

theorem ofText_eq_read (source : String) : ofText source = reader.read source.toList := by
  have hheld : Text.contents Text.trimEnd source.toList =
      (recordLines source.toList).map fun (text, number) => (Text.trimEnd text, number) := by
    rw [Text.contents, Text.heldBy, recordLines, List.filter_map]
    congr 2
    funext l
    rw [Bool.eq_iff_iff]
    simp [Text.trimEnd_eq_nil_iff]
  have hline : ∀ number line, ofLine number (Text.trimEnd line) = ofLine number line := by
    intro number line
    obtain ⟨blanks, hblanks, hline⟩ := Text.exists_eq_trimEnd_append line
    conv_rhs => rw [hline, ofLine_append_of_blank hblanks]
  simp only [LineReader.read, reader, hheld, List.mapM_map, Function.comp_def, hline, ofText]

end CharacterRecord

/-! ## The script database -/

namespace ScriptRange

/-- A line that is blank up to a comment, if it has one. -/
def NoData (line : List Char) : Prop := ∃ blanks, Text.UpTo '#' line blanks ∧ Text.AllBlank blanks

theorem idles_of_noData (h : NoData tail) : Text.Idles dataOf tail := by
  intro line
  obtain ⟨blanks, htail, hblanks⟩ := h
  rw [dataOf, dataOf, Text.fst_cut_append, Text.upTo_iff.1 htail]
  split
  next => rfl
  next hline =>
    rw [Text.cut_eq_none_iff.2 ⟨rfl, hline⟩]
    exact Text.trim_append_of_blank hblanks

/-- The reader of the script database. -/
def reader : LineReader ScriptRange where
  content := dataOf
  readLine := ofData
  renumber := renumber
  rule := ⟨rfl, idles_of_noData ⟨_, ⟨by decide, .inl rfl⟩, Text.allBlank_return⟩⟩
  readLine_renumber := ofData_renumber

theorem ofText_eq_read (source : String) : ofText source = reader.read source.toList := rfl

end ScriptRange

end UcdTables
