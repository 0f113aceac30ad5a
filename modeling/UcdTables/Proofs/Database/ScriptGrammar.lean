import UcdTables.Proofs.Database.Errors
import UcdTables.Proofs.Database.Numeral
import UcdTables.Proofs.Database.Reading
import UcdTables.Proofs.Text.Fields

/-!
# The grammar of the script database

What a line of the script database writes, told from the text alone: where its comment, its codes
and its field with the script stand, and what codes the numerals are.

* `WritesBounds`: one code, or two codes with two dots between them.
* `Writes`: the record of the data of a line.
* `ofData_eq_ok_iff`: data is read as a record if and only if it writes the record.
* `readsGrammar`: a database is read by the grammar, and what follows a second semicolon does not
  count.
-/

namespace UcdTables.ScriptRange

variable {source data data' codes rest : List Char} {number : Nat} {r : ScriptRange}

/-! ## The data of a line -/

/-- The line of a number holds data: what stands before its comment, without the blanks at the two
ends, unless this is empty. -/
def DataAt (source : List Char) (number : Nat) (data : List Char) : Prop :=
  ∃ line part, Text.LineAt source line number ∧ Text.UpTo '#' line part ∧
    data = Text.trim part ∧ data ≠ []

theorem mem_dataLines_iff : (data, number) ∈ dataLines source ↔ DataAt source number data := by
  simp only [dataLines, dataOf, DataAt, List.mem_filter, List.mem_map, Prod.exists, Prod.mk.injEq,
    Text.mem_numberedLines_iff, Text.upTo_iff, decide_eq_true_eq]
  constructor
  · rintro ⟨⟨line, _, hline, rfl, rfl⟩, hne⟩
    exact ⟨line, _, hline, rfl, rfl, hne⟩
  · rintro ⟨line, _, hline, rfl, rfl, hne⟩
    exact ⟨⟨line, _, hline, rfl, rfl⟩, hne⟩

theorem pairwise_dataLines (source : List Char) : (dataLines source).Pairwise (·.2 < ·.2) := by
  apply List.Pairwise.filter
  rw [List.pairwise_map]
  exact Text.pairwise_numberedLines source

/-! ## What data writes -/

/-- A text writes the bounds of codes: one code that is both bounds, or two codes in order, with
the first two dots of the text in a row between them. -/
inductive WritesBounds : List Char → CodePoint → CodePoint → Prop where
  | single {source : List Char} {code : CodePoint} (h : Database.Writes source code) :
      WritesBounds source code code
  | range {source source' : List Char} {first last : CodePoint}
      (hdots : ¬ ['.', '.'] <:+: source ++ ['.']) (hfirst : Database.Writes source first)
      (hlast : Database.Writes source' last) (hle : first.val ≤ last.val) :
      WritesBounds (source ++ '.' :: '.' :: source') first last

/-- The data of a line writes a record: the bounds of its codes stand before the first semicolon,
and its script, without the blanks at the two ends, between that and the next semicolon or the end
of the data. -/
def Writes (number : Nat) (data : List Char) (r : ScriptRange) : Prop :=
  r.line = number ∧ ∃ codes rest field, data = codes ++ ';' :: rest ∧ ';' ∉ codes ∧
    WritesBounds codes r.first r.last ∧ Text.UpTo ';' rest field ∧
    Text.trim field = r.script.toList ∧ Text.trim field ≠ []

theorem readBounds_eq_ok_iff (number : Nat) {first last : CodePoint} :
    readBounds codes number = .ok (first, last) ∧ first.val ≤ last.val ↔
      WritesBounds codes first last := by
  constructor
  · rintro ⟨h, hle⟩
    unfold readBounds at h
    cases hcut : Text.cutDots codes with
    | some bounds =>
      obtain ⟨source, source'⟩ := bounds
      obtain ⟨rfl, hdots⟩ := Text.cutDots_eq_some_iff.1 hcut
      rw [hcut] at h
      obtain ⟨first', hfirst, h⟩ := bind_eq_ok_iff.1 h
      obtain ⟨last', hlast, h⟩ := bind_eq_ok_iff.1 h
      cases h
      exact .range hdots (Database.readCode_eq_ok_iff.1 hfirst)
        (Database.readCode_eq_ok_iff.1 hlast) hle
    | none =>
      rw [hcut] at h
      obtain ⟨code, hcode, h⟩ := bind_eq_ok_iff.1 h
      cases h
      exact .single (Database.readCode_eq_ok_iff.1 hcode)
  · intro h
    cases h with
    | single h =>
      have hcut : Text.cutDots codes = none := by
        rw [Text.cutDots_eq_none_iff]
        intro hdots
        exact h.dot_not_mem (hdots.subset (List.mem_cons_self ..))
      refine ⟨?_, UInt32.le_refl _⟩
      rw [readBounds, hcut, Database.readCode_eq_ok_iff.2 h]
      rfl
    | range hdots hfirst hlast hle =>
      refine ⟨?_, hle⟩
      rw [readBounds, Text.cutDots_eq_some_iff.2 ⟨rfl, hdots⟩]
      simp only [Database.readCode_eq_ok_iff.2 hfirst, Database.readCode_eq_ok_iff.2 hlast]
      rfl

/-- Data with a semicolon is read from what stands before it and from the field behind it. -/
theorem ofData_append_cons (hcodes : ';' ∉ codes) :
    ofData number (codes ++ ';' :: rest) = .ok r ↔
      r.line = number ∧ WritesBounds codes r.first r.last ∧
        Text.trim (Text.cut ';' rest).1 = r.script.toList ∧
        Text.trim (Text.cut ';' rest).1 ≠ [] := by
  rw [ofData, Text.cut_append_cons hcodes]
  constructor
  · intro h
    obtain ⟨⟨first, last⟩, hbounds, h⟩ := bind_eq_ok_iff.1 h
    simp only at h
    split at h
    next hle =>
      split at h
      next => cases h
      next hne =>
        cases h
        exact ⟨rfl, (readBounds_eq_ok_iff number).1 ⟨hbounds, hle⟩, String.toList_ofList.symm, hne⟩
    next => cases h
  · rintro ⟨rfl, hbounds, hname, hne⟩
    obtain ⟨hread, hle⟩ := (readBounds_eq_ok_iff r.line).2 hbounds
    refine bind_eq_ok_iff.2 ⟨_, hread, ?_⟩
    rw [hname] at hne
    simp only [dif_pos hle, hname, if_neg hne, String.ofList_toList]
    rfl

/-- Data is read as a record if and only if it writes the record. -/
theorem ofData_eq_ok_iff : ofData number data = .ok r ↔ Writes number data r := by
  rcases hcut : Text.cut ';' data with ⟨codes, _ | rest⟩
  · obtain ⟨rfl, hfree⟩ := Text.cut_eq_none_iff.1 hcut
    rw [ofData, hcut]
    refine iff_of_false nofun ?_
    rintro ⟨-, codes, rest, field, rfl, -⟩
    simp at hfree
  · obtain ⟨rfl, hcodes⟩ := Text.cut_eq_some_iff.1 hcut
    rw [ofData_append_cons hcodes]
    constructor
    · rintro ⟨hline, hbounds, hname, hne⟩
      exact ⟨hline, codes, rest, _, rfl, hcodes, hbounds, Text.upTo_iff.2 rfl, hname, hne⟩
    · rintro ⟨hline, codes', rest', field, hdata, hcodes', hbounds, hfield, hname, hne⟩
      obtain ⟨rfl, rfl⟩ := (Text.append_sep_inj hcodes hcodes').1 hdata
      rw [Text.upTo_iff.1 hfield]
      exact ⟨hline, hbounds, hname, hne⟩

/-- Of three dots in a row, the third belongs to the last bound. -/
example : ofData 1 "41...43;Latin".toList = .error (.malformedRecord 1 (.badCode ".43")) := by
  decide +kernel

/-! ## Reading a database -/

/-- The data of two lines agree up to the second semicolon. -/
def SameFields (data data' : List Char) : Prop :=
  data = data' ∨ ∃ codes rest rest' field, ';' ∉ codes ∧ data = codes ++ ';' :: rest ∧
    data' = codes ++ ';' :: rest' ∧ Text.UpTo ';' rest field ∧ Text.UpTo ';' rest' field

theorem ofData_congr (h : SameFields data data') : ofData number data = ofData number data' := by
  rcases h with rfl | ⟨codes, rest, rest', field, hcodes, rfl, rfl, hfield, hfield'⟩
  · rfl
  · rw [ofData, ofData, Text.cut_append_cons hcodes, Text.cut_append_cons hcodes]
    simp only [Text.upTo_iff.1 hfield, Text.upTo_iff.1 hfield']

/-- A script database is read by its grammar. -/
structure ReadsGrammar (source : String) : Prop where
  /-- The records are those that the lines with data write. -/
  byLines : ReadByLines (DataAt source.toList) Writes (dataLines source.toList) (ofText source)
  /-- A database whose lines agree with these up to the second semicolon has the same outcome. -/
  ignored : ∀ source' : String,
    List.Forall₂ (fun l l' => SameFields l.1 l'.1 ∧ l.2 = l'.2) (dataLines source.toList)
      (dataLines source'.toList) → ofText source' = ofText source

/-- A script database is read by its grammar, and refused at the first line that is not of the
grammar. -/
theorem readsGrammar (source : String) : ReadsGrammar source := by
  refine ReadsGrammar.mk ?byLines ?ignored
  case byLines =>
    exact readByLines_mapM (fun _ _ _ => ofData_eq_ok_iff) (fun _ _ _ => malformed_of_ofData)
      (fun _ _ => mem_dataLines_iff) (pairwise_dataLines _)
  case ignored =>
    intro source' h
    unfold ofText
    generalize dataLines source.toList = ls, dataLines source'.toList = ls' at h
    induction h with
    | nil => rfl
    | @cons l l' ls ls' hl _ ih =>
      obtain ⟨data, number⟩ := l
      obtain ⟨data', number'⟩ := l'
      obtain ⟨hfields, rfl⟩ : SameFields data data' ∧ number = number' := hl
      simp only [List.mapM_cons, ih, ofData_congr hfields]

end UcdTables.ScriptRange
