import UcdTables.Database.Scripts
import UcdTables.Proofs.Database.RecordFault

/-!
# Errors of the databases

Reading a database fails only at a line that is malformed, with the number of that line, and
assigning categories only at records that are out of order or do not form blocks. No such failure is
about a property.
-/

namespace UcdTables

/-- An error that lies in a file or in a database, and not in the properties made from them. -/
def BuildError.OfInput : BuildError → Prop
  | malformedRecord _ _ | ordering _ _ _ | file _ _ => True
  | emptyProperty _ | unresolvedClass _ _ | duplicateProperty _ | partition _ _
  | outsideCodeSpace _ => False

variable {line : Nat} {source : List Char} {e : BuildError}

/-! ## A line is refused with its own number -/

theorem Database.malformed_of_readCode (h : readCode source line = .error e) :
    ∃ reason, e = .malformedRecord line reason := by
  unfold readCode at h
  cases hread : Text.readHex (Text.trim source) with
  | none =>
    simp only [hread] at h
    cases h
    exact ⟨_, rfl⟩
  | some code =>
    simp only [hread] at h
    split at h
    next => cases h
    next =>
      cases h
      exact ⟨_, rfl⟩

theorem CharacterRecord.malformed_of_ofLine (h : ofLine line source = .error e) :
    ∃ reason, e = .malformedRecord line reason := by
  unfold ofLine at h
  split at h
  next codeField nameField categoryField _ _ =>
    rcases bind_eq_error_iff.1 h with hcode | ⟨code, -, h⟩
    · exact Database.malformed_of_readCode hcode
    · cases hcategory : Category.ofChars? (Text.trim categoryField) with
      | none =>
        simp only [hcategory] at h
        cases h
        exact ⟨_, rfl⟩
      | some category =>
        simp only [hcategory] at h
        cases h
  next =>
    cases h
    exact ⟨_, rfl⟩

namespace ScriptRange

theorem malformed_of_readBounds (h : readBounds source line = .error e) :
    ∃ reason, e = .malformedRecord line reason := by
  unfold readBounds at h
  cases hcut : Text.cutDots source with
  | some bounds =>
    obtain ⟨first, last⟩ := bounds
    rw [hcut] at h
    rcases bind_eq_error_iff.1 h with hfirst | ⟨_, -, h⟩
    · exact Database.malformed_of_readCode hfirst
    rcases bind_eq_error_iff.1 h with hlast | ⟨_, -, h⟩
    · exact Database.malformed_of_readCode hlast
    · cases h
  | none =>
    rw [hcut] at h
    rcases bind_eq_error_iff.1 h with hcode | ⟨_, -, h⟩
    · exact Database.malformed_of_readCode hcode
    · cases h

theorem malformed_of_ofData (h : ofData line source = .error e) :
    ∃ reason, e = .malformedRecord line reason := by
  unfold ofData at h
  split at h
  next =>
    cases h
    exact ⟨_, rfl⟩
  next codes rest _ =>
    rcases bind_eq_error_iff.1 h with hbounds | ⟨⟨first, last⟩, -, h⟩
    · exact malformed_of_readBounds hbounds
    simp only at h
    split at h
    next =>
      split at h
      next =>
        cases h
        exact ⟨_, rfl⟩
      next => cases h
    next =>
      cases h
      exact ⟨_, rfl⟩

end ScriptRange

/-! ## No failure is about a property -/

theorem CharacterRecord.ofInput_of_ofText {text : String} (h : ofText text = .error e) :
    e.OfInput := by
  obtain ⟨⟨chars, line⟩, -, herror⟩ := exists_of_mapM_eq_error h
  obtain ⟨reason, rfl⟩ := malformed_of_ofLine herror
  trivial

theorem ScriptRange.ofInput_of_ofText {text : String} (h : ofText text = .error e) :
    e.OfInput := by
  obtain ⟨⟨chars, line⟩, -, herror⟩ := exists_of_mapM_eq_error h
  obtain ⟨reason, rfl⟩ := malformed_of_ofData herror
  trivial

theorem RecordFault.ofInput {previous : Option CharacterRecord} {r : CharacterRecord}
    (h : RecordFault previous r e) : e.OfInput := by
  cases h with
  | unordered | notOpened | notClosed | changesCategory => trivial

theorem ofInput_of_categoryDraft {rs : List CharacterRecord} (h : categoryDraft rs = .error e) :
    e.OfInput := by
  have hrecords : Assignment.ofRecords rs = .error e := bind_pure_eq_error_iff.1 h
  rcases Assignment.ofRecords_eq_error_iff.1 hrecords with
    ⟨_, _, _, _, _, hfault⟩ | ⟨_, s, _, _, he⟩
  · exact hfault.ofInput
  · rw [he]
    trivial

end UcdTables
