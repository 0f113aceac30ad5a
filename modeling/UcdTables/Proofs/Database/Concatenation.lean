import UcdTables.Proofs.Database.LineReader
import UcdTables.Proofs.Database.ScriptMap

/-!
# Databases one after the other

A database may be cut wherever a line starts. The parts are read one after the other, the second
under numbers that go on from those of the first. The scripts of the second part can also be merged
into the map of the first.

* `LineReader.inParts`: the outcome for two texts, from the outcome for each of them.
* `readsInParts`: both databases.
-/

namespace UcdTables

variable {ρ : Type}

/-- The outcome for two texts that are read one after the other, from the outcomes for the first
and for the second, where `count` lines end in the first. -/
structure InParts (count : Nat) (renumber : (Nat → Nat) → ρ → ρ)
    (first second both : Except BuildError (List ρ)) : Prop where
  /-- If the first is refused, the second does not count. -/
  refused : ∀ e, first = .error e → both = .error e
  /-- Otherwise, if the second is refused, it is for the same reason under a later number. -/
  refusedLater : ∀ rs e, first = .ok rs → second = .error e →
    both = .error (e.renumber (· + count))
  /-- If neither is refused, the records of the second follow, under later numbers. -/
  accepted : ∀ rs rs', first = .ok rs → second = .ok rs' →
    both = .ok (rs ++ rs'.map (renumber (· + count)))

theorem LineReader.inParts (R : LineReader ρ) {s : List Char} (hstart : Text.StartsLine s)
    (t : List Char) :
    InParts (s.count '\n') R.renumber (R.read s) (R.read t) (R.read (s ++ t)) := by
  rw [R.read_append hstart]
  refine InParts.mk ?refused ?refusedLater ?accepted
  case refused =>
    intro e hs
    rw [hs]
    rfl
  case refusedLater =>
    intro rs e hs ht
    rw [hs, ht]
    rfl
  case accepted =>
    intro rs rs' hs ht
    rw [hs, ht]
    rfl

/-- Two texts are read one after the other, in either format. -/
structure ReadsInParts (s t : String) : Prop where
  characters : InParts (s.toList.count '\n') CharacterRecord.renumber
    (CharacterRecord.ofText s) (CharacterRecord.ofText t) (CharacterRecord.ofText (s ++ t))
  scripts : InParts (s.toList.count '\n') ScriptRange.renumber
    (ScriptRange.ofText s) (ScriptRange.ofText t) (ScriptRange.ofText (s ++ t))
  /-- The scripts of the second, merged into the map of the first in any order, give the map of
  both. -/
  scriptMap : ∀ ss ss', ScriptRange.ofText s = .ok ss → ScriptRange.ofText t = .ok ss' →
    ∃ both m m', ScriptRange.ofText (s ++ t) = .ok both ∧ ScriptMap ss m ∧ ScriptMap both m' ∧
      ∀ order : List DraftEntry, order.Perm (scriptDraft ss').entries →
        m.mergeEntries order = (m', .ok ())

/-- Databases may be cut wherever a line starts. -/
theorem readsInParts {s : String} (hstart : Text.StartsLine s.toList) (t : String) :
    ReadsInParts s t := by
  have hscripts : InParts (s.toList.count '\n') ScriptRange.renumber
      (ScriptRange.ofText s) (ScriptRange.ofText t) (ScriptRange.ofText (s ++ t)) := by
    simp only [ScriptRange.ofText_eq_read, String.toList_append]
    exact ScriptRange.reader.inParts hstart t.toList
  refine ReadsInParts.mk ?characters hscripts ?scriptMap
  case characters =>
    simp only [CharacterRecord.ofText_eq_read, String.toList_append]
    exact CharacterRecord.reader.inParts hstart t.toList
  case scriptMap =>
    intro ss ss' hs ht
    obtain ⟨m, hm⟩ := PropertyMap.exists_merged_empty (scriptDraft ss)
    obtain ⟨m', hm'⟩ := PropertyMap.exists_merged_empty
      (scriptDraft (ss ++ ss'.map (·.renumber (· + s.toList.count '\n'))))
    refine ⟨_, m, m', hscripts.accepted ss ss' hs ht, scriptMap_of_merged hm,
      scriptMap_of_merged hm', fun order horder => ?_⟩
    rw [← scriptDraft_renumber] at horder
    exact mergeEntries_scriptDraft_append hm hm' horder

/-- A text that ends after a blank line, and a second one that can be read as characters and not as
scripts. -/
theorem readsInParts_blank :
    let s := "0041;Latin;Lo\r\n\n"
    let t := "0042;;Lo"
    Text.StartsLine s.toList ∧ ReadsInParts s t ∧
      ScriptRange.ofText (s ++ t) = .error (.malformedRecord 3 .noScript) ∧
      CharacterRecord.ofText (s ++ t) = .ok [
        ⟨1, ⟨0x41, by decide⟩, "Latin", { major := 'L', minor := 'o' }⟩,
        ⟨3, ⟨0x42, by decide⟩, "", { major := 'L', minor := 'o' }⟩] := by
  intro s t
  have hstart : Text.StartsLine s.toList := .inr (by decide +kernel)
  have hparts := readsInParts hstart t
  have hcount : s.toList.count '\n' = 2 := by decide +kernel
  refine ⟨hstart, hparts, ?_, ?_⟩
  · have hfirst : ScriptRange.ofText s =
        .ok [⟨1, ⟨0x41, by decide⟩, ⟨0x41, by decide⟩, "Latin", by decide⟩] := by decide +kernel
    have hsecond : ScriptRange.ofText t = .error (.malformedRecord 1 .noScript) := by
      decide +kernel
    have hboth := hparts.scripts.refusedLater _ _ hfirst hsecond
    rw [hcount] at hboth
    exact hboth
  · have hfirst : CharacterRecord.ofText s =
        .ok [⟨1, ⟨0x41, by decide⟩, "Latin", { major := 'L', minor := 'o' }⟩] := by
      decide +kernel
    have hsecond : CharacterRecord.ofText t =
        .ok [⟨1, ⟨0x42, by decide⟩, "", { major := 'L', minor := 'o' }⟩] := by decide +kernel
    have hboth := hparts.characters.accepted _ _ hfirst hsecond
    rw [hcount] at hboth
    exact hboth

end UcdTables
