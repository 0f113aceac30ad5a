import UcdTables.Error
import UcdTables.Proofs.Outcome

/-!
# Databases read line by line

The lines of a database are read one after the other, up to the first that is refused. So the
outcome for a database can be told from what its lines write.

* `readByLines_mapM`: reading lines one after the other, where a line is read if and only if it
  writes a record, and is refused with its own number.
-/

namespace UcdTables

variable {ρ : Type}

/-- The outcome of reading a database, of which the lines `IsLine` are to be read and where
`Writes number text r` says that the line of this number and text writes the record `r`. -/
structure ReadByLines (IsLine : Nat → List Char → Prop) (Writes : Nat → List Char → ρ → Prop)
    (lines : List (List Char × Nat)) (outcome : Except BuildError (List ρ)) : Prop where
  /-- The lines are those that are to be read. -/
  mem_lines : ∀ number text, (text, number) ∈ lines ↔ IsLine number text
  /-- They are in the order of their numbers. -/
  ascending : lines.Pairwise (·.2 < ·.2)
  /-- Records are read exactly if they are what the lines write, one for each line and in the same
  order. -/
  accepted : ∀ rs, outcome = .ok rs ↔ List.Forall₂ (fun l r => Writes l.2 l.1 r) lines rs
  /-- The database is refused exactly if a line writes no record. -/
  refused : (∃ e, outcome = .error e) ↔
    ∃ number text, IsLine number text ∧ ¬ ∃ r, Writes number text r
  /-- The error has the number of the first such line. -/
  fault : ∀ e, outcome = .error e → ∃ number text reason,
    e = .malformedRecord number reason ∧ IsLine number text ∧ (¬ ∃ r, Writes number text r) ∧
      ∀ number' text', IsLine number' text' → number' < number → ∃ r, Writes number' text' r

variable {IsLine : Nat → List Char → Prop} {Writes : Nat → List Char → ρ → Prop}
  {lines : List (List Char × Nat)} {read : Nat → List Char → Except BuildError ρ}

theorem readByLines_mapM (hread : ∀ number text r, read number text = .ok r ↔ Writes number text r)
    (herror : ∀ number text e, read number text = .error e →
      ∃ reason, e = .malformedRecord number reason)
    (hmem : ∀ number text, (text, number) ∈ lines ↔ IsLine number text)
    (hascending : lines.Pairwise (·.2 < ·.2)) :
    ReadByLines IsLine Writes lines (lines.mapM fun (text, number) => read number text) := by
  have hrefused : ∀ {number text e}, read number text = .error e → ¬ ∃ r, Writes number text r := by
    rintro number text e he ⟨r, hr⟩
    rw [(hread number text r).2 hr] at he
    cases he
  refine ReadByLines.mk hmem hascending ?accepted ?refused ?fault
  case accepted =>
    intro rs
    simp only [mapM_eq_ok_iff, hread]
  case refused =>
    constructor
    · rintro ⟨e, he⟩
      obtain ⟨⟨text, number⟩, hl, he⟩ := exists_of_mapM_eq_error he
      exact ⟨number, text, (hmem number text).1 hl, hrefused he⟩
    · rintro ⟨number, text, hl, hnone⟩
      cases hread' : lines.mapM fun (text, number) => read number text with
      | error e => exact ⟨e, rfl⟩
      | ok rs =>
        obtain ⟨r, hr⟩ := exists_of_mapM_eq_ok hread' ((hmem number text).2 hl)
        exact absurd ⟨r, (hread number text r).1 hr⟩ hnone
  case fault =>
    intro e he
    obtain ⟨before, ⟨text, number⟩, after, rfl, hbefore, he⟩ := exists_append_of_mapM_eq_error he
    obtain ⟨reason, rfl⟩ := herror number text e he
    refine ⟨number, text, reason, rfl, (hmem number text).1 (by simp), hrefused he, ?_⟩
    intro number' text' hl hlt
    -- the lines from the faulty one on have no smaller number
    have hmem' : (text', number') ∈ before := by
      rcases List.mem_append.1 ((hmem number' text').2 hl) with h | h
      · exact h
      · rcases List.mem_cons.1 h with h | h
        · cases h
          exact absurd hlt (Nat.lt_irrefl _)
        · have hafter := (List.pairwise_cons.1 (List.pairwise_append.1 hascending).2.1).1 _ h
          exact absurd hlt (Nat.lt_asymm hafter)
    obtain ⟨r, hr⟩ := hbefore _ hmem'
    exact ⟨r, (hread number' text' r).1 hr⟩

end UcdTables
