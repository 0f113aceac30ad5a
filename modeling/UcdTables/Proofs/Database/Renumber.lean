import UcdTables.Database.Assignment
import UcdTables.Database.Scripts
import UcdTables.Proofs.Outcome
import UcdTables.Proofs.Text.Contents

/-!
# Records under other numbers

A line with another number is read as the same record, or refused for the same reason, with that
number. Nothing that is made of the records looks at the numbers, but for the errors.

* `renumbered`: an outcome under other numbers.
* `CharacterRecord.ofLine_renumber`, `ScriptRange.ofData_renumber`: a line under another number.
* `mapM_renumber`: lines read one after the other.
* `categoryDraft_renumber`, `scriptDraft_renumber`: what is made of the records.
-/

namespace UcdTables

variable {α β γ δ : Type} {f : Nat → Nat}

/-! ## Outcomes -/

/-- An error about a line that has another number. Its reason and its codes stay. -/
def BuildError.renumber (f : Nat → Nat) : BuildError → BuildError
  | .malformedRecord line reason => .malformedRecord (f line) reason
  | .ordering line previous current => .ordering (f line) previous current
  | e => e

/-- An outcome for lines that have other numbers, where `move` is what becomes of the value. -/
def renumbered (f : Nat → Nat) (move : α → β) : Except BuildError α → Except BuildError β
  | .ok a => .ok (move a)
  | .error e => .error (e.renumber f)

/-- Steps under other numbers, one after the other. -/
theorem bind_eq_renumbered {move : α → β} {move' : γ → δ} {x : Except BuildError α}
    {x' : Except BuildError β} {g : α → Except BuildError γ} {g' : β → Except BuildError δ}
    (hx : x' = renumbered f move x) (hg : ∀ a, g' (move a) = renumbered f move' (g a)) :
    x' >>= g' = renumbered f move' (x >>= g) := by
  subst hx
  cases x with
  | error e => rfl
  | ok a => exact hg a

/-- Lines under other numbers, read one after the other. -/
theorem mapM_renumber {ρ : Type} {move : ρ → ρ} {read : Nat → List Char → Except BuildError ρ}
    (hread : ∀ number text, read (f number) text = renumbered f move (read number text))
    (cs : List (List Char × Nat)) :
    ((Text.renumber f cs).mapM fun (text, number) => read number text) =
      renumbered f (List.map move) (cs.mapM fun (text, number) => read number text) := by
  induction cs with
  | nil => rfl
  | cons c cs ih =>
    obtain ⟨text, number⟩ := c
    change List.mapM _ ((text, f number) :: Text.renumber f cs) = _
    simp only [List.mapM_cons]
    refine bind_eq_renumbered (hread number text) fun r => ?_
    refine bind_eq_renumbered ih fun rs => ?_
    rfl

/-! ## Lines -/

theorem Database.readCode_renumber (source : List Char) (number : Nat) :
    readCode source (f number) = renumbered f id (readCode source number) := by
  unfold readCode
  cases hread : Text.readHex (Text.trim source) with
  | none =>
    simp only [hread]
    rfl
  | some code =>
    simp only [hread]
    by_cases hcode : code ≤ lastCode
    · rw [dif_pos hcode, dif_pos hcode]
      rfl
    · rw [dif_neg hcode, dif_neg hcode]
      rfl

namespace CharacterRecord

/-- The record of a line that has another number. -/
def renumber (f : Nat → Nat) (r : CharacterRecord) : CharacterRecord := { r with line := f r.line }

theorem ofLine_renumber (number : Nat) (line : List Char) :
    ofLine (f number) line = renumbered f (renumber f) (ofLine number line) := by
  unfold ofLine
  split
  next codeField nameField categoryField _ _ =>
    refine bind_eq_renumbered (Database.readCode_renumber codeField number) fun code => ?_
    simp only [id]
    split <;> rfl
  next => rfl

end CharacterRecord

namespace ScriptRange

/-- The record of a line that has another number. -/
def renumber (f : Nat → Nat) (r : ScriptRange) : ScriptRange := { r with line := f r.line }

theorem readBounds_renumber (source : List Char) (number : Nat) :
    readBounds source (f number) = renumbered f id (readBounds source number) := by
  unfold readBounds
  cases Text.cutDots source with
  | none =>
    refine bind_eq_renumbered (Database.readCode_renumber source number) fun code => ?_
    rfl
  | some bounds =>
    refine bind_eq_renumbered (Database.readCode_renumber bounds.1 number) fun first => ?_
    refine bind_eq_renumbered (Database.readCode_renumber bounds.2 number) fun last => ?_
    rfl

theorem ofData_renumber (number : Nat) (data : List Char) :
    ofData (f number) data = renumbered f (renumber f) (ofData number data) := by
  unfold ofData
  split
  next => rfl
  next codes rest _ =>
    refine bind_eq_renumbered (readBounds_renumber codes number) fun bounds => ?_
    simp only [id]
    split
    next => split <;> rfl
    next => rfl

end ScriptRange

/-! ## What is made of the records -/

namespace Assignment

theorem checkOrder_renumber (previous : Option CodePoint) (r : CharacterRecord) :
    checkOrder previous (r.renumber f) = renumbered f id (checkOrder previous r) := by
  cases previous with
  | none => rfl
  | some code =>
    change (if r.code.val ≤ code.val then throw _ else pure ()) = renumbered f id (ite _ _ _)
    by_cases hle : r.code.val ≤ code.val
    · rw [if_pos hle, if_pos hle]
      rfl
    · rw [if_neg hle, if_neg hle]
      rfl

theorem assignmentsFrom_renumber (previous : Option CodePoint) (opened : Option CharacterRecord)
    (rs : List CharacterRecord) :
    assignmentsFrom previous (opened.map (·.renumber f)) (rs.map (·.renumber f)) =
      renumbered f id (assignmentsFrom previous opened rs) := by
  induction rs generalizing previous opened with
  | nil => cases opened <;> rfl
  | cons r rs ih =>
    -- the assignments of the records after `r`, with one more in front of them
    have hrest : ∀ a, (assignmentsFrom (some r.code) none (rs.map (·.renumber f)) >>= fun rest =>
        pure (a :: rest)) = renumbered f id (assignmentsFrom (some r.code) none rs >>= fun rest =>
          pure (a :: rest)) := fun a => bind_eq_renumbered (ih _ none) fun rest => rfl
    simp only [List.map_cons, assignmentsFrom]
    refine bind_eq_renumbered (checkOrder_renumber previous r) fun _ => ?_
    have hbound : (r.renumber f).bound? = r.bound? := rfl
    rw [hbound]
    cases opened with
    | none =>
      cases r.bound? with
      | none => exact hrest _
      | some bound =>
        cases bound with
        | first => exact ih _ (some r)
        | last => rfl
    | some first =>
      cases r.bound? with
      | none => rfl
      | some bound =>
        cases bound with
        | first => rfl
        | last =>
          change (if first.category = r.category then _ else _) = renumbered f id (ite _ _ _)
          by_cases hsame : first.category = r.category
          · rw [if_pos hsame, if_pos hsame]
            exact hrest _
          · rw [if_neg hsame, if_neg hsame]
            rfl

end Assignment

/-- Categories are assigned to the same codes, or refused for the same reason. -/
theorem categoryDraft_renumber (rs : List CharacterRecord) :
    categoryDraft (rs.map (·.renumber f)) = renumbered f id (categoryDraft rs) := by
  unfold categoryDraft
  refine bind_eq_renumbered (Assignment.assignmentsFrom_renumber none none rs) fun assigned => ?_
  rfl

theorem scriptDraft_renumber (ss : List ScriptRange) :
    scriptDraft (ss.map (·.renumber f)) = scriptDraft ss := by
  rw [scriptDraft, List.foldl_map]
  rfl

end UcdTables
