import UcdTables.Proofs.Database.LineReader
import UcdTables.Proofs.Program.Stages

/-!
# The layout of the databases

How the lines of a database are laid out does not matter: carriage returns, blank lines and, among
the scripts, comments leave no trace but in the numbers that records and errors carry. The maps and
the tables do not show them.

* `LineReader.layoutFree`: the records of a text in another layout.
* `databases_layoutFree`: both databases, the maps made from them, and the tables.
-/

namespace UcdTables

variable {ρ : Type} {f : Nat → Nat}

/-! ## Outcomes under other numbers -/

theorem renumbered_eq_ok_iff {α β : Type} {move : α → β} {x : Except BuildError α} {b : β} :
    renumbered f move x = .ok b ↔ ∃ a, x = .ok a ∧ move a = b := by
  cases x with
  | error e => simp [renumbered]
  | ok a => simp [renumbered]

/-! ## One database -/

/-- What a database in another layout is read as, where `Idle` texts are put in. -/
structure LayoutFree (Idle : List Char → Prop) (R : LineReader ρ)
    (ofText : String → Except BuildError (List ρ)) : Prop where
  /-- Carriage returns before line feeds leave no trace at all. -/
  returns : ∀ s s' : String, s'.toList = Text.withReturns none s.toList → ofText s' = ofText s
  /-- Records and errors are the same under the new numbers of their lines. -/
  relaid : ∀ (s s' : String) f, Text.Relaid Idle s.toList s'.toList f →
    ofText s' = renumbered f (List.map (R.renumber f)) (ofText s)
  /-- The new number of a line that holds something is that of a line that holds the same. -/
  numbers : ∀ (s s' : String) f, Text.Relaid Idle s.toList s'.toList f → ∀ line number,
    Text.LineAt s.toList line number → R.content line ≠ [] →
      ∃ line', Text.LineAt s'.toList line' (f number) ∧ R.content line' = R.content line

theorem LineReader.layoutFree {Idle : List Char → Prop} (R : LineReader ρ)
    (hidle : ∀ tail, Idle tail → Text.Idles R.content tail)
    {ofText : String → Except BuildError (List ρ)}
    (hread : ∀ source : String, ofText source = R.read source.toList) :
    LayoutFree Idle R ofText := by
  refine LayoutFree.mk ?returns ?relaid ?numbers
  case returns =>
    intro s s' hs'
    rw [hread, hread, hs', R.read_withReturns]
  case relaid =>
    intro s s' f h
    rw [hread, hread, R.read_relaid hidle h]
  case numbers =>
    intro s s' f h line number hline hheld
    have hmem : (R.content line, number) ∈ Text.contents R.content s.toList :=
      Text.mem_contents_iff.2 ⟨hheld, line, hline, rfl⟩
    have hmoved : (R.content line, f number) ∈ Text.contents R.content s'.toList := by
      rw [Text.contents_relaid R.rule hidle h]
      exact List.mem_map.2 ⟨_, hmem, rfl⟩
    exact (Text.mem_contents_iff.1 hmoved).2

theorem CharacterRecord.layoutFree : LayoutFree Text.AllBlank reader ofText :=
  reader.layoutFree (fun _ => idles_of_blank) ofText_eq_read

theorem ScriptRange.layoutFree : LayoutFree NoData reader ofText :=
  reader.layoutFree (fun _ => idles_of_noData) ofText_eq_read

/-! ## What is made of the records -/

theorem categoryDraft_relaid {s s' : String}
    (h : Text.Relaid Text.AllBlank s.toList s'.toList f) :
    CharacterRecord.ofText s' >>= categoryDraft =
      renumbered f id (CharacterRecord.ofText s >>= categoryDraft) :=
  bind_eq_renumbered (CharacterRecord.layoutFree.relaid s s' f h) categoryDraft_renumber

theorem scriptDraft_relaid {s s' : String}
    (h : Text.Relaid ScriptRange.NoData s.toList s'.toList f) :
    (ScriptRange.ofText s' >>= fun ss => pure (scriptDraft ss)) =
      renumbered f id (ScriptRange.ofText s >>= fun ss => pure (scriptDraft ss)) :=
  bind_eq_renumbered (ScriptRange.layoutFree.relaid s s' f h) fun ss =>
    congrArg Except.ok (scriptDraft_renumber ss)

namespace PropertyMap

/-- No merge fails because of a line. -/
theorem merged_eq_renumbered (f : Nat → Nat) (m : PropertyMap) (d : Draft) :
    m.merged d = renumbered f id (m.merged d) := by
  cases hmerged : m.merged d with
  | ok grown => rfl
  | error e =>
    obtain ⟨entry, -, rfl, -⟩ := merged_eq_error hmerged
    rfl

theorem checkKind_eq_renumbered (f : Nat → Nat) (m : PropertyMap) (kind : PropertyKind) :
    m.checkKind kind = renumbered f id (m.checkKind kind) := by
  simp only [checkKind]
  split
  next => rfl
  next => split <;> rfl

theorem checkPartition_eq_renumbered (f : Nat → Nat) (m : PropertyMap) :
    m.checkPartition = renumbered f id m.checkPartition :=
  bind_eq_renumbered (checkKind_eq_renumbered f m .generalCategory) fun _ =>
    checkKind_eq_renumbered f m .majorCategory

/-- The map of the categories, or what stands against it, for a text in another layout. -/
theorem ofCharacters_relaid {s s' : String} (h : Text.Relaid Text.AllBlank s.toList s'.toList f) :
    (ofCharacters (.ok s')).result = renumbered f id (ofCharacters (.ok s)).result := by
  rw [result_ofCharacters, result_ofCharacters]
  refine bind_eq_renumbered (CharacterRecord.layoutFree.relaid s s' f h) fun us => ?_
  refine bind_eq_renumbered (categoryDraft_renumber us) fun d => ?_
  refine bind_eq_renumbered (merged_eq_renumbered f .empty d) fun m => ?_
  exact bind_eq_renumbered (checkPartition_eq_renumbered f m) fun _ => rfl

/-- The scripts of a text in another layout, merged into a map. -/
theorem withScripts_relaid (m : PropertyMap) {s s' : String}
    (h : Text.Relaid ScriptRange.NoData s.toList s'.toList f) :
    (m.withScripts (.ok s')).result = renumbered f id (m.withScripts (.ok s)).result := by
  rw [result_withScripts, result_withScripts]
  refine bind_eq_renumbered (ScriptRange.layoutFree.relaid s s' f h) fun ss => ?_
  change m.merged (scriptDraft (ss.map (·.renumber f))) = _
  rw [scriptDraft_renumber]
  exact merged_eq_renumbered f m _

end PropertyMap

/-- A script database in another layout, or none. -/
def ScriptsRelaid (scripts scripts' : Option String) : Prop :=
  Option.Rel (fun s s' => ∃ f, Text.Relaid ScriptRange.NoData s.toList s'.toList f) scripts scripts'

theorem exists_scriptRecords_relaid {scripts scripts' : Option String}
    (h : ScriptsRelaid scripts scripts') :
    ∃ f, scriptRecords (scripts'.map .ok) =
      renumbered f (List.map (ScriptRange.renumber f)) (scriptRecords (scripts.map .ok)) := by
  cases h with
  | none => exact ⟨id, rfl⟩
  | @some s s' h =>
    obtain ⟨f, h⟩ := h
    exact ⟨f, ScriptRange.layoutFree.relaid s s' f h⟩

theorem tablesOf_relaid {s s' : String} {scripts scripts' : Option String}
    (h : Text.Relaid Text.AllBlank s.toList s'.toList f) (hscripts : ScriptsRelaid scripts scripts')
    (ts : List RangeTable) :
    (tablesOf (.ok s') (scripts'.map .ok)).result = .ok ts ↔
      (tablesOf (.ok s) (scripts.map .ok)).result = .ok ts := by
  obtain ⟨g, hrecords⟩ := exists_scriptRecords_relaid hscripts
  simp only [result_tablesOf, PropertyMap.ofCharacters_relaid h, hrecords, bind_eq_ok_iff,
    renumbered_eq_ok_iff, id, exists_eq_right, exists_exists_and_eq_and, scriptDraft_renumber]

/-! ## Both databases -/

/-- What depends on the layout of the databases, and what does not. -/
structure LayoutIndependent : Prop where
  characters : LayoutFree Text.AllBlank CharacterRecord.reader CharacterRecord.ofText
  scripts : LayoutFree ScriptRange.NoData ScriptRange.reader ScriptRange.ofText
  /-- Categories are assigned to the same codes, or refused for the same reason. -/
  categoryDraft : ∀ (s s' : String) f, Text.Relaid Text.AllBlank s.toList s'.toList f →
    CharacterRecord.ofText s' >>= categoryDraft =
      renumbered f id (CharacterRecord.ofText s >>= categoryDraft)
  /-- The scripts have the same codes. -/
  scriptDraft : ∀ (s s' : String) f, Text.Relaid ScriptRange.NoData s.toList s'.toList f →
    (ScriptRange.ofText s' >>= fun ss => pure (scriptDraft ss)) =
      renumbered f id (ScriptRange.ofText s >>= fun ss => pure (scriptDraft ss))
  /-- The map of the categories is the same, or it fails for the same reason. -/
  categories : ∀ (s s' : String) f, Text.Relaid Text.AllBlank s.toList s'.toList f →
    (PropertyMap.ofCharacters (.ok s')).result =
      renumbered f id (PropertyMap.ofCharacters (.ok s)).result
  /-- The scripts change a map in the same way. -/
  withScripts : ∀ (m : PropertyMap) (s s' : String) f,
    Text.Relaid ScriptRange.NoData s.toList s'.toList f →
      (m.withScripts (.ok s')).result = renumbered f id (m.withScripts (.ok s)).result
  /-- The tables are the same. -/
  tables : ∀ (s s' : String) f (scripts scripts' : Option String),
    Text.Relaid Text.AllBlank s.toList s'.toList f → ScriptsRelaid scripts scripts' → ∀ ts,
      (tablesOf (.ok s') (scripts'.map .ok)).result = .ok ts ↔
        (tablesOf (.ok s) (scripts.map .ok)).result = .ok ts

/-- The layout of the databases leaves no trace but in the numbers of the lines. -/
theorem databases_layoutFree : LayoutIndependent where
  characters := CharacterRecord.layoutFree
  scripts := ScriptRange.layoutFree
  categoryDraft _ _ _ h := categoryDraft_relaid h
  scriptDraft _ _ _ h := scriptDraft_relaid h
  categories _ _ _ h := PropertyMap.ofCharacters_relaid h
  withScripts m _ _ _ h := PropertyMap.withScripts_relaid m h
  tables _ _ _ _ _ h hscripts := tablesOf_relaid h hscripts

/-- A comment at the end of the first line, and a blank line below it. -/
example : Text.Relaid ScriptRange.NoData "0041;Latin\n0391;Greek".toList
    "0041;Latin # A\n\n0391;Greek".toList (Text.movedBelow 1) := by
  have htail : Text.TailAdded ScriptRange.NoData ("0041;Latin".toList ++ "\n0391;Greek".toList)
      ("0041;Latin".toList ++ " # A".toList ++ "\n0391;Greek".toList) :=
    .intro (.inr ⟨_, .inl rfl⟩) ⟨[' '], ⟨by decide, .inr ⟨_, rfl⟩⟩, Text.trimEnd_eq_nil_iff.1 rfl⟩
      (by decide)
  have hline : Text.LineInserted ScriptRange.NoData
      ("0041;Latin # A\n".toList ++ "0391;Greek".toList)
      ("0041;Latin # A\n".toList ++ ([] ++ '\n' :: "0391;Greek".toList)) (Text.movedBelow 1) :=
    .above (.inr rfl) ⟨[], ⟨by simp, .inl rfl⟩, nofun⟩ (by simp)
  exact .line (.tail (.refl _) htail) hline

end UcdTables
