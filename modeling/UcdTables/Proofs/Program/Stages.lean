import UcdTables.Program.Build
import UcdTables.Proofs.Program.Properties
import UcdTables.Proofs.Table.Ranges

/-!
# The stages of a build

The result of a build does not depend on what it reports, and it comes about in stages: the records
of the two databases, the three maps, the tables.

* `tablesOf_eq_ok_iff`: the tables, if all stages succeed.
* `tablesOf_eq_error`: at which stage a build fails otherwise.
-/

namespace UcdTables

namespace Logged

variable {α β : Type}

@[simp] theorem result_pure (a : α) : (pure a : Logged α).result = .ok a := rfl

@[simp] theorem result_ofResult (x : Except BuildError α) : (ofResult x).result = x := rfl

@[simp] theorem result_report (e : Event) : (report e).result = .ok () := rfl

@[simp] theorem result_bind (x : Logged α) (f : α → Logged β) :
    (x >>= f).result = x.result >>= fun a => (f a).result := by
  obtain ⟨events, result⟩ := x
  cases result with
  | error e => rfl
  | ok a => rfl

end Logged

/-- The records of the script database, none if there is no such database. -/
def scriptRecords : Option (Except BuildError String) → Except BuildError (List ScriptRange)
  | none => .ok []
  | some source => source >>= ScriptRange.ofText

namespace PropertyMap

variable {m grown : PropertyMap} {source : Except BuildError String} {e : BuildError}

theorem result_ofCharacters (source : Except BuildError String) :
    (ofCharacters source).result = (source >>= CharacterRecord.ofText) >>= fun us =>
      categoryDraft us >>= fun d => merged .empty d >>= fun m =>
        m.checkPartition >>= fun _ => .ok m := by
  simp only [ofCharacters, Logged.result_bind, Logged.result_ofResult, Logged.result_report,
    Logged.result_pure]
  rfl

/-- The map of the categories is there if the records can be read and categories assigned to them:
the lists can always be merged, and the check always passes. -/
theorem ofCharacters_eq_ok_iff :
    (ofCharacters source).result = .ok m ↔
      ∃ us, source >>= CharacterRecord.ofText = .ok us ∧
        ∃ d, categoryDraft us = .ok d ∧ merged .empty d = .ok m := by
  rw [result_ofCharacters, bind_eq_ok_iff]
  apply exists_congr
  intro us
  apply and_congr_right
  intro _
  rw [bind_eq_ok_iff]
  apply exists_congr
  intro d
  apply and_congr_right
  intro hd
  rw [bind_eq_ok_iff]
  constructor
  · intro hleft
    obtain ⟨m', hm', hcheck⟩ := hleft
    obtain ⟨_, -, hm⟩ := bind_eq_ok_iff.1 hcheck
    exact Except.ok.inj hm ▸ hm'
  · intro hm
    refine ⟨m, hm, ?_⟩
    rw [checkPartition_of_categoryDraft hd hm]
    rfl

theorem ofCharacters_eq_error (h : (ofCharacters source).result = .error e) :
    source >>= CharacterRecord.ofText = .error e ∨
      ∃ us, source >>= CharacterRecord.ofText = .ok us ∧ categoryDraft us = .error e := by
  rw [result_ofCharacters] at h
  rcases bind_eq_error_iff.1 h with hread | ⟨us, hus, h⟩
  · exact .inl hread
  refine .inr ⟨us, hus, ?_⟩
  rcases bind_eq_error_iff.1 h with hdraft | ⟨d, hd, h⟩
  · exact hdraft
  obtain ⟨m, hm⟩ := exists_merged_empty d
  rw [hm] at h
  change m.checkPartition >>= _ = _ at h
  rw [checkPartition_of_categoryDraft hd hm] at h
  cases h

theorem result_withScripts (source : Except BuildError String) :
    (m.withScripts source).result =
      source >>= ScriptRange.ofText >>= fun ss => m.merged (scriptDraft ss) := by
  simp only [withScripts, Logged.result_bind, Logged.result_ofResult, Logged.result_report]
  rfl

theorem result_withClasses (m : PropertyMap) (rules : List ClassRule) :
    (m.withClasses rules).result = (m.addClasses rules).2.map fun _ => (m.addClasses rules).1 := rfl

theorem withClasses_eq_ok_iff {rules : List ClassRule} :
    (m.withClasses rules).result = .ok grown ↔ m.addClasses rules = (grown, .ok ()) := by
  rw [result_withClasses, map_fst_eq_ok_iff]

theorem withClasses_eq_error_iff {rules : List ClassRule} :
    (m.withClasses rules).result = .error e ↔ (m.addClasses rules).2 = .error e := by
  rw [result_withClasses, map_fst_eq_error_iff]

end PropertyMap

section Tables

variable {characters : Except BuildError String} {scripts : Option (Except BuildError String)}

theorem result_tablesOf (characters : Except BuildError String)
    (scripts : Option (Except BuildError String)) :
    (tablesOf characters scripts).result =
      (PropertyMap.ofCharacters characters).result >>= fun c =>
        (scriptRecords scripts >>= fun ss => c.merged (scriptDraft ss)) >>= fun s =>
          (s.withClasses posixRules).result >>= fun m => m.rangeTables := by
  cases scripts with
  | none =>
    simp only [tablesOf, Logged.result_bind, Logged.result_report, Logged.result_pure]
    rfl
  | some source =>
    simp only [tablesOf, Logged.result_bind, PropertyMap.result_withScripts, Logged.result_report]
    rfl

/-- The tables are those of the map of all properties. -/
theorem tablesOf_eq_ok_iff {ts : List RangeTable} :
    (tablesOf characters scripts).result = .ok ts ↔
      ∃ us ss c s m, characters >>= CharacterRecord.ofText = .ok us ∧
        scriptRecords scripts = .ok ss ∧ Grows us ss c s m ∧ m.rangeTables = .ok ts := by
  rw [result_tablesOf]
  constructor
  · intro h
    obtain ⟨c, hc, h⟩ := bind_eq_ok_iff.1 h
    obtain ⟨s, hs, h⟩ := bind_eq_ok_iff.1 h
    obtain ⟨m, hm, hts⟩ := bind_eq_ok_iff.1 h
    obtain ⟨us, hus, hdrafted⟩ := PropertyMap.ofCharacters_eq_ok_iff.1 hc
    obtain ⟨ss, hss, hmerged⟩ := bind_eq_ok_iff.1 hs
    exact ⟨us, ss, c, s, m, hus, hss,
      ⟨hdrafted, hmerged, PropertyMap.withClasses_eq_ok_iff.1 hm⟩, hts⟩
  · intro hright
    obtain ⟨us, ss, c, s, m, hus, hss, hgrows, hts⟩ := hright
    refine bind_eq_ok_iff.2
      ⟨c, PropertyMap.ofCharacters_eq_ok_iff.2 ⟨us, hus, hgrows.drafted⟩, ?_⟩
    refine bind_eq_ok_iff.2 ⟨s, bind_eq_ok_iff.2 ⟨ss, hss, hgrows.merged⟩, ?_⟩
    exact bind_eq_ok_iff.2 ⟨m, PropertyMap.withClasses_eq_ok_iff.2 hgrows.added, hts⟩

/-- The stage at which a build fails. -/
inductive TablesFail (characters : Except BuildError String)
    (scripts : Option (Except BuildError String)) : BuildError → Prop
  | characters {e} : characters >>= CharacterRecord.ofText = .error e →
      TablesFail characters scripts e
  | categories {e us} : characters >>= CharacterRecord.ofText = .ok us →
      categoryDraft us = .error e → TablesFail characters scripts e
  | scripts {e} : scriptRecords scripts = .error e → TablesFail characters scripts e
  | merging {e us ss d c} : characters >>= CharacterRecord.ofText = .ok us →
      scriptRecords scripts = .ok ss → categoryDraft us = .ok d →
      PropertyMap.merged .empty d = .ok c → c.merged (scriptDraft ss) = .error e →
      TablesFail characters scripts e
  | classes {e us ss d c s} : characters >>= CharacterRecord.ofText = .ok us →
      scriptRecords scripts = .ok ss → categoryDraft us = .ok d →
      PropertyMap.merged .empty d = .ok c → c.merged (scriptDraft ss) = .ok s →
      (s.addClasses posixRules).2 = .error e → TablesFail characters scripts e
  | tables {e us ss c s m} : characters >>= CharacterRecord.ofText = .ok us →
      scriptRecords scripts = .ok ss → Grows us ss c s m → m.rangeTables = .error e →
      TablesFail characters scripts e

/-- A build without tables fails at one of its stages. -/
theorem tablesOf_eq_error {e : BuildError} (h : (tablesOf characters scripts).result = .error e) :
    TablesFail characters scripts e := by
  rw [result_tablesOf] at h
  rcases bind_eq_error_iff.1 h with hc | ⟨c, hc, h⟩
  · rcases PropertyMap.ofCharacters_eq_error hc with hread | ⟨us, hus, hdraft⟩
    · exact .characters hread
    · exact .categories hus hdraft
  obtain ⟨us, hus, d, hd, hm⟩ := PropertyMap.ofCharacters_eq_ok_iff.1 hc
  rcases bind_eq_error_iff.1 h with hs | ⟨s, hs, h⟩
  · rcases bind_eq_error_iff.1 hs with hread | ⟨ss, hss, hmerged⟩
    · exact .scripts hread
    · exact .merging hus hss hd hm hmerged
  obtain ⟨ss, hss, hmerged⟩ := bind_eq_ok_iff.1 hs
  rcases bind_eq_error_iff.1 h with hclasses | ⟨m, hclasses, htables⟩
  · exact .classes hus hss hd hm hmerged (PropertyMap.withClasses_eq_error_iff.1 hclasses)
  · exact .tables hus hss ⟨⟨d, hd, hm⟩, hmerged, PropertyMap.withClasses_eq_ok_iff.1 hclasses⟩
      htables

end Tables

end UcdTables
