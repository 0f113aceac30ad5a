import UcdTables.Database.Scripts
import UcdTables.Proofs.Code.Ascending
import UcdTables.Proofs.Property.Mention
import UcdTables.Proofs.Property.Merge

/-!
# The lists of the scripts

The draft of a script database has a list for each script that a record names, and the list holds
the codes of all records of the script. No such list is empty.
-/

namespace UcdTables

/-- The mention of the codes of a record. -/
def ScriptRange.mention (r : ScriptRange) : Mention := ⟨.script, r.script, [r.range]⟩

theorem ScriptRange.first_mem (r : ScriptRange) : r.first.val ∈ r.range :=
  CodeRange.first_mem (UInt32.le_iff_toNat_le.1 r.first_le_last)

theorem ScriptRange.le_lastCode {r : ScriptRange} {code : Code} (h : code ∈ r.range) :
    code ≤ lastCode :=
  UInt32.le_trans h.2 r.last.property

variable {ss : List ScriptRange}

theorem scriptDraft_eq_ofMentions (ss : List ScriptRange) :
    scriptDraft ss = Draft.ofMentions (ss.map ScriptRange.mention) := by
  rw [Draft.ofMentions, List.foldl_map]
  rfl

/-- An entry of the draft, by a record of its script. -/
theorem mem_entries_scriptDraft {e : DraftEntry} :
    e ∈ (scriptDraft ss).entries ↔ ∃ r ∈ ss, e =
      ⟨r.script, .script, (Mention.gathered (ss.map ScriptRange.mention) r.script).toArray⟩ := by
  have hagree : Mention.Agree (ss.map ScriptRange.mention) := by
    intro m hm m' hm' _
    obtain ⟨r, -, rfl⟩ := List.mem_map.1 hm
    obtain ⟨r', -, rfl⟩ := List.mem_map.1 hm'
    rfl
  rw [scriptDraft_eq_ofMentions, Draft.mem_entries_ofMentions hagree]
  constructor
  · intro hleft
    obtain ⟨m, hm, rfl⟩ := hleft
    obtain ⟨r, hr, rfl⟩ := List.mem_map.1 hm
    exact ⟨r, hr, rfl⟩
  · intro hright
    obtain ⟨r, hr, rfl⟩ := hright
    exact ⟨_, List.mem_map_of_mem hr, rfl⟩

theorem mem_gathered_scripts {name : String} {code : Code} :
    code ∈ (Mention.gathered (ss.map ScriptRange.mention) name).flatMap CodeRange.codes ↔
      ∃ r ∈ ss, r.script = name ∧ code ∈ r.range := by
  simp only [List.mem_flatMap, Mention.mem_gathered, List.mem_map, CodeRange.mem_codes]
  constructor
  · intro hleft
    obtain ⟨_, ⟨_, ⟨r, hr, rfl⟩, hname, hrange, -⟩, hcode⟩ := hleft
    obtain rfl := List.mem_singleton.1 hrange
    exact ⟨r, hr, hname, hcode⟩
  · intro hright
    obtain ⟨r, hr, hname, hcode⟩ := hright
    exact ⟨r.range, ⟨_, ⟨r, hr, rfl⟩, hname, by simp [ScriptRange.mention], r.first_le_last⟩, hcode⟩

/-- The draft has one list for each script. -/
theorem exists_entry_scriptDraft_iff {kind : PropertyKind} {name : String} :
    (∃ e ∈ (scriptDraft ss).entries, e.kind = kind ∧ e.name = name) ↔
      kind = .script ∧ ∃ r ∈ ss, r.script = name := by
  constructor
  · intro hleft
    obtain ⟨e, he, hkind, hname⟩ := hleft
    obtain ⟨r, hr, rfl⟩ := mem_entries_scriptDraft.1 he
    exact ⟨hkind.symm, r, hr, hname⟩
  · intro hright
    obtain ⟨rfl, r, hr, rfl⟩ := hright
    exact ⟨_, mem_entries_scriptDraft.2 ⟨r, hr, rfl⟩, rfl, rfl⟩

/-- The list of a script holds the codes of its records. -/
theorem lists_scriptDraft {kind : PropertyKind} {name : String} {code : Code} :
    (scriptDraft ss).Lists kind name code ↔
      kind = .script ∧ ∃ r ∈ ss, r.script = name ∧ code ∈ r.range := by
  constructor
  · intro hleft
    obtain ⟨e, he, hkind, hname, hcode⟩ := hleft
    obtain ⟨r, hr, rfl⟩ := mem_entries_scriptDraft.1 he
    obtain rfl : r.script = name := hname
    exact ⟨hkind.symm, mem_gathered_scripts.1 hcode⟩
  · intro hright
    obtain ⟨rfl, r, hr, rfl, hcode⟩ := hright
    exact ⟨_, mem_entries_scriptDraft.2 ⟨r, hr, rfl⟩, rfl, rfl,
      mem_gathered_scripts.2 ⟨r, hr, rfl, hcode⟩⟩

theorem le_lastCode_of_mem_scriptDraft {e : DraftEntry} (he : e ∈ (scriptDraft ss).entries)
    {code : Code} (hcode : code ∈ e.codes) : code ≤ lastCode := by
  obtain ⟨-, r, -, -, hmem⟩ := lists_scriptDraft.1 ⟨e, he, rfl, rfl, hcode⟩
  exact ScriptRange.le_lastCode hmem

end UcdTables
