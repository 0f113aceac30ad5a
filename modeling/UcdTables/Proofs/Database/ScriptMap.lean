import UcdTables.Proofs.Database.ScriptDraft
import UcdTables.Proofs.NameMap
import UcdTables.Proofs.Property.MergeOutcome

/-!
# The map of a script database

A script database stands for one set for each script: the codes of the records of the script. The
set does not show which records it comes from, in which order they stand or how often a code is
written. So databases whose records hold the same codes for each script have the same map.

* `Rearranged`: records put in another order, repeated, and split into pieces.
* `merged_scriptDraft_congr`: records that hold the same codes.
* `mergeEntries_scriptDraft_append`: records that are merged into the map of others.
* `exists_scriptMap`: the map of a database that can be read.
-/

namespace UcdTables

namespace ScriptRange

variable {ss ss' : List ScriptRange} {name : String} {code : Code}

/-- A record of a list has a script and a code. -/
def Holds (ss : List ScriptRange) (name : String) (code : Code) : Prop :=
  ∃ r ∈ ss, r.script = name ∧ code ∈ r.range

@[simp] theorem holds_append :
    Holds (ss ++ ss') name code ↔ Holds ss name code ∨ Holds ss' name code := by
  simp only [Holds, List.mem_append, or_and_right, exists_or]

@[simp] theorem holds_cons {r : ScriptRange} :
    Holds (r :: ss) name code ↔ (r.script = name ∧ code ∈ r.range) ∨ Holds ss name code := by
  simp only [Holds, List.mem_cons, or_and_right, exists_or, exists_eq_left]

/-- Each record has its first code, so the codes tell the names. -/
theorem exists_holds_iff : (∃ code, Holds ss name code) ↔ ∃ r ∈ ss, r.script = name := by
  constructor
  · rintro ⟨-, r, hr, hname, -⟩
    exact ⟨r, hr, hname⟩
  · rintro ⟨r, hr, hname⟩
    exact ⟨_, r, hr, hname, r.first_mem⟩

/-- Records that come from others by changes that leave the codes of each script as they are. -/
inductive Rearranged : List ScriptRange → List ScriptRange → Prop where
  /-- The records are put in another order. -/
  | perm {ss ss' : List ScriptRange} (h : ss.Perm ss') : Rearranged ss ss'
  /-- A record is repeated somewhere. -/
  | again {before after : List ScriptRange} {r : ScriptRange} (h : r ∈ before ++ after) :
      Rearranged (before ++ after) (before ++ r :: after)
  /-- A record is split into pieces, which have its script and cover its codes. -/
  | split {before pieces after : List ScriptRange} {r : ScriptRange}
      (hscript : ∀ piece ∈ pieces, piece.script = r.script)
      (hcodes : ∀ code, code ∈ r.range ↔ ∃ piece ∈ pieces, code ∈ piece.range) :
      Rearranged (before ++ r :: after) (before ++ pieces ++ after)
  /-- Changes are made one after the other. -/
  | trans {ss ss' ss'' : List ScriptRange} (h : Rearranged ss ss') (h' : Rearranged ss' ss'') :
      Rearranged ss ss''

theorem Rearranged.holds_iff (h : Rearranged ss ss') : Holds ss' name code ↔ Holds ss name code := by
  induction h with
  | perm h => simp only [Holds, h.mem_iff]
  | @again before after r h =>
    have hheld : r.script = name ∧ code ∈ r.range → Holds (before ++ after) name code :=
      fun hr => ⟨r, h, hr⟩
    rw [holds_append] at hheld
    simp only [holds_append, holds_cons]
    rw [or_left_comm, or_iff_right_iff_imp]
    exact hheld
  | @split before pieces after r hscript hcodes =>
    have hpieces : Holds pieces name code ↔ r.script = name ∧ code ∈ r.range := by
      constructor
      · rintro ⟨piece, hpiece, hname, hcode⟩
        exact ⟨(hscript piece hpiece).symm.trans hname, (hcodes code).2 ⟨piece, hpiece, hcode⟩⟩
      · rintro ⟨hname, hcode⟩
        obtain ⟨piece, hpiece, hmem⟩ := (hcodes code).1 hcode
        exact ⟨piece, hpiece, (hscript piece hpiece).trans hname, hmem⟩
    simp only [holds_append, holds_cons, hpieces, or_assoc]
  | trans _ _ ih ih' => exact ih'.trans ih

end ScriptRange

open ScriptRange (Holds Rearranged)

variable {ss ss' : List ScriptRange} {m : PropertyMap}

theorem has_scriptMap (h : PropertyMap.merged .empty (scriptDraft ss) = .ok m)
    {kind : PropertyKind} {name : String} :
    m.Has kind name ↔ kind = .script ∧ ∃ r ∈ ss, r.script = name := by
  rw [PropertyMap.has_merged h, exists_entry_scriptDraft_iff]
  exact or_iff_right (PropertyMap.not_has_empty kind name)

theorem holds_scriptMap (h : PropertyMap.merged .empty (scriptDraft ss) = .ok m)
    {kind : PropertyKind} {name : String} {code : Code} :
    m.Holds kind name code ↔ kind = .script ∧ Holds ss name code := by
  rw [PropertyMap.holds_merged_empty h, lists_scriptDraft]
  rfl

/-- Records that hold the same codes for each script have the same map. -/
theorem merged_scriptDraft_congr (h : PropertyMap.merged .empty (scriptDraft ss) = .ok m)
    (hsame : ∀ name code, Holds ss' name code ↔ Holds ss name code) :
    PropertyMap.merged .empty (scriptDraft ss') = .ok m := by
  obtain ⟨m', h'⟩ := PropertyMap.exists_merged_empty (scriptDraft ss')
  obtain rfl : m' = m := by
    apply PropertyMap.eq_of_views
    · intro kind name
      simp only [has_scriptMap h, has_scriptMap h', ← ScriptRange.exists_holds_iff, hsame]
    · intro kind name code
      rw [holds_scriptMap h, holds_scriptMap h', hsame]
  exact h'

/-- Records that are merged into the map of other records give the map of all of them. -/
theorem mergeEntries_scriptDraft_append {m' : PropertyMap} {order : List DraftEntry}
    (h : PropertyMap.merged .empty (scriptDraft ss) = .ok m)
    (h' : PropertyMap.merged .empty (scriptDraft (ss ++ ss')) = .ok m')
    (horder : order.Perm (scriptDraft ss').entries) : m.mergeEntries order = (m', .ok ()) := by
  have honeKind : PropertyMap.OneKind m (scriptDraft ss').entries := by
    refine PropertyMap.oneKind_of_agree (scriptDraft ss').distinct fun e he p hp => ?_
    obtain ⟨r, -, rfl⟩ := mem_entries_scriptDraft.1 he
    exact ((has_scriptMap h).1 ⟨p, hp, rfl⟩).1
  obtain ⟨grown, hgrown⟩ := PropertyMap.exists_mergeEntries honeKind
  obtain rfl : grown = m' := by
    apply PropertyMap.eq_of_views
    · intro kind name
      rw [PropertyMap.has_mergeEntries hgrown, exists_entry_scriptDraft_iff, has_scriptMap h,
        has_scriptMap h', ← and_or_left]
      simp only [List.mem_append, or_and_right, exists_or]
    · intro kind name code
      rw [PropertyMap.holds_mergeEntries hgrown, holds_scriptMap h, holds_scriptMap h',
        ScriptRange.holds_append, and_or_left]
      exact or_congr_right lists_scriptDraft
  exact PropertyMap.mergeEntries_congr honeKind hgrown (.of_perm horder.symm)

/-- The map of the records of a script database. -/
structure ScriptMap (ss : List ScriptRange) (m : PropertyMap) : Prop where
  /-- The draft of the records can be merged into the empty map, in any order of its entries. -/
  merged : ∀ order : List DraftEntry, order.Perm (scriptDraft ss).entries →
    PropertyMap.mergeEntries .empty order = (m, .ok ())
  /-- There is one set for each script, and no other. -/
  names : m.names.Perm (ss.map (·.script)).dedup
  /-- A set has codes, which ascend and are those of the records of the script. -/
  sets : ∀ name p, m.find? name = some p →
    p.kind = .script ∧ p.codes.codes ≠ [] ∧ p.codes.codes.Pairwise (· < ·) ∧
      ∀ code, code ∈ p.codes.codes ↔
        ∃ r ∈ ss, r.script = name ∧ r.first.val ≤ code ∧ code ≤ r.last.val
  /-- Records that hold the same codes for each script have the same map. -/
  sameCodes : ∀ ss', (∀ name code, Holds ss' name code ↔ Holds ss name code) →
    PropertyMap.merged .empty (scriptDraft ss') = .ok m
  /-- So have the records in another order, repeated, or split into pieces. -/
  rearranged : ∀ ss', Rearranged ss ss' → PropertyMap.merged .empty (scriptDraft ss') = .ok m

theorem scriptMap_of_merged (h : PropertyMap.merged .empty (scriptDraft ss) = .ok m) :
    ScriptMap ss m := by
  refine ScriptMap.mk ?merged ?names ?sets (fun _ => merged_scriptDraft_congr h) ?rearranged
  case merged =>
    intro order horder
    have honeKind := PropertyMap.oneKind_of_agree (m := .empty) (scriptDraft ss).distinct
      fun e _ p hp => by simp at hp
    exact PropertyMap.mergeEntries_congr honeKind (PropertyMap.merged_eq_ok_iff.1 h)
      (.of_perm horder.symm)
  case names =>
    apply NameMap.names_perm_dedup
    intro name
    rw [NameMap.mem_names_iff, ← Option.isSome_iff_exists]
    change m.contains name = true ↔ _
    rw [PropertyMap.contains_eq_true_iff]
    simp [has_scriptMap h]
  case sets =>
    intro name p hp
    obtain ⟨hhas, hcodes⟩ := PropertyMap.find?_eq_some_iff_views.1 hp
    obtain ⟨hkind, r, hr, hname⟩ := (has_scriptMap h).1 hhas
    have hmem : ∀ code, code ∈ p.codes.codes ↔ Holds ss name code := by
      intro code
      rw [CodeSet.mem_codes, ← Property.mem_def, ← hcodes, holds_scriptMap h]
      exact and_iff_right hkind
    refine ⟨hkind, ?_, p.codes.pairwise_codes, hmem⟩
    exact List.ne_nil_of_mem ((hmem _).2 ⟨r, hr, hname, r.first_mem⟩)
  case rearranged =>
    intro ss' hss'
    exact merged_scriptDraft_congr h fun name code => hss'.holds_iff

/-- A script database that can be read has a map, and the map is that of its records. -/
theorem exists_scriptMap {source : String} (h : ScriptRange.ofText source = .ok ss) :
    ∃ m, (ScriptRange.ofText source >>= fun ss => PropertyMap.merged .empty (scriptDraft ss)) =
      .ok m ∧ ScriptMap ss m := by
  obtain ⟨m, hm⟩ := PropertyMap.exists_merged_empty (scriptDraft ss)
  refine ⟨m, ?_, scriptMap_of_merged hm⟩
  rw [h]
  exact hm

/-- Two records of one script overlap, and a record of another script stands between them. -/
theorem exists_scriptMap_overlap :
    let source := "0041..0043 ; Latin # letters\n0391;Greek\n# none\n0042..0044;Latin;x\n"
    let latin : ScriptRange := ⟨1, ⟨0x41, by decide⟩, ⟨0x43, by decide⟩, "Latin", by decide⟩
    let greek : ScriptRange := ⟨2, ⟨0x391, by decide⟩, ⟨0x391, by decide⟩, "Greek", by decide⟩
    let more : ScriptRange := ⟨4, ⟨0x42, by decide⟩, ⟨0x44, by decide⟩, "Latin", by decide⟩
    ScriptRange.ofText source = .ok [latin, greek, more] ∧
      ∃ m, (ScriptRange.ofText source >>= fun ss =>
          PropertyMap.merged .empty (scriptDraft ss)) = .ok m ∧
        ScriptMap [latin, greek, more] m ∧
        PropertyMap.merged .empty (scriptDraft [more, greek, latin, more]) = .ok m := by
  intro source latin greek more
  have hread : ScriptRange.ofText source = .ok [latin, greek, more] := by decide +kernel
  obtain ⟨m, hm, hmap⟩ := exists_scriptMap hread
  have hperm : Rearranged [latin, greek, more] [greek, latin, more] := .perm (.swap ..)
  have hagain : Rearranged ([] ++ [greek, latin, more]) ([] ++ more :: [greek, latin, more]) :=
    .again (by simp)
  exact ⟨hread, m, hm, hmap, hmap.rearranged _ (hperm.trans hagain)⟩

end UcdTables
