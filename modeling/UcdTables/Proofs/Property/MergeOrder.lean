import Mathlib.Data.List.Flatten
import Mathlib.Data.List.Perm.Basic
import UcdTables.Proofs.Property.Mention
import UcdTables.Proofs.Property.Merge

/-!
# Merging in any order

Drafts in which each name has one kind, in all of them and in the map that they are merged into,
can be merged in any order: the order of the drafts and the order in which each of them gives its
entries leave no trace in the map. Nor does it matter whether the drafts are put together first, or
whether one of them is merged again.

* `mergeEntries_congr`: the map after a merge is determined by what the entries list.
* `mergeEntries_again`: what has been merged changes nothing when it is merged again.
* `Draft.exists_concatenates`: drafts in which each name has one kind can be put together.
* `mergeInTurn_confluent`: all ways to merge a list of drafts lead to one map.
-/

namespace UcdTables

/-! ## What entries list -/

/-- Two lists of entries name the same properties and list the same codes under them. -/
structure SameContents (es fs : List DraftEntry) : Prop where
  named : ∀ kind name, (∃ e ∈ es, e.kind = kind ∧ e.name = name) ↔
    ∃ e ∈ fs, e.kind = kind ∧ e.name = name
  codes : ∀ kind name code, (∃ e ∈ es, e.kind = kind ∧ e.name = name ∧ code ∈ e.codes) ↔
    ∃ e ∈ fs, e.kind = kind ∧ e.name = name ∧ code ∈ e.codes

theorem SameContents.of_perm {es fs : List DraftEntry} (h : es.Perm fs) : SameContents es fs := by
  constructor <;> simp [h.mem_iff]

namespace PropertyMap

variable {m grown : PropertyMap} {es fs : List DraftEntry}

/-- Each name has one kind, in a list of entries and in the map that they are merged into. -/
structure OneKind (m : PropertyMap) (es : List DraftEntry) : Prop where
  held : ∀ e ∈ es, ∀ kind, m.Has kind e.name → kind = e.kind
  listed : ∀ e ∈ es, ∀ e' ∈ es, e.name = e'.name → e.kind = e'.kind

theorem OneKind.congr (h : OneKind m es) (hsame : SameContents es fs) : OneKind m fs := by
  constructor
  · intro e he kind hkind
    obtain ⟨e', he', hk, hname⟩ := (hsame.named e.kind e.name).2 ⟨e, he, rfl, rfl⟩
    exact (h.held e' he' kind (hname ▸ hkind)).trans hk
  · intro e he e' he' hname
    obtain ⟨f, hf, hk, hfname⟩ := (hsame.named e.kind e.name).2 ⟨e, he, rfl, rfl⟩
    obtain ⟨f', hf', hk', hfname'⟩ := (hsame.named e'.kind e'.name).2 ⟨e', he', rfl, rfl⟩
    rw [← hk, ← hk']
    exact h.listed f hf f' hf' (hfname.trans (hname.trans hfname'.symm))

/-! ## Merging entries -/

/-- Entries can be merged if each name has one kind. -/
theorem exists_mergeEntries (h : OneKind m es) : ∃ grown, m.mergeEntries es = (grown, .ok ()) := by
  induction es generalizing m with
  | nil => exact ⟨m, rfl⟩
  | cons e es ih =>
    have he : m.mergeEntry e = .ok (m.insert e.name (m.joined e)) :=
      mergeEntry_eq_ok_iff.2 ⟨h.held e (by simp), rfl⟩
    have hrest : OneKind (m.insert e.name (m.joined e)) es := by
      refine ⟨fun e' he' kind hkind => ?_, fun e' he' f' hf' => ?_⟩
      · rcases (has_mergeEntry he).1 hkind with hm | ⟨hk, hname⟩
        · exact h.held e' (by simp [he']) kind hm
        · exact hk.symm.trans (h.listed e (by simp) e' (by simp [he']) hname)
      · exact h.listed e' (by simp [he']) f' (by simp [hf'])
    obtain ⟨grown, hgrown⟩ := ih hrest
    exact ⟨grown, by rw [mergeEntries, he]; exact hgrown⟩

/-- The map after a merge is determined by what the entries list. -/
theorem mergeEntries_congr (hes : OneKind m es) (h : m.mergeEntries es = (grown, .ok ()))
    (hsame : SameContents es fs) : m.mergeEntries fs = (grown, .ok ()) := by
  obtain ⟨other, hother⟩ := exists_mergeEntries (hes.congr hsame)
  obtain rfl : other = grown := by
    apply eq_of_views
    · intro kind name
      rw [has_mergeEntries h, has_mergeEntries hother, hsame.named]
    · intro kind name code
      rw [holds_mergeEntries h, holds_mergeEntries hother, hsame.codes]
  exact hother

/-- Entries that have been merged change nothing when they are merged again. -/
theorem mergeEntries_again (h : m.mergeEntries es = (grown, .ok ())) (hfs : fs ⊆ es) :
    grown.mergeEntries fs = (grown, .ok ()) := by
  have hnamed : ∀ f ∈ fs, grown.Has f.kind f.name := fun f hf =>
    (has_mergeEntries h).2 (.inr ⟨f, hfs hf, rfl, rfl⟩)
  have honeKind : OneKind grown fs := by
    refine ⟨fun f hf kind hkind => hkind.kind_unique (hnamed f hf), fun f hf f' hf' hname => ?_⟩
    exact (hnamed f hf).kind_unique (hname ▸ hnamed f' hf')
  obtain ⟨next, hnext⟩ := exists_mergeEntries honeKind
  obtain rfl : next = grown := by
    apply eq_of_views
    · intro kind name
      rw [has_mergeEntries hnext, or_iff_left_iff_imp]
      rintro ⟨f, hf, rfl, rfl⟩
      exact hnamed f hf
    · intro kind name code
      rw [holds_mergeEntries hnext, or_iff_left_iff_imp]
      rintro ⟨f, hf, rfl, rfl, hcode⟩
      exact (holds_mergeEntries h).2 (.inr ⟨f, hfs hf, rfl, rfl, hcode⟩)
  exact hnext

theorem mergeEntries_append (m : PropertyMap) (es fs : List DraftEntry) :
    m.mergeEntries (es ++ fs) =
      match m.mergeEntries es with
      | (grown, .ok ()) => grown.mergeEntries fs
      | (grown, .error error) => (grown, .error error) := by
  induction es generalizing m with
  | nil => rfl
  | cons e es ih =>
    rw [List.cons_append, mergeEntries, mergeEntries]
    cases m.mergeEntry e with
    | error error => rfl
    | ok next => exact ih next

/-- Merges one list of entries after the other, up to the first that fails. -/
def mergeInTurn (m : PropertyMap) : List (List DraftEntry) → PropertyMap × Except BuildError Unit
  | [] => (m, .ok ())
  | es :: rest =>
    match m.mergeEntries es with
    | (grown, .ok ()) => mergeInTurn grown rest
    | (grown, .error error) => (grown, .error error)

/-- A merge does not notice where one list ends and the next begins. -/
theorem mergeInTurn_eq (m : PropertyMap) (ess : List (List DraftEntry)) :
    m.mergeInTurn ess = m.mergeEntries ess.flatten := by
  induction ess generalizing m with
  | nil => rfl
  | cons es ess ih =>
    rw [mergeInTurn, List.flatten_cons, mergeEntries_append]
    simp only [ih]

end PropertyMap

/-! ## Drafts put together -/

theorem CodeRange.flatMap_codes_filter_inhabited (rs : List CodeRange) :
    (rs.filter (·.Inhabited)).flatMap CodeRange.codes = rs.flatMap CodeRange.codes := by
  induction rs with
  | nil => rfl
  | cons r rs ih =>
    by_cases hr : r.Inhabited
    · simp [hr, ih]
    · have hcodes : r.codes = [] := by
        apply List.eq_nil_iff_forall_not_mem.2
        intro code hcode
        rw [mem_codes, mem_iff_toNat] at hcode
        exact hr (inhabited_iff.2 (by omega))
      simp [hr, hcodes, ih]

theorem Mention.flatMap_codes_gathered (ms : List Mention) (name : String) :
    (gathered ms name).flatMap CodeRange.codes =
      (ms.filter (·.name = name)).flatMap fun m => m.ranges.flatMap CodeRange.codes := by
  simp only [gathered, List.flatMap_assoc, CodeRange.flatMap_codes_filter_inhabited]

namespace Draft

variable {d whole : Draft} {ds : List Draft} {name : String}

/-- The codes that a draft lists under a name, none if it does not mention the name. -/
def codesOf (d : Draft) (name : String) : List Code := (d.get? name).getD []

theorem codesOf_eq (d : Draft) (name : String) :
    d.codesOf name = (Option.toList <| d.entry? name).flatMap DraftEntry.codes := by
  unfold codesOf get?
  cases d.entry? name with
  | none => rfl
  | some e => simp

theorem codesOf_of_mem {e : DraftEntry} (he : e ∈ d.entries) : d.codesOf e.name = e.codes := by
  simp [codesOf_eq, entry?_eq_some_iff.2 ⟨he, rfl⟩]

theorem mem_codesOf_iff {code : Code} :
    code ∈ d.codesOf name ↔ ∃ e ∈ d.entries, e.name = name ∧ code ∈ e.codes := by
  rw [codesOf_eq, List.mem_flatMap]
  simp only [Option.mem_toList, entry?_eq_some_iff, and_assoc]

/-- A draft names what some of a list of drafts name, and lists under each name the codes of all of
them, one after the other. -/
structure Concatenates (whole : Draft) (ds : List Draft) : Prop where
  named : ∀ kind name, (∃ e ∈ whole.entries, e.kind = kind ∧ e.name = name) ↔
    ∃ d ∈ ds, ∃ e ∈ d.entries, e.kind = kind ∧ e.name = name
  codes : ∀ name, whole.codesOf name = ds.flatMap (codesOf · name)

/-- Drafts put together list what they list one by one. -/
theorem Concatenates.sameContents (h : whole.Concatenates ds) :
    SameContents (ds.flatMap entries) whole.entries := by
  have hcodes : ∀ name code, code ∈ whole.codesOf name ↔ ∃ d ∈ ds, code ∈ d.codesOf name := by
    intro name code
    rw [h.codes, List.mem_flatMap]
  refine SameContents.mk ?named ?codes
  case named =>
    intro kind name
    rw [h.named]
    simp only [List.mem_flatMap]
    grind
  case codes =>
    intro kind name code
    constructor
    · rintro ⟨e, he, rfl, rfl, hcode⟩
      obtain ⟨d, hd, he⟩ := List.mem_flatMap.1 he
      obtain ⟨f, hf, hkind, hname⟩ := (h.named e.kind e.name).2 ⟨d, hd, e, he, rfl, rfl⟩
      have hmem := (hcodes e.name code).2 ⟨d, hd, mem_codesOf_iff.2 ⟨e, he, rfl, hcode⟩⟩
      refine ⟨f, hf, hkind, hname, ?_⟩
      rwa [← hname, codesOf_of_mem hf] at hmem
    · rintro ⟨f, hf, rfl, rfl, hcode⟩
      rw [← codesOf_of_mem hf, hcodes] at hcode
      obtain ⟨d, hd, hcode⟩ := hcode
      obtain ⟨e, he, hname, hmem⟩ := mem_codesOf_iff.1 hcode
      -- the whole has one entry of the name, so its kind is that of all entries of the name
      obtain ⟨f', hf', hkind, hname'⟩ := (h.named e.kind e.name).2 ⟨d, hd, e, he, rfl, rfl⟩
      obtain rfl : f' = f :=
        List.inj_on_of_nodup_map whole.distinct hf' hf (hname'.trans hname)
      exact ⟨e, List.mem_flatMap.2 ⟨d, hd, he⟩, hkind.symm, hname, hmem⟩

/-- A name has at most one entry. -/
theorem filter_name_entries (d : Draft) (name : String) :
    d.entries.filter (·.name = name) = (Option.toList <| d.entry? name) := by
  obtain ⟨es, hes⟩ := d
  unfold entry?
  induction es with
  | nil => rfl
  | cons e es ih =>
    obtain ⟨he, hes⟩ := List.nodup_cons.1 hes
    by_cases hname : e.name = name
    · have hnone : es.filter (·.name = name) = [] := by
        rw [List.filter_eq_nil_iff]
        intro e' he' hsame
        have hmem : e.name ∈ es.map (·.name) :=
          List.mem_map.2 ⟨e', he', by simpa [hname] using hsame⟩
        exact he hmem
      simp [hname, hnone]
    · simp [hname, ih hes]

/-- An entry as a mention. -/
def asMention (e : DraftEntry) : Mention := ⟨e.kind, e.name, e.ranges.toList⟩

/-- The entries of a list of drafts, mentioned one after the other. -/
def mentions (ds : List Draft) : List Mention := (ds.flatMap entries).map asMention

theorem codesOf_ofMentions (ms : List Mention) (name : String) :
    codesOf (ofMentions ms) name = (Mention.gathered ms name).flatMap CodeRange.codes := by
  rw [codesOf_eq, entry?_ofMentions]
  cases hfirst : ms.find? (·.name = name) with
  | none => simp [Mention.gathered_eq_nil_of_find?_eq_none hfirst]
  | some first => simp [DraftEntry.codes]

theorem codes_gathered_mentions (ds : List Draft) (name : String) :
    (Mention.gathered (mentions ds) name).flatMap CodeRange.codes =
      ds.flatMap (codesOf · name) := by
  calc
    _ = ((ds.flatMap entries).filter (·.name = name)).flatMap DraftEntry.codes := by
      rw [Mention.flatMap_codes_gathered, mentions, List.filter_map, List.flatMap_map]
      rfl
    _ = ds.flatMap fun d => (d.entries.filter (·.name = name)).flatMap DraftEntry.codes := by
      rw [List.filter_flatMap, List.flatMap_assoc]
    _ = ds.flatMap (codesOf · name) := by
      simp only [filter_name_entries, codesOf_eq]

/-- Drafts that agree on the kind of each name can be put together. -/
theorem exists_concatenates (h : ∀ e ∈ ds.flatMap entries, ∀ e' ∈ ds.flatMap entries,
    e.name = e'.name → e.kind = e'.kind) : ∃ whole : Draft, whole.Concatenates ds := by
  have hagree : Mention.Agree (mentions ds) := by
    intro m hm m' hm' hname
    obtain ⟨e, he, rfl⟩ := List.mem_map.1 hm
    obtain ⟨e', he', rfl⟩ := List.mem_map.1 hm'
    exact h e he e' he' hname
  refine ⟨ofMentions (mentions ds), ⟨fun kind name => ?_, fun name => ?_⟩⟩
  · constructor
    · rintro ⟨e, he, rfl, rfl⟩
      obtain ⟨m, hm, rfl⟩ := (mem_entries_ofMentions hagree).1 he
      obtain ⟨f, hf, rfl⟩ := List.mem_map.1 hm
      obtain ⟨d, hd, hf⟩ := List.mem_flatMap.1 hf
      exact ⟨d, hd, f, hf, rfl, rfl⟩
    · rintro ⟨d, hd, e, he, rfl, rfl⟩
      have hm : asMention e ∈ mentions ds :=
        List.mem_map_of_mem (List.mem_flatMap.2 ⟨d, hd, he⟩)
      exact ⟨_, (mem_entries_ofMentions hagree).2 ⟨_, hm, rfl⟩, rfl, rfl⟩
  · rw [codesOf_ofMentions, codes_gathered_mentions]

end Draft

/-! ## Merging drafts -/

namespace PropertyMap

/-- All ways to merge drafts into a map lead to one map. -/
structure Confluent (m : PropertyMap) (ds : List Draft) (grown : PropertyMap) : Prop where
  /-- The drafts can be merged one after the other in any order, and each may give its entries in
  any order. -/
  inTurn : ∀ ds' ess, ds'.Perm ds → List.Forall₂ (fun es d => es.Perm d.entries) ess ds' →
    m.mergeInTurn ess = (grown, .ok ())
  /-- The drafts can be put together. -/
  concatenated : ∃ whole : Draft, whole.Concatenates ds
  /-- Put together, they can be merged at once. -/
  atOnce : ∀ whole : Draft, whole.Concatenates ds → ∀ es, es.Perm whole.entries →
    m.mergeEntries es = (grown, .ok ())
  /-- None of the drafts changes the map when it is merged again. -/
  again : ∀ d ∈ ds, ∀ es, es.Perm d.entries → grown.mergeEntries es = (grown, .ok ())
  /-- The names are those of the map and of the drafts. -/
  has : ∀ kind name, grown.Has kind name ↔
    m.Has kind name ∨ ∃ d ∈ ds, ∃ e ∈ d.entries, e.kind = kind ∧ e.name = name
  /-- The codes of a name are those that it had and those that the drafts list. -/
  holds : ∀ kind name code, grown.Holds kind name code ↔
    m.Holds kind name code ∨ ∃ d ∈ ds, d.Lists kind name code

/-- Drafts in which each name has one kind are merged into a map in any order, all at once or one
after the other, and as often as one likes. -/
theorem mergeInTurn_confluent {m : PropertyMap} {ds : List Draft}
    (h : OneKind m (ds.flatMap Draft.entries)) : ∃ grown, Confluent m ds grown := by
  obtain ⟨grown, hgrown⟩ := exists_mergeEntries h
  refine ⟨grown, Confluent.mk ?inTurn (Draft.exists_concatenates h.listed) ?atOnce ?again ?has
    ?holds⟩
  case inTurn =>
    intro ds' ess hds hess
    have hflatten : ess.flatten.Perm (ds'.flatMap Draft.entries) := by
      rw [List.flatMap_def]
      exact List.Perm.flatten_congr (List.forall₂_map_right_iff.2 hess)
    have hperm := (hflatten.trans (hds.flatMap_right Draft.entries)).symm
    rw [mergeInTurn_eq]
    exact mergeEntries_congr h hgrown (.of_perm hperm)
  case atOnce =>
    intro whole hwhole es hes
    have hmerged := mergeEntries_congr h hgrown hwhole.sameContents
    exact mergeEntries_congr (h.congr hwhole.sameContents) hmerged (.of_perm hes.symm)
  case again =>
    intro d hd es hes
    refine mergeEntries_again hgrown fun e he => ?_
    exact List.mem_flatMap.2 ⟨d, hd, hes.subset he⟩
  case has =>
    intro kind name
    rw [has_mergeEntries hgrown]
    simp only [List.mem_flatMap]
    grind
  case holds =>
    intro kind name code
    rw [holds_mergeEntries hgrown]
    simp only [List.mem_flatMap, Draft.Lists]
    grind

/-- Two drafts that overlap with each other and with the map, with codes out of order and a code
twice. -/
theorem mergeInTurn_confluent_latin :
    let m : PropertyMap := NameMap.empty.insert "Latin" (.ofCodes .script [0x41])
    let ds := [Draft.empty.extend .script "Latin" [⟨0x42, 0x43⟩, .single 0x41, .single 0x41],
      (Draft.empty.push .script "Greek" 0x3B1).extend .script "Latin" [⟨0x61, 0x5A⟩, ⟨0x43, 0x44⟩]]
    OneKind m (ds.flatMap Draft.entries) ∧ ∃ grown, Confluent m ds grown ∧
      grown.Holds .script "Latin" 0x44 ∧ ¬ grown.Holds .script "Latin" 0x61 := by
  intro m ds
  have honeKind : OneKind m (ds.flatMap Draft.entries) := by
    refine ⟨fun e he kind hkind => ?_, by decide⟩
    have hscript : ∀ e ∈ ds.flatMap Draft.entries, e.kind = .script := by decide
    rcases has_insert.1 hkind with ⟨-, rfl⟩ | ⟨-, hempty⟩
    · exact (hscript e he).symm
    · exact absurd hempty (not_has_empty _ _)
  obtain ⟨grown, hgrown⟩ := mergeInTurn_confluent honeKind
  have hlisted : ∃ d ∈ ds, ∃ e ∈ d.entries,
      e.kind = .script ∧ e.name = "Latin" ∧ 0x44 ∈ e.codes := by decide
  have hunlisted : ¬ ∃ d ∈ ds, ∃ e ∈ d.entries,
      e.kind = .script ∧ e.name = "Latin" ∧ 0x61 ∈ e.codes := by decide
  refine ⟨honeKind, grown, hgrown, (hgrown.holds _ _ _).2 (.inr hlisted), fun hcode => ?_⟩
  rcases (hgrown.holds _ _ _).1 hcode with hmap | hdrafts
  · rcases holds_insert.1 hmap with ⟨-, -, hcode⟩ | ⟨hne, -⟩
    · exact absurd (Property.mem_ofCodes.1 hcode) (by decide)
    · exact hne rfl
  · exact hunlisted hdrafts

end PropertyMap

end UcdTables
