import UcdTables.Proofs.Class.Posix
import UcdTables.Proofs.Database.CategoryDraft
import UcdTables.Proofs.Database.ScriptDraft

/-!
# The properties of two databases

Which properties a character database and a script database name, and which codes these hold. Both
are read off the records and the class rules alone.

* `Named`, `Specified`: the names and the codes.
* `Specified.unique`: the codes are determined.
* `Grows.has_iff`, `Grows.holds_iff`: the map that a build makes has just these.
-/

namespace UcdTables

variable (us : List CharacterRecord) (ss : List ScriptRange)

/-- The databases name a property of a kind: the categories that some code has, the scripts of the
records and the POSIX classes. -/
def Named (name : String) : PropertyKind → Prop
  | .generalCategory => ∃ code g, HasCategory us code g ∧ g.name = name
  | .majorCategory => ∃ code g, HasCategory us code g ∧ g.majorName = name
  | .script => ∃ r ∈ ss, r.script = name
  | .posixClass => ∃ rule ∈ posixRules, rule.name = name

/-- The databases give a code to the property of a name and kind. A class has the codes that its
rule gives, `held` being the codes that all properties hold. -/
def Specified (held : PropertyKind → String → Code → Prop) (name : String) (code : Code) :
    PropertyKind → Prop
  | .generalCategory => ∃ g, HasCategory us code g ∧ g.name = name
  | .majorCategory => ∃ g, HasCategory us code g ∧ g.majorName = name
  | .script => ∃ r ∈ ss, r.script = name ∧ code ∈ r.range
  | .posixClass => ∃ rule ∈ posixRules, rule.name = name ∧ rule.Gives held code

variable {us ss} in
/-- A property that has a code is named. -/
theorem Specified.named {held : PropertyKind → String → Code → Prop} {name : String} {code : Code}
    {kind : PropertyKind} (h : Specified us ss held name code kind) : Named us ss name kind := by
  cases kind with
  | generalCategory => exact ⟨code, h⟩
  | majorCategory => exact ⟨code, h⟩
  | script =>
    obtain ⟨r, hr, hname, -⟩ := h
    exact ⟨r, hr, hname⟩
  | posixClass =>
    obtain ⟨rule, hrule, hname, -⟩ := h
    exact ⟨rule, hrule, hname⟩

variable {us ss} in
/-- The codes of a class are those that its rule gives. -/
theorem specified_posixClass_iff {held : PropertyKind → String → Code → Prop} {rule : ClassRule}
    (hrule : rule ∈ posixRules) {code : Code} :
    Specified us ss held rule.name code .posixClass ↔ rule.Gives held code := by
  have hnodup : (posixRules.map (·.name)).Nodup := by decide
  constructor
  · intro hleft
    obtain ⟨other, hother, hname, hgives⟩ := hleft
    obtain rfl := List.inj_on_of_nodup_map hnodup hother hrule hname
    exact hgives
  · intro hgives
    exact ⟨rule, hrule, rfl, hgives⟩

variable {us ss} in
/-- The codes of all properties are determined by the databases. -/
theorem Specified.unique {held held' : PropertyKind → String → Code → Prop}
    (h : ∀ kind name code, held kind name code ↔ Specified us ss held name code kind)
    (h' : ∀ kind name code, held' kind name code ↔ Specified us ss held' name code kind) :
    held = held' := by
  funext kind name code
  apply propext
  refine ClassRule.inOrder_posixRules.agree (by simp) ?_ ?_ ?_ kind name code
  · intro rule hrule code
    rw [h, specified_posixClass_iff hrule]
  · intro rule hrule code
    rw [h', specified_posixClass_iff hrule]
  · intro kind name code hcases
    rw [h, h']
    cases kind with
    | generalCategory => rfl
    | majorCategory => rfl
    | script => rfl
    | posixClass =>
      have hname : ∀ rule ∈ posixRules, rule.name ≠ name := by
        rintro rule hrule rfl
        exact hcases.elim (fun hkind => hkind rfl) fun hname =>
          hname (List.mem_map_of_mem hrule)
      constructor
      · intro hleft
        obtain ⟨rule, hrule, hsame, -⟩ := hleft
        exact absurd hsame (hname rule hrule)
      · intro hright
        obtain ⟨rule, hrule, hsame, -⟩ := hright
        exact absurd hsame (hname rule hrule)

/-- The maps of a build: with the categories, then with the scripts, then with the classes. -/
structure Grows (categories scripts classes : PropertyMap) : Prop where
  drafted : ∃ d, categoryDraft us = .ok d ∧ PropertyMap.merged .empty d = .ok categories
  merged : categories.merged (scriptDraft ss) = .ok scripts
  added : scripts.addClasses posixRules = (classes, .ok ())

variable {us ss}

/-! ## The categories -/

section Categories

variable {d : Draft} {m : PropertyMap}

theorem holds_categories (h : categoryDraft us = .ok d) (hm : PropertyMap.merged .empty d = .ok m)
    {kind : PropertyKind} {name : String} {code : Code} :
    m.Holds kind name code ↔
      kind ∈ Category.kinds ∧ ∃ g, HasCategory us code g ∧ g.nameIn kind = name := by
  rw [PropertyMap.holds_merged_empty hm]
  constructor
  · intro hleft
    obtain ⟨e, he, rfl, rfl, hcode⟩ := hleft
    exact exists_category_of_mem_codes h he hcode
  · intro hright
    obtain ⟨hkind, hg⟩ := hright
    exact (lists_categoryDraft h hkind).2 hg

theorem has_categories (h : categoryDraft us = .ok d) (hm : PropertyMap.merged .empty d = .ok m)
    {kind : PropertyKind} {name : String} :
    m.Has kind name ↔ ∃ code, m.Holds kind name code := by
  constructor
  · intro hhas
    rcases (PropertyMap.has_merged hm).1 hhas with hempty | ⟨e, he, rfl, rfl⟩
    · exact absurd hempty (PropertyMap.not_has_empty kind name)
    · obtain ⟨code, hcode⟩ :=
        List.exists_mem_of_ne_nil _ ((listsCategories_of_categoryDraft h).inhabited e he)
      exact ⟨code, (PropertyMap.holds_merged_empty hm).2 ⟨e, he, rfl, rfl, hcode⟩⟩
  · intro hright
    obtain ⟨code, hcode⟩ := hright
    exact hcode.has

theorem named_of_has_categories (h : categoryDraft us = .ok d)
    (hm : PropertyMap.merged .empty d = .ok m) {kind : PropertyKind} {name : String}
    (hhas : m.Has kind name) : Named us ss name kind := by
  obtain ⟨code, hcode⟩ := (has_categories h hm).1 hhas
  obtain ⟨hkind, g, hg⟩ := (holds_categories h hm).1 hcode
  obtain rfl | rfl := Category.mem_kinds_iff.1 hkind
  · exact ⟨code, g, hg⟩
  · exact ⟨code, g, hg⟩

end Categories

/-! ## The scripts -/

section Scripts

variable {d : Draft} {c s : PropertyMap}

theorem has_scripts (h : categoryDraft us = .ok d) (hc : PropertyMap.merged .empty d = .ok c)
    (hs : c.merged (scriptDraft ss) = .ok s) {kind : PropertyKind} {name : String} :
    s.Has kind name ↔ kind ≠ .posixClass ∧ Named us ss name kind := by
  rw [PropertyMap.has_merged hs, exists_entry_scriptDraft_iff, has_categories h hc]
  simp only [holds_categories h hc]
  cases kind <;> simp [Named, Category.kinds, Category.nameIn]

theorem holds_scripts (h : categoryDraft us = .ok d) (hc : PropertyMap.merged .empty d = .ok c)
    (hs : c.merged (scriptDraft ss) = .ok s) (held : PropertyKind → String → Code → Prop)
    {kind : PropertyKind} {name : String} {code : Code} :
    s.Holds kind name code ↔ kind ≠ .posixClass ∧ Specified us ss held name code kind := by
  rw [PropertyMap.holds_merged hs, lists_scriptDraft, holds_categories h hc]
  cases kind <;> simp [Specified, Category.kinds, Category.nameIn]

end Scripts

/-! ## Codes of the code space -/

section Bounded

variable {d : Draft} {c s : PropertyMap}

theorem bounded_categories (h : categoryDraft us = .ok d) {es : List DraftEntry}
    (hes : es ⊆ d.entries) : (PropertyMap.mergeEntries .empty es).1.Bounded :=
  PropertyMap.bounded_mergeEntries PropertyMap.bounded_empty fun e he =>
    (listsCategories_of_categoryDraft h).bounded e (hes he)

theorem bounded_scripts (h : categoryDraft us = .ok d) (hc : PropertyMap.merged .empty d = .ok c)
    {es : List DraftEntry} (hes : es ⊆ (scriptDraft ss).entries) :
    (c.mergeEntries es).1.Bounded := by
  have hcategories : c.Bounded := by
    have hall := bounded_categories h (List.Subset.refl d.entries)
    rwa [PropertyMap.merged_eq_ok_iff.1 hc] at hall
  exact PropertyMap.bounded_mergeEntries hcategories fun e he _ hcode =>
    le_lastCode_of_mem_scriptDraft (hes he) hcode

theorem bounded_classes (h : categoryDraft us = .ok d) (hc : PropertyMap.merged .empty d = .ok c)
    (hs : c.merged (scriptDraft ss) = .ok s) (n : Nat) :
    (s.addClasses (posixRules.take n)).1.Bounded := by
  have hscripts : s.Bounded := by
    have hall := bounded_scripts h hc (List.Subset.refl (scriptDraft ss).entries)
    rwa [PropertyMap.merged_eq_ok_iff.1 hs] at hall
  exact PropertyMap.bounded_addClasses hscripts fun rule hrule =>
    bounded_posixRules rule (List.mem_of_mem_take hrule)

end Bounded

/-! ## All properties -/

namespace Grows

variable {categories scripts classes : PropertyMap}

/-- The map has the properties that the databases name. -/
theorem has_iff (h : Grows us ss categories scripts classes) {kind : PropertyKind}
    {name : String} : classes.Has kind name ↔ Named us ss name kind := by
  obtain ⟨d, hd, hc⟩ := h.drafted
  rw [PropertyMap.has_addClasses h.added, has_scripts hd hc h.merged]
  cases kind <;> simp [Named, ClassRule.names]

/-- The equations of the classes hold over the map. -/
theorem gives (h : Grows us ss categories scripts classes) :
    ∀ rule ∈ posixRules, ∀ code,
      classes.Holds .posixClass rule.name code ↔ rule.Gives classes.Holds code :=
  PropertyMap.gives_addClasses ClassRule.inOrder_posixRules (by simp) h.added

/-- The properties hold the codes that the databases give them. -/
theorem holds_iff (h : Grows us ss categories scripts classes) {kind : PropertyKind}
    {name : String} {code : Code} :
    classes.Holds kind name code ↔ Specified us ss classes.Holds name code kind := by
  by_cases hkind : kind = .posixClass
  · subst hkind
    constructor
    · intro hcode
      obtain ⟨rule, hrule, rfl⟩ := h.has_iff.1 hcode.has
      exact ⟨rule, hrule, rfl, (h.gives rule hrule code).1 hcode⟩
    · intro hright
      obtain ⟨rule, hrule, rfl, hcode⟩ := hright
      exact (h.gives rule hrule code).2 hcode
  · -- the name of another kind is not that of a class, so adding the classes leaves it alone
    have hscripts : classes.Holds kind name code ↔ scripts.Holds kind name code := by
      constructor
      · intro hcode
        have hname : name ∉ ClassRule.names posixRules := fun hname =>
          hkind (hcode.has.kind_unique ((PropertyMap.has_addClasses h.added).2 (.inr ⟨rfl, hname⟩)))
        exact (PropertyMap.holds_addClasses_of_not_mem h.added hname).1 hcode
      · intro hcode
        have hname : name ∉ ClassRule.names posixRules := fun hname =>
          PropertyMap.not_has_of_addClasses h.added name hname kind hcode.has
        exact (PropertyMap.holds_addClasses_of_not_mem h.added hname).2 hcode
    obtain ⟨d, hd, hc⟩ := h.drafted
    rw [hscripts, holds_scripts hd hc h.merged classes.Holds]
    exact and_iff_right hkind

theorem bounded (h : Grows us ss categories scripts classes) : classes.Bounded := by
  obtain ⟨d, hd, hc⟩ := h.drafted
  have hall := bounded_classes hd hc h.merged posixRules.length
  rwa [List.take_length, h.added] at hall

/-- No property but a class can be empty. -/
theorem mem_possiblyEmptyClasses (h : Grows us ss categories scripts classes)
    {kind : PropertyKind} {name : String} (hname : classes.Has kind name)
    (hempty : ∀ code, ¬ classes.Holds kind name code) :
    kind = .posixClass ∧ name ∈ possiblyEmptyClasses := by
  have hnamed := h.has_iff.1 hname
  cases kind with
  | generalCategory =>
    obtain ⟨code, g, hg⟩ := hnamed
    exact (hempty code (h.holds_iff.2 ⟨g, hg⟩)).elim
  | majorCategory =>
    obtain ⟨code, g, hg⟩ := hnamed
    exact (hempty code (h.holds_iff.2 ⟨g, hg⟩)).elim
  | script =>
    obtain ⟨r, hr, hscript⟩ := hnamed
    exact (hempty r.first (h.holds_iff.2 ⟨r, hr, hscript, r.first_mem⟩)).elim
  | posixClass =>
    obtain ⟨rule, hrule, rfl⟩ := hnamed
    exact ⟨rfl, UcdTables.mem_possiblyEmptyClasses h.gives hrule hempty⟩

end Grows

end UcdTables
