import UcdTables.Proofs.Database.Errors
import UcdTables.Proofs.Program.Writing
import UcdTables.Proofs.Property.MergeOutcome

/-!
# The failures of a build

A build fails at its input, at a name of two properties or at an empty class. It never fails for
want of a partition or of a class, and no computation with its codes leaves its type.

The drafts of a build give their entries in some order, and nothing of this depends on it.

* `Passes.exact`: the maps that a build goes through hold codes of the code space only.
* `Meets.explained`: the errors that a build can meet, stage by stage.
* `build_sound`: the errors of a build, and what each of them says of its databases.
-/

namespace UcdTables

/-! ## The maps that a build goes through -/

/-- The maps that a build goes through, the one that it stops at included: while the categories are
merged, while the scripts are merged and while the classes are added. The entries of a draft may
come in any order. -/
inductive Passes (characters : Except BuildError String)
    (scripts : Option (Except BuildError String)) : PropertyMap → Prop
  | categories {us d es} : characters >>= CharacterRecord.ofText = .ok us →
      categoryDraft us = .ok d → es ⊆ d.entries →
      Passes characters scripts (PropertyMap.mergeEntries .empty es).1
  | scripts {us d c ss es} : characters >>= CharacterRecord.ofText = .ok us →
      categoryDraft us = .ok d → PropertyMap.merged .empty d = .ok c →
      scriptRecords scripts = .ok ss → es ⊆ (scriptDraft ss).entries →
      Passes characters scripts (c.mergeEntries es).1
  | classes {us d c ss s n} : characters >>= CharacterRecord.ofText = .ok us →
      categoryDraft us = .ok d → PropertyMap.merged .empty d = .ok c →
      scriptRecords scripts = .ok ss → c.merged (scriptDraft ss) = .ok s →
      Passes characters scripts (s.addClasses (posixRules.take n)).1

/-- Computations with the codes of a map stay within the types of their results. -/
structure PropertyMap.Exact (m : PropertyMap) : Prop where
  /-- A code is an index of the code space. -/
  index : ∀ kind name code, m.Holds kind name code → code.toNat < lastCode.toNat + 1
  /-- A code has a next one. -/
  next : ∀ kind name code, m.Holds kind name code → (code + 1).toNat = code.toNat + 1
  /-- The codes of a set ascend. -/
  ascending : ∀ name p, m.find? name = some p → p.codes.codes.Pairwise (· < ·)
  /-- The length of a range is a word. -/
  length : ∀ name p, m.find? name = some p →
    ∀ r ∈ p.codes.toRanges, (r.last - r.first + 1).toNat = r.size

theorem CodeRange.toNat_length {r : CodeRange} (hle : r.first.toNat ≤ r.last.toNat)
    (hlast : r.last ≤ lastCode) : (r.last - r.first + 1).toNat = r.size := by
  have hsub : (r.last - r.first).toNat = r.last.toNat - r.first.toNat :=
    UInt32.toNat_sub_of_le _ _ (UInt32.le_iff_toNat_le.2 hle)
  have hbound := UInt32.le_iff_toNat_le.1 hlast
  have hword : r.last - r.first ≤ lastCode := by
    rw [UInt32.le_iff_toNat_le]
    omega
  rw [toNat_add_one hword, hsub, CodeRange.size]
  omega

theorem PropertyMap.Bounded.exact {m : PropertyMap} (h : m.Bounded) : m.Exact := by
  refine Exact.mk ?index ?next ?ascending ?length
  case index =>
    intro kind name code hcode
    exact Nat.lt_succ_of_le (UInt32.le_iff_toNat_le.1 (h kind name code hcode))
  case next =>
    intro kind name code hcode
    exact toNat_add_one (h kind name code hcode)
  case ascending =>
    intro name p _
    exact p.codes.pairwise_codes
  case length =>
    intro name p hp r hr
    have hlast := h p.kind name r.last ⟨p, hp, rfl, (CodeSet.bounds_mem hr).2⟩
    exact CodeRange.toNat_length (p.codes.canonical.inhabited r hr).toNat_le hlast

/-- The maps that a build goes through hold codes of the code space only. -/
theorem Passes.exact {characters : Except BuildError String}
    {scripts : Option (Except BuildError String)} {m : PropertyMap}
    (h : Passes characters scripts m) : m.Exact := by
  cases h with
  | categories _ hd hes => exact (bounded_categories hd hes).exact
  | scripts _ hd hc _ hes => exact (bounded_scripts hd hc hes).exact
  | classes _ hd hc _ hs => exact (bounded_classes hd hc hs _).exact

/-! ## The errors -/

section Duplicates

variable {us : List CharacterRecord} {ss : List ScriptRange} {d : Draft} {c s : PropertyMap}
  {e : BuildError}

/-- A name stands for a script and for a property of another kind. -/
def SharedScript (us : List CharacterRecord) (ss : List ScriptRange) (name : String) : Prop :=
  (∃ r ∈ ss, r.script = name) ∧ ∃ kind, kind ≠ .script ∧ Named us ss name kind

theorem duplicate_of_merges (hd : categoryDraft us = .ok d)
    (hc : PropertyMap.merged .empty d = .ok c) (h : c.Merges (scriptDraft ss) s (.error e)) :
    ∃ name, e = .duplicateProperty name ∧ SharedScript us ss name := by
  obtain ⟨entry, hentry, rfl, kind, hhas, hne⟩ := h.exists_entry
  obtain ⟨hkind, hscript⟩ := exists_entry_scriptDraft_iff.1 ⟨entry, hentry, rfl, rfl⟩
  rw [hkind] at hne
  exact ⟨entry.name, rfl, hscript, kind, hne, named_of_has_categories hd hc hhas⟩

/-- A name of two letters is that of one class, and no class has a name of one letter. -/
theorem eq_of_nameIn_eq_className {rule : ClassRule} (hrule : rule ∈ posixRules)
    {kind : PropertyKind} (hkind : kind ∈ Category.kinds) {g : Category}
    (hname : g.nameIn kind = rule.name) : kind = .generalCategory ∧ rule.name = "LC" := by
  have hlengths : ∀ rule ∈ posixRules, rule.name.toList.length ≠ 1 ∧
      (rule.name.toList.length = 2 → rule.name = "LC") := by decide
  obtain ⟨hone, htwo⟩ := hlengths rule hrule
  have hlength := Category.length_nameIn hkind g
  rw [hname] at hlength
  obtain rfl | rfl := Category.mem_kinds_iff.1 hkind
  · exact ⟨rfl, htwo hlength⟩
  · exact absurd hlength hone

theorem duplicate_of_classes (hd : categoryDraft us = .ok d)
    (hc : PropertyMap.merged .empty d = .ok c) (hs : c.merged (scriptDraft ss) = .ok s)
    (h : (s.addClasses posixRules).2 = .error e) :
    ∃ name, e = .duplicateProperty name ∧
      (SharedScript us ss name ∨ (name = "LC" ∧ ∃ r ∈ us, r.category.name = "LC")) := by
  obtain ⟨rule, hrule, rfl, kind, hhas⟩ :=
    PropertyMap.addClasses_eq_error ClassRule.inOrder_posixRules (by simp) h
  refine ⟨rule.name, rfl, ?_⟩
  have hcategory : ∀ kind ∈ Category.kinds, ∀ code g, HasCategory us code g →
      g.nameIn kind = rule.name → rule.name = "LC" ∧ ∃ r ∈ us, r.category.name = "LC" := by
    intro kind hkind code g hg hname
    obtain ⟨rfl, hLC⟩ := eq_of_nameIn_eq_className hrule hkind hname
    refine ⟨hLC, ?_⟩
    have hgLC : g.name = "LC" := hname.trans hLC
    rcases hg.exists_record with rfl | ⟨r, hr, rfl⟩
    · exact absurd hgLC (by decide)
    · exact ⟨r, hr, hgLC⟩
  obtain ⟨hne, hnamed⟩ := (has_scripts hd hc hs).1 hhas
  cases kind with
  | generalCategory =>
    obtain ⟨code, g, hg, hname⟩ := hnamed
    exact .inr (hcategory _ Category.generalCategory_mem_kinds code g hg hname)
  | majorCategory =>
    obtain ⟨code, g, hg, hname⟩ := hnamed
    exact .inr (hcategory _ Category.majorCategory_mem_kinds code g hg hname)
  | script => exact .inl ⟨hnamed, .posixClass, by decide, rule, hrule, rfl⟩
  | posixClass => exact absurd rfl hne

end Duplicates

/-- What an error says of the databases of a build: a property is defined twice only as a script
and something else or as the category `LC`, and only a class can be empty. -/
def BuildError.Explained (characters : Except BuildError String)
    (scripts : Option (Except BuildError String)) : BuildError → Prop
  | malformedRecord _ _ | ordering _ _ _ | file _ _ => True
  | duplicateProperty name =>
    ∃ us ss, characters >>= CharacterRecord.ofText = .ok us ∧ scriptRecords scripts = .ok ss ∧
      (SharedScript us ss name ∨ (name = "LC" ∧ ∃ r ∈ us, r.category.name = "LC"))
  | emptyProperty name =>
    ∃ us ss, characters >>= CharacterRecord.ofText = .ok us ∧ scriptRecords scripts = .ok ss ∧
      name ∈ possiblyEmptyClasses ∧ ∀ kind, Named us ss name kind → kind = .posixClass
  | unresolvedClass _ _ | partition _ _ | outsideCodeSpace _ => False

/-- The errors that a build can meet before it writes, stage by stage. The entries of a draft may
come in any order. -/
inductive Meets (characters : Except BuildError String)
    (scripts : Option (Except BuildError String)) : BuildError → Prop
  /-- The character database cannot be read. -/
  | characters {e} : characters >>= CharacterRecord.ofText = .error e → Meets characters scripts e
  /-- Categories cannot be assigned to its records. -/
  | categories {us e} : characters >>= CharacterRecord.ofText = .ok us →
      categoryDraft us = .error e → Meets characters scripts e
  /-- The categories cannot be merged. -/
  | mergingCategories {us d c e} : characters >>= CharacterRecord.ofText = .ok us →
      categoryDraft us = .ok d → PropertyMap.Merges .empty d c (.error e) →
      Meets characters scripts e
  /-- The categories do not partition the code space. -/
  | partition {us d c e} : characters >>= CharacterRecord.ofText = .ok us →
      categoryDraft us = .ok d → PropertyMap.Merges .empty d c (.ok ()) →
      c.checkPartition = .error e → Meets characters scripts e
  /-- The script database cannot be read. -/
  | scripts {e} : scriptRecords scripts = .error e → Meets characters scripts e
  /-- The scripts cannot be merged. -/
  | mergingScripts {us d c ss s e} : characters >>= CharacterRecord.ofText = .ok us →
      categoryDraft us = .ok d → PropertyMap.Merges .empty d c (.ok ()) →
      scriptRecords scripts = .ok ss → c.Merges (scriptDraft ss) s (.error e) →
      Meets characters scripts e
  /-- The classes cannot be added. -/
  | classes {us d c ss s e} : characters >>= CharacterRecord.ofText = .ok us →
      categoryDraft us = .ok d → PropertyMap.Merges .empty d c (.ok ()) →
      scriptRecords scripts = .ok ss → c.Merges (scriptDraft ss) s (.ok ()) →
      (s.addClasses posixRules).2 = .error e → Meets characters scripts e
  /-- A property has no table. -/
  | tables {us d c ss s m e} : characters >>= CharacterRecord.ofText = .ok us →
      categoryDraft us = .ok d → PropertyMap.Merges .empty d c (.ok ()) →
      scriptRecords scripts = .ok ss → c.Merges (scriptDraft ss) s (.ok ()) →
      s.addClasses posixRules = (m, .ok ()) → m.rangeTables = .error e →
      Meets characters scripts e

section Explained

open PropertyMap (merges_ok_iff exists_merges_of_merged)

variable {characters : Except BuildError String} {scripts : Option (Except BuildError String)}
  {e : BuildError}

theorem BuildError.OfInput.explained (h : e.OfInput) : e.Explained characters scripts := by
  cases e with
  | malformedRecord _ _ => trivial
  | ordering _ _ _ => trivial
  | file _ _ => trivial
  | emptyProperty _ => cases h
  | unresolvedClass _ _ => cases h
  | duplicateProperty _ => cases h
  | partition _ _ => cases h
  | outsideCodeSpace _ => cases h

theorem Grows.explained {us : List CharacterRecord} {ss : List ScriptRange} {c s m : PropertyMap}
    (hus : characters >>= CharacterRecord.ofText = .ok us) (hss : scriptRecords scripts = .ok ss)
    (hgrows : Grows us ss c s m) (h : m.rangeTables = .error e) :
    e.Explained characters scripts := by
  obtain ⟨kind, name, rfl, hhas, hempty⟩ := PropertyMap.rangeTables_eq_error h
  obtain ⟨rfl, hname⟩ := hgrows.mem_possiblyEmptyClasses hhas hempty
  refine ⟨us, ss, hus, hss, hname, fun kind hnamed => ?_⟩
  exact (hgrows.has_iff.2 hnamed).kind_unique hhas

/-- A build without tables fails as it can in some order. -/
theorem TablesFail.meets (h : TablesFail characters scripts e) : Meets characters scripts e := by
  cases h with
  | characters hread => exact .characters hread
  | categories hus hdraft => exact .categories hus hdraft
  | scripts hread => exact .scripts hread
  | merging hus hss hd hc hmerged =>
    obtain ⟨s, hs⟩ := exists_merges_of_merged hmerged
    exact .mergingScripts hus hd (merges_ok_iff.2 hc) hss hs
  | classes hus hss hd hc hs hclasses =>
    exact .classes hus hd (merges_ok_iff.2 hc) hss (merges_ok_iff.2 hs) hclasses
  | tables hus hss hgrows htables =>
    obtain ⟨d, hd, hc⟩ := hgrows.drafted
    exact .tables hus hd (merges_ok_iff.2 hc) hss (merges_ok_iff.2 hgrows.merged) hgrows.added
      htables

/-- An error that a build meets is one of the input, or else says which property is at fault. -/
theorem Meets.explained (hcharacters : ∀ e, characters = .error e → e.OfInput)
    (hscripts : ∀ source ∈ scripts, ∀ e, source = .error e → e.OfInput)
    (h : Meets characters scripts e) : e.Explained characters scripts := by
  cases h with
  | characters hread =>
    rcases bind_eq_error_iff.1 hread with hfile | ⟨text, -, htext⟩
    · exact (hcharacters e hfile).explained
    · exact (CharacterRecord.ofInput_of_ofText htext).explained
  | categories _ hdraft => exact (ofInput_of_categoryDraft hdraft).explained
  | mergingCategories _ _ hmerges =>
    obtain ⟨entry, -, -, kind, hhas, -⟩ := hmerges.exists_entry
    exact absurd hhas (PropertyMap.not_has_empty kind entry.name)
  | partition _ hd hc hcheck =>
    cases hcheck.symm.trans (checkPartition_of_categoryDraft hd (merges_ok_iff.1 hc))
  | scripts hread =>
    cases scripts with
    | none => cases hread
    | some source =>
      rcases bind_eq_error_iff.1 hread with hfile | ⟨text, -, htext⟩
      · exact (hscripts source rfl e hfile).explained
      · exact (ScriptRange.ofInput_of_ofText htext).explained
  | mergingScripts hus hd hc hss hmerges =>
    obtain ⟨name, rfl, hshared⟩ := duplicate_of_merges hd (merges_ok_iff.1 hc) hmerges
    exact ⟨_, _, hus, hss, .inl hshared⟩
  | classes hus hd hc hss hs hclasses =>
    obtain ⟨name, rfl, hname⟩ :=
      duplicate_of_classes hd (merges_ok_iff.1 hc) (merges_ok_iff.1 hs) hclasses
    exact ⟨_, _, hus, hss, hname⟩
  | tables hus hd hc hss hs hadded htables =>
    have hgrows : Grows _ _ _ _ _ :=
      ⟨⟨_, hd, merges_ok_iff.1 hc⟩, merges_ok_iff.1 hs, hadded⟩
    exact hgrows.explained hus hss htables

end Explained

namespace FileTree

theorem ofInput_of_readDatabase {files : FileTree} {path : String} {e : BuildError}
    (h : files.readDatabase path = .error e) : e.OfInput := by
  unfold readDatabase at h
  cases hread : files.readText path with
  | error reason =>
    rw [hread] at h
    cases h
    trivial
  | ok text =>
    rw [hread] at h
    cases h

/-- What holds of a build, however it ends. -/
structure Sound (files : FileTree) (paths : BuildPaths) : Prop where
  /-- The code of a record has a next one. -/
  next : ∀ us, files.readDatabase paths.characters >>= CharacterRecord.ofText = .ok us →
    ∀ r ∈ us, (r.code.val + 1).toNat = r.code.val.toNat + 1
  /-- In all maps that the build goes through, the codes lie in the code space. -/
  exact : ∀ m, Passes (files.readDatabase paths.characters)
    (paths.scripts.map files.readDatabase) m → m.Exact
  /-- The error of the build is one of the input, or else says which property is at fault. -/
  explained : ∀ e, (files.build paths).2.result = .error e →
    e.Explained (files.readDatabase paths.characters) (paths.scripts.map files.readDatabase)
  /-- So is, at each stage, any error that the build can meet, whatever the order in which the
  entries of a draft come. -/
  anyOrder : ∀ e, Meets (files.readDatabase paths.characters)
      (paths.scripts.map files.readDatabase) e →
    e.Explained (files.readDatabase paths.characters) (paths.scripts.map files.readDatabase)

/-- A build never fails for want of a partition or of a class that another reads; a name that is
taken and a property that is empty have to be certain ones. -/
theorem build_sound (files : FileTree) (paths : BuildPaths) : Sound files paths := by
  have hmeets : ∀ e, Meets (files.readDatabase paths.characters)
      (paths.scripts.map files.readDatabase) e →
      e.Explained (files.readDatabase paths.characters) (paths.scripts.map files.readDatabase) := by
    intro e he
    refine he.explained (fun e => ofInput_of_readDatabase) ?_
    intro source hsource e he
    obtain ⟨path, -, rfl⟩ := Option.map_eq_some_iff.1 hsource
    exact ofInput_of_readDatabase he
  refine Sound.mk ?next (fun m hm => hm.exact) ?explained hmeets
  case next =>
    intro us _ r _
    exact toNat_add_one r.code.property
  case explained =>
    intro e he
    have hends := build_ends files paths
    rw [he] at hends
    generalize (files.build paths).1 = left at hends
    cases hends with
    | noTables htables => exact hmeets e (tablesOf_eq_error htables).meets
    | noOutput _ _ => trivial
    | noStatistics _ _ _ _ => trivial

end FileTree

end UcdTables
