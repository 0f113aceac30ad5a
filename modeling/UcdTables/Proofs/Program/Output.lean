import UcdTables.Proofs.Code.Unique
import UcdTables.Proofs.Program.Failures

/-!
# The output of a build

The tables that a build writes are determined by its databases: they have the properties that the
databases name, and these hold the codes that the databases give them.

* `Tabulates`: what tables say of two databases.
* `Tabulates.unique`: two databases have one list of tables.
* `exists_tables`: when there are tables.
* `build_tabulates`: the output of a build that succeeds.
-/

namespace UcdTables

/-- Tables of all properties that two databases name, in order and with their codes. -/
structure Tabulates (us : List CharacterRecord) (ss : List ScriptRange) (ts : List RangeTable) :
    Prop where
  /-- The names of the tables ascend. -/
  ascending : ts.Pairwise fun t t' => t.name < t'.name
  /-- There is a table for each property that the databases name, and for no other. -/
  listed : ∀ kind name, (∃ t ∈ ts, t.kind = kind ∧ t.name = name) ↔ Named us ss name kind
  /-- A table holds the codes that the databases give its property; the equations of the classes
  are read over the tables themselves. -/
  holds : ∀ t ∈ ts, ∀ code, CodeRange.Covers t.ranges code ↔
    Specified us ss (RangeTable.Holds ts) t.name code t.kind
  /-- A table has a range. -/
  inhabited : ∀ t ∈ ts, t.ranges ≠ []
  /-- The ranges of a table ascend with a gap between each two, and none is empty. -/
  canonical : ∀ t ∈ ts, CodeRange.Canonical t.ranges
  /-- The ranges lie in the code space. -/
  bounded : ∀ t ∈ ts, ∀ r ∈ t.ranges, r.last ≤ lastCode
  /-- No code lies in two entries of the character database, so it has one category. -/
  single : ∀ e e' : CharacterEntry, e.StandsIn us → e'.StandsIn us →
    ∀ code, code ∈ e.range → code ∈ e'.range → e = e'

/-- The tables of the map of all properties. -/
theorem Grows.tabulates {us : List CharacterRecord} {ss : List ScriptRange} {c s m : PropertyMap}
    (hgrows : Grows us ss c s m) {ts : List RangeTable} (h : m.rangeTables = .ok ts) :
    Tabulates us ss ts := by
  refine Tabulates.mk (PropertyMap.pairwise_rangeTables h) ?listed ?holds ?inhabited ?canonical
    ?bounded ?single
  case listed =>
    intro kind name
    rw [PropertyMap.exists_rangeTable_iff h]
    exact hgrows.has_iff
  case holds =>
    intro t ht code
    rw [PropertyMap.covers_rangeTables h ht, PropertyMap.holds_rangeTables h]
    exact hgrows.holds_iff
  case inhabited =>
    intro t ht
    exact (PropertyMap.canonical_rangeTables h ht).2
  case canonical =>
    intro t ht
    exact (PropertyMap.canonical_rangeTables h ht).1
  case bounded =>
    intro t ht r hr
    have hcanonical := (PropertyMap.canonical_rangeTables h ht).1
    have hlast : CodeRange.Covers t.ranges r.last :=
      ⟨r, hr, CodeRange.last_mem (hcanonical.inhabited r hr).toNat_le⟩
    exact hgrows.bounded _ _ _ ((PropertyMap.covers_rangeTables h ht).1 hlast)
  case single =>
    intro e e' he he' code hcode hcode'
    obtain ⟨d, hd, -⟩ := hgrows.drafted
    obtain ⟨as, has, -⟩ := categoryDraft_eq_ok_iff.1 hd
    exact he.unique has he' hcode hcode'

namespace Tabulates

variable {us : List CharacterRecord} {ss : List ScriptRange} {ts ts' : List RangeTable}

/-- The codes of all tables of a kind and name are those that the databases give them. -/
theorem holds_iff (h : Tabulates us ss ts) (kind : PropertyKind) (name : String) (code : Code) :
    RangeTable.Holds ts kind name code ↔
      Specified us ss (RangeTable.Holds ts) name code kind := by
  constructor
  · intro hleft
    obtain ⟨t, ht, rfl, rfl, hcode⟩ := hleft
    exact (h.holds t ht code).1 hcode
  · intro hcode
    obtain ⟨t, ht, rfl, rfl⟩ := (h.listed kind name).2 hcode.named
    exact ⟨t, ht, rfl, rfl, (h.holds t ht code).2 hcode⟩

/-- A table of one list is in the other. -/
private theorem mem_of_mem (h : Tabulates us ss ts) (h' : Tabulates us ss ts') {t : RangeTable}
    (ht : t ∈ ts) : t ∈ ts' := by
  have hheld := Specified.unique h.holds_iff h'.holds_iff
  obtain ⟨t', ht', hkind, hname⟩ := (h'.listed t.kind t.name).2
    ((h.listed t.kind t.name).1 ⟨t, ht, rfl, rfl⟩)
  have hranges : t.ranges = t'.ranges := by
    apply (h.canonical t ht).eq_of_covers (h'.canonical t' ht')
    intro code
    rw [h.holds t ht, h'.holds t' ht', hkind, hname, hheld]
  obtain rfl : t = t' := by
    cases t
    cases t'
    simp_all
  exact ht'

/-- Two databases have one list of tables. -/
theorem unique (h : Tabulates us ss ts) (h' : Tabulates us ss ts') : ts = ts' :=
  eq_of_ascending (·.name) h.ascending h'.ascending fun _ =>
    ⟨h.mem_of_mem h', h'.mem_of_mem h⟩

end Tabulates

/-- There are tables if categories can be assigned, no name stands for two properties and no class
turns out empty. -/
theorem exists_tables {characters : Except BuildError String}
    {scripts : Option (Except BuildError String)} {us : List CharacterRecord}
    {ss : List ScriptRange} {d : Draft}
    (hus : characters >>= CharacterRecord.ofText = .ok us) (hss : scriptRecords scripts = .ok ss)
    (hd : categoryDraft us = .ok d) (hshared : ∀ name, ¬ SharedScript us ss name)
    (hLC : ∀ r ∈ us, r.category.name ≠ "LC")
    (hclasses : ∀ held : PropertyKind → String → Code → Prop,
      (∀ kind name code, held kind name code ↔ Specified us ss held name code kind) →
      ∀ name ∈ possiblyEmptyClasses, ∃ code, held .posixClass name code) :
    ∃ ts, (tablesOf characters scripts).result = .ok ts := by
  apply eq_ok_of_forall_ne_error
  intro e he
  cases tablesOf_eq_error he with
  | characters hread => cases hus.symm.trans hread
  | categories hus' hdraft =>
    cases hus.symm.trans hus'
    cases hd.symm.trans hdraft
  | scripts hread => cases hss.symm.trans hread
  | merging hus' hss' hd' hc hmerged =>
    cases hus.symm.trans hus'
    cases hss.symm.trans hss'
    obtain ⟨s, hs⟩ := PropertyMap.exists_merges_of_merged hmerged
    obtain ⟨name, -, hname⟩ := duplicate_of_merges hd' hc hs
    exact hshared name hname
  | classes hus' hss' hd' hc hs hadded =>
    cases hus.symm.trans hus'
    cases hss.symm.trans hss'
    obtain ⟨name, -, hname | ⟨-, r, hr, hrLC⟩⟩ := duplicate_of_classes hd' hc hs hadded
    · exact hshared name hname
    · exact hLC r hr hrLC
  | tables hus' hss' hgrows htables =>
    cases hus.symm.trans hus'
    cases hss.symm.trans hss'
    obtain ⟨kind, name, -, hhas, hempty⟩ := PropertyMap.rangeTables_eq_error htables
    obtain ⟨rfl, hname⟩ := hgrows.mem_possiblyEmptyClasses hhas hempty
    obtain ⟨code, hcode⟩ := hclasses _ (fun kind name code => hgrows.holds_iff) name hname
    exact hempty code hcode

namespace FileTree

variable {files : FileTree} {paths : BuildPaths}

/-- A build that succeeds writes the tables of its databases, which are determined by these, to its
output, unless it writes the statistics to the same place. -/
theorem build_tabulates (h : (files.build paths).2.result = .ok ())
    (hplaces : ∀ path ∈ paths.statistics, files.placeOf path ≠ files.placeOf paths.output) :
    ∃ us ss ts, files.readDatabase paths.characters >>= CharacterRecord.ofText = .ok us ∧
      scriptRecords (paths.scripts.map files.readDatabase) = .ok ss ∧
      Tabulates us ss ts ∧ (∀ ts', Tabulates us ss ts' → ts' = ts) ∧
      (files.build paths).1.readText paths.output = .ok (RangeTable.arrays ts) := by
  have hends := build_ends files paths
  rw [h] at hends
  obtain ⟨ts, hts, houtput⟩ := hends.readText_of_ok hplaces
  obtain ⟨us, ss, c, s, m, hus, hss, hgrows, htables⟩ := tablesOf_eq_ok_iff.1 hts
  have htabulates := hgrows.tabulates htables
  exact ⟨us, ss, ts, hus, hss, htabulates, fun ts' h' => h'.unique htabulates, houtput⟩

end FileTree

/-! ## A build of small databases -/

namespace Sample

/-- A sign, a digit, two letters and a block of ideographs. -/
def characters : String :=
  "0021;!;Po\n0030;0;Nd\n0041;A;Lu\n0061;a;Ll\n3400;<CJK, First>;Lo\n4DB5;<CJK, Last>;Lo\n"

/-- The script of one letter. -/
def scripts : String := "0041 ; Latin # A\n"

/-- The databases in the working directory. -/
def files : FileTree :=
  ((FileTree.ofWorkingDirectory []).addFile ["u"] characters.toUTF8).addFile ["s"] scripts.toUTF8

/-- A build with scripts and statistics. -/
def paths : BuildPaths := ⟨"u", some "s", "o", some "p"⟩

/-- The records of the character database. -/
def characterRecords : List CharacterRecord := [
  ⟨1, ⟨0x21, by decide⟩, "!", { major := 'P', minor := 'o' }⟩,
  ⟨2, ⟨0x30, by decide⟩, "0", { major := 'N', minor := 'd' }⟩,
  ⟨3, ⟨0x41, by decide⟩, "A", { major := 'L', minor := 'u' }⟩,
  ⟨4, ⟨0x61, by decide⟩, "a", { major := 'L', minor := 'l' }⟩,
  ⟨5, ⟨0x3400, by decide⟩, "<CJK, First>", { major := 'L', minor := 'o' }⟩,
  ⟨6, ⟨0x4DB5, by decide⟩, "<CJK, Last>", { major := 'L', minor := 'o' }⟩]

/-- The record of the script database. -/
def scriptRanges : List ScriptRange :=
  [⟨1, ⟨0x41, by decide⟩, ⟨0x41, by decide⟩, "Latin", by decide⟩]

theorem read_characters :
    files.readDatabase "u" >>= CharacterRecord.ofText = .ok characterRecords := by decide +kernel

theorem read_scripts :
    scriptRecords (paths.scripts.map files.readDatabase) = .ok scriptRanges := by decide +kernel

/-- What the records assign. -/
def assigned : List Assignment := [
  ⟨.single 0x21, { major := 'P', minor := 'o' }⟩,
  ⟨.single 0x30, { major := 'N', minor := 'd' }⟩,
  ⟨.single 0x41, { major := 'L', minor := 'u' }⟩,
  ⟨.single 0x61, { major := 'L', minor := 'l' }⟩,
  ⟨⟨0x3400, 0x4DB5⟩, { major := 'L', minor := 'o' }⟩]

theorem ofRecords_eq : Assignment.ofRecords characterRecords = .ok assigned := rfl

section Held

variable {held : PropertyKind → String → Code → Prop}
  (hheld : ∀ kind name code,
    held kind name code ↔ Specified characterRecords scriptRanges held name code kind)

include hheld

/-- The names of properties that hold a code. -/
theorem exists_held {name : String} (hname : name ∈ ["Cn", "Ll", "Lu", "L", "Nd", "Po"]) :
    ∃ code kind, held kind name code := by
  have hassigned : ∀ name ∈ ["Cn", "Ll", "Lu", "L", "Nd", "Po"],
      ∃ a ∈ Assignment.fillGaps 0 assigned, a.range.Inhabited ∧
        (a.category.name = name ∨ a.category.majorName = name) := by decide
  obtain ⟨a, ha, hinhabited, hcategory⟩ := hassigned name hname
  have hg : HasCategory characterRecords a.range.first a.category :=
    (hasCategory_iff ofRecords_eq).2 ⟨a, ha, CodeRange.first_mem hinhabited.toNat_le, rfl⟩
  refine ⟨a.range.first, ?_⟩
  rcases hcategory with hname | hname
  · exact ⟨.generalCategory, (hheld _ _ _).2 ⟨a.category, hg, hname⟩⟩
  · exact ⟨.majorCategory, (hheld _ _ _).2 ⟨a.category, hg, hname⟩⟩

/-- The letter of the script is in no category but its own. -/
theorem not_held_letter {name : String} (hname : name ∈ ["Cn", "Cc", "Cs", "Zs", "Zl", "Zp"])
    (kind : PropertyKind) : ¬ held kind name 0x41 := by
  have hletter : HasCategory characterRecords 0x41 { major := 'L', minor := 'u' } :=
    (hasCategory_iff ofRecords_eq).2
      ⟨⟨.single 0x41, { major := 'L', minor := 'u' }⟩, by decide, by decide, rfl⟩
  intro hcode
  cases kind with
  | generalCategory =>
    obtain ⟨g, hg, rfl⟩ := (hheld _ _ _).1 hcode
    obtain rfl := hg.unique ofRecords_eq hletter
    revert hname
    decide
  | majorCategory =>
    obtain ⟨g, hg, rfl⟩ := (hheld _ _ _).1 hcode
    obtain rfl := hg.unique ofRecords_eq hletter
    revert hname
    decide
  | script =>
    obtain ⟨r, hr, rfl, -⟩ := (hheld _ _ _).1 hcode
    obtain rfl := List.mem_singleton.1 hr
    revert hname
    decide
  | posixClass =>
    obtain ⟨rule, hrule, rfl, -⟩ := (hheld _ _ _).1 hcode
    have hnames : ∀ rule ∈ posixRules, rule.name ∉ ["Cn", "Cc", "Cs", "Zs", "Zl", "Zp"] := by
      decide
    exact hnames rule hrule hname

theorem not_held_space : ¬ held .posixClass "Space" 0x41 := by
  intro hcode
  obtain ⟨rule, hrule, hname, ⟨term, hterm, hread⟩, -⟩ := (hheld _ _ _).1 hcode
  have hterms : ∀ rule ∈ posixRules, rule.name = "Space" → ∀ term ∈ rule.union,
      (∃ name ∈ ["Cn", "Cc", "Cs", "Zs", "Zl", "Zp"], term = .property name) ∨
        term = .range ⟨0x0009, 0x000D⟩ ∨ term = .codes [0x0085] := by decide
  rcases hterms rule hrule hname term hterm with ⟨name, hother, rfl⟩ | rfl | rfl
  · obtain ⟨kind, hkind⟩ := hread
    exact not_held_letter hheld hother kind hkind
  · have hrange : (0x41 : Code) ∉ CodeRange.mk 0x0009 0x000D := by decide
    exact hrange hread
  · have hcodes : (0x41 : Code) ∉ [0x0085] := by decide
    exact hcodes hread

theorem exists_held_class {name : String} (hname : name ∈ possiblyEmptyClasses) :
    ∃ code, held .posixClass name code := by
  -- a class reads one of the properties above, or has all codes but some that the letter is not
  have hcases : ∀ name ∈ possiblyEmptyClasses, ∃ rule ∈ posixRules, rule.name = name ∧
      ((rule.minus = [] ∧ ∃ read ∈ ["Cn", "Ll", "Lu", "L", "Nd", "Po"],
          .property read ∈ rule.union) ∨
        (.range .codeSpace ∈ rule.union ∧ ∀ term ∈ rule.minus, term = .posixClass "Space" ∨
          ∃ read ∈ ["Cn", "Cc", "Cs", "Zs", "Zl", "Zp"], term = .property read)) := by decide
  obtain ⟨rule, hrule, rfl, ⟨hminus, read, hread, hterm⟩ | ⟨hterm, hminus⟩⟩ := hcases name hname
  · obtain ⟨code, hcode⟩ := exists_held hheld hread
    exact ⟨code, (hheld _ _ _).2 ⟨rule, hrule, rfl, ⟨_, hterm, hcode⟩, by simp [hminus]⟩⟩
  · have hspace : (0x41 : Code) ∈ CodeRange.codeSpace := by decide
    refine ⟨0x41, (hheld _ _ _).2 ⟨rule, hrule, rfl, ⟨_, hterm, hspace⟩, fun term hmem => ?_⟩⟩
    rcases hminus term hmem with rfl | ⟨other, hother, rfl⟩
    · exact not_held_space hheld
    · rintro ⟨kind, hkind⟩
      exact not_held_letter hheld hother kind hkind

end Held

/-- The name of the script is no other name. -/
theorem not_sharedScript (name : String) :
    ¬ SharedScript characterRecords scriptRanges name := by
  rintro ⟨⟨r, hr, rfl⟩, kind, hkind, hnamed⟩
  obtain rfl := List.mem_singleton.1 hr
  cases kind with
  | generalCategory =>
    obtain ⟨code, g, -, hname⟩ := hnamed
    have hlength : g.name.toList.length = 2 :=
      Category.length_nameIn Category.generalCategory_mem_kinds g
    rw [hname] at hlength
    cases hlength
  | majorCategory =>
    obtain ⟨code, g, -, hname⟩ := hnamed
    have hlength : g.majorName.toList.length = 1 :=
      Category.length_nameIn Category.majorCategory_mem_kinds g
    rw [hname] at hlength
    cases hlength
  | script => exact hkind rfl
  | posixClass =>
    obtain ⟨rule, hrule, hname⟩ := hnamed
    have hnames : ∀ rule ∈ posixRules, rule.name ≠ "Latin" := by decide
    exact hnames rule hrule hname

theorem build_eq_ok : (files.build paths).2.result = .ok () := by
  obtain ⟨d, hd⟩ : ∃ d, categoryDraft characterRecords = .ok d := ⟨_, rfl⟩
  obtain ⟨ts, hts⟩ := exists_tables read_characters read_scripts hd not_sharedScript (by decide)
    fun held hheld name hname => exists_held_class hheld hname
  have houtput : files.placeOf paths.output = .ok ["o"] := by decide +kernel
  refine FileTree.build_eq_ok hts houtput fun path hpath => ?_
  obtain rfl : "p" = path := Option.some.inj hpath
  exact ⟨["p"], by decide +kernel⟩

end Sample

/-- The build of the small databases succeeds, and its output has their tables. -/
theorem build_tabulates_sample :
    (Sample.files.build Sample.paths).2.result = .ok () ∧
      Sample.files.placeOf "p" ≠ Sample.files.placeOf Sample.paths.output ∧
      ∃ us ss ts,
        Sample.files.readDatabase Sample.paths.characters >>= CharacterRecord.ofText = .ok us ∧
        scriptRecords (Sample.paths.scripts.map Sample.files.readDatabase) = .ok ss ∧
        Tabulates us ss ts ∧ (∀ ts', Tabulates us ss ts' → ts' = ts) ∧
        (Sample.files.build Sample.paths).1.readText Sample.paths.output =
          .ok (RangeTable.arrays ts) := by
  have hplaces : Sample.files.placeOf "p" ≠ Sample.files.placeOf Sample.paths.output := by
    decide +kernel
  refine ⟨Sample.build_eq_ok, hplaces, FileTree.build_tabulates Sample.build_eq_ok ?_⟩
  intro path hpath
  obtain rfl : "p" = path := Option.some.inj hpath
  exact hplaces

end UcdTables
