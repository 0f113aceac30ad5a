import UcdTables.Proofs.Class.Solution
import UcdTables.Proofs.Program.Output

/-!
# A build without its scripts

The scripts stay apart from the categories and the classes. If no class reads a property by the
name of a script, then a build without the script database has the same tables, but for those of
the scripts.

* `Grows.without_scripts`: the maps of the two builds.
* `PropertyMap.filter_rangeTables`: the tables of the two maps.
* `FileTree.build_without_scripts`: the two builds.
-/

namespace UcdTables

/-- A rule of a list reads the property of a name, whatever its kind. -/
def ReadsProperty (rules : List ClassRule) (name : String) : Prop :=
  ∃ rule ∈ rules, .property name ∈ rule.terms

instance (rules : List ClassRule) (name : String) : Decidable (ReadsProperty rules name) :=
  inferInstanceAs (Decidable (∃ rule ∈ rules, .property name ∈ rule.terms))

/-- A script named like a category that no code has would be read as that category. -/
example : ReadsProperty posixRules "Lt" := by decide

/-- A relation without what it holds as scripts. -/
def withoutScripts (held : PropertyKind → String → Code → Prop) (kind : PropertyKind)
    (name : String) (code : Code) : Prop :=
  kind ≠ .script ∧ held kind name code

/-- A rule that reads no script gives the same codes without the scripts. -/
theorem ClassRule.gives_withoutScripts {held : PropertyKind → String → Code → Prop}
    {rule : ClassRule} {code : Code}
    (h : ∀ name, .property name ∈ rule.terms → ¬ held .script name code) :
    rule.Gives (withoutScripts held) code ↔ rule.Gives held code := by
  apply gives_congr
  intro term hterm
  cases term with
  | property name =>
    constructor
    · rintro ⟨kind, -, hcode⟩
      exact ⟨kind, hcode⟩
    · rintro ⟨kind, hcode⟩
      refine ⟨kind, ?_, hcode⟩
      rintro rfl
      exact h name hterm hcode
  | posixClass name => exact and_iff_right (by decide)
  | range r => rfl
  | codes cs => rfl

/-! ## The maps -/

section Maps

variable {us : List CharacterRecord} {ss : List ScriptRange} {c s m : PropertyMap}

/-- Without the scripts, the equations of the databases still hold. -/
theorem Grows.specified_withoutScripts (h : Grows us ss c s m)
    (hread : ∀ r ∈ ss, ¬ ReadsProperty posixRules r.script) (kind : PropertyKind) (name : String)
    (code : Code) :
    withoutScripts m.Holds kind name code ↔
      Specified us [] (withoutScripts m.Holds) name code kind := by
  have hgives : ∀ rule ∈ posixRules,
      (rule.Gives (withoutScripts m.Holds) code ↔ rule.Gives m.Holds code) := by
    intro rule hrule
    apply ClassRule.gives_withoutScripts
    intro other hterm hcode
    obtain ⟨r, hr, rfl, -⟩ := h.holds_iff.1 hcode
    exact hread r hr ⟨rule, hrule, hterm⟩
  cases kind with
  | generalCategory => exact (and_iff_right (by decide)).trans h.holds_iff
  | majorCategory => exact (and_iff_right (by decide)).trans h.holds_iff
  | script => simp [withoutScripts, Specified]
  | posixClass =>
    refine ((and_iff_right (by decide)).trans h.holds_iff).trans ?_
    exact exists_congr fun rule => and_congr_right fun hrule =>
      and_congr_right fun _ => (hgives rule hrule).symm

/-- The classes can be added to the categories alone, and that gives the map of all properties
without the scripts. -/
theorem Grows.without_scripts (h : Grows us ss c s m)
    (hread : ∀ r ∈ ss, ¬ ReadsProperty posixRules r.script) :
    ∃ m', Grows us [] c c m' ∧
      ∀ name p, m'.find? name = some p ↔ p.kind ≠ .script ∧ m.find? name = some p := by
  have hfree : ∀ rule ∈ posixRules, c.find? rule.name = none := by
    intro rule hrule
    rw [PropertyMap.find?_eq_none_iff]
    intro kind hkind
    exact PropertyMap.not_has_of_addClasses h.added rule.name (List.mem_map_of_mem hrule) kind
      ((PropertyMap.has_merged h.merged).2 (.inl hkind))
  have hadded := (PropertyMap.addClasses_eq_ok_iff ClassRule.inOrder_posixRules).2 hfree
  have hgrows : Grows us [] c c (c.addClasses posixRules).1 :=
    ⟨h.drafted, rfl, Prod.ext rfl hadded⟩
  generalize (c.addClasses posixRules).1 = m' at hgrows
  have hhas : ∀ kind name, m'.Has kind name ↔ kind ≠ .script ∧ m.Has kind name := by
    intro kind name
    rw [hgrows.has_iff, h.has_iff]
    cases kind <;> simp [Named]
  have hholds : m'.Holds = withoutScripts m.Holds :=
    Specified.unique (fun _ _ _ => hgrows.holds_iff) (h.specified_withoutScripts hread)
  refine ⟨m', hgrows, fun name p => ?_⟩
  rw [PropertyMap.find?_eq_some_iff_views, PropertyMap.find?_eq_some_iff_views, hhas, hholds,
    and_assoc]
  apply and_congr_right
  intro hkind
  simp [withoutScripts, hkind]

end Maps

/-! ## The tables -/

namespace PropertyMap

variable {m m' : PropertyMap} {ts : List RangeTable}

/-- A map that has some of the properties of another has their tables. -/
theorem filter_rangeTables (keep : PropertyKind → Bool)
    (hm : ∀ name p, m'.find? name = some p ↔ keep p.kind = true ∧ m.find? name = some p)
    (h : m.rangeTables = .ok ts) : m'.rangeTables = .ok (ts.filter (keep ·.kind)) := by
  obtain ⟨ts', hts'⟩ : ∃ ts', m'.rangeTables = .ok ts' := by
    apply eq_ok_of_forall_ne_error
    intro e he
    obtain ⟨_, name, -, ⟨p, hp, rfl⟩, hempty⟩ := rangeTables_eq_error he
    have hentry := NameMap.find?_eq_some_iff.1 ((hm name p).1 hp).2
    obtain ⟨code, hcode⟩ := (rangeTables_eq_ok h).2 (name, p) hentry
    exact hempty code ⟨p, hp, rfl, hcode⟩
  rw [hts']
  congr 1
  apply eq_of_ascending (·.name) (pairwise_rangeTables hts') ((pairwise_rangeTables h).filter _)
  intro t
  rw [List.mem_filter, mem_rangeTables h, mem_rangeTables hts']
  simp only [hm]
  constructor
  · rintro ⟨p, ⟨hkeep, hp⟩, hkind, hranges⟩
    exact ⟨⟨p, hp, hkind, hranges⟩, hkind ▸ hkeep⟩
  · rintro ⟨⟨p, hp, hkind, hranges⟩, hkeep⟩
    exact ⟨p, ⟨hkind ▸ hkeep, hp⟩, hkind, hranges⟩

end PropertyMap

/-- A list of tables is another one, and has a table more for each script of a script database. -/
structure AddsScripts (ss : List ScriptRange) (ts' ts : List RangeTable) : Prop where
  /-- The tables of the other kinds are those of the other list, in the same order. -/
  others : ts.filter (·.kind ≠ .script) = ts'
  /-- No two tables of scripts have the same name. -/
  distinct : ((ts.filter (·.kind = .script)).map (·.name)).Nodup
  /-- There is a table of each script of the database, and of no other. -/
  named : ∀ name, name ∈ (ts.filter (·.kind = .script)).map (·.name) ↔ ∃ r ∈ ss, r.script = name

theorem Grows.addsScripts {us : List CharacterRecord} {ss : List ScriptRange}
    {c s m : PropertyMap} {ts : List RangeTable} (h : Grows us ss c s m)
    (hts : m.rangeTables = .ok ts) : AddsScripts ss (ts.filter (·.kind ≠ .script)) ts := by
  refine AddsScripts.mk rfl ?distinct ?named
  case distinct =>
    rw [List.Nodup, List.pairwise_map]
    apply ((PropertyMap.pairwise_rangeTables hts).filter _).imp
    intro t t' hlt heq
    exact String.lt_irrefl t'.name (heq ▸ hlt)
  case named =>
    intro name
    have hscripts : m.Has .script name ↔ ∃ r ∈ ss, r.script = name := h.has_iff
    rw [← hscripts, ← PropertyMap.exists_rangeTable_iff hts]
    simp [and_assoc]

/-! ## The builds -/

namespace FileTree

variable {files : FileTree} {paths : BuildPaths} {path : String} {ss : List ScriptRange}

/-- A build that succeeds with a script database succeeds without it, and its other tables stay as
they are, unless a class reads a property by the name of a script. -/
theorem build_without_scripts (h : (files.build paths).2.result = .ok ())
    (hpath : paths.scripts = some path)
    (hss : files.readDatabase path >>= ScriptRange.ofText = .ok ss)
    (hread : ∀ r ∈ ss, ¬ ReadsProperty posixRules r.script) :
    (files.build { paths with scripts := none }).2.result = .ok () ∧
      ∃ ts ts', files.tables paths = .ok ts ∧
        files.tables { paths with scripts := none } = .ok ts' ∧ AddsScripts ss ts' ts := by
  obtain ⟨ts, p, hts, houtput, hstatistics⟩ := exists_tables_of_build h
  obtain ⟨us, ss', c, s, m, hus, hss', hgrows, htables⟩ := tablesOf_eq_ok_iff.1 hts
  obtain rfl : ss' = ss := by
    rw [hpath] at hss'
    exact Except.ok.inj (hss'.symm.trans hss)
  obtain ⟨m', hgrows', hm'⟩ := hgrows.without_scripts hread
  have htables' : m'.rangeTables = .ok (ts.filter (·.kind ≠ .script)) :=
    PropertyMap.filter_rangeTables (· ≠ .script) (by simpa using hm') htables
  have hts' : files.tables { paths with scripts := none } = .ok (ts.filter (·.kind ≠ .script)) :=
    tablesOf_eq_ok_iff.2 ⟨us, [], c, c, m', hus, rfl, hgrows', htables'⟩
  exact ⟨build_eq_ok hts' houtput hstatistics, ts, _, hts, hts', hgrows.addsScripts htables⟩

/-- The build of the small databases, without their script. -/
theorem build_without_scripts_sample :
    (Sample.files.build Sample.paths).2.result = .ok () ∧ Sample.paths.scripts = some "s" ∧
      Sample.files.readDatabase "s" >>= ScriptRange.ofText = .ok Sample.scriptRanges ∧
      (∀ r ∈ Sample.scriptRanges, ¬ ReadsProperty posixRules r.script) ∧
      (Sample.files.build { Sample.paths with scripts := none }).2.result = .ok () ∧
      ∃ ts ts', Sample.files.tables Sample.paths = .ok ts ∧
        Sample.files.tables { Sample.paths with scripts := none } = .ok ts' ∧
        AddsScripts Sample.scriptRanges ts' ts := by
  have hread : ∀ r ∈ Sample.scriptRanges, ¬ ReadsProperty posixRules r.script := by decide
  exact ⟨Sample.build_eq_ok, rfl, Sample.read_scripts, hread,
    build_without_scripts Sample.build_eq_ok rfl Sample.read_scripts hread⟩

end FileTree

end UcdTables
