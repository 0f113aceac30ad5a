import UcdTables.Proofs.Program.ClassRelations

/-!
# Which character databases have tables

A character database without a category `LC` has tables if its codes are of enough categories that
no class is empty. Five classes and `Graph` decide this, for the other classes contain one of these
or have codes that do not depend on the database.

* `Sufficient`: the categories that it takes.
* `Grows.sufficient_iff`: with these, no name of the map is without codes, and only with these.
* `tablesOf_verdict`: how the making of the tables ends, for every database.
-/

namespace UcdTables

/-- Some code has a category of one of some names. -/
def HasSome (us : List CharacterRecord) (names : List String) : Prop :=
  ∃ code g, HasCategory us code g ∧ g.name ∈ names

/-- The codes of a character database are of enough categories to leave no class empty. -/
structure Sufficient (us : List CharacterRecord) : Prop where
  upper : HasSome us ["Lu"]
  lower : HasSome us ["Ll"]
  digit : HasSome us ["Nd"]
  punct : HasSome us ["Pc", "Pd", "Pe", "Pf", "Pi", "Po", "Ps"]
  cntrl : HasSome us ["Cc", "Cf", "Cn", "Co", "Cs"]
  /-- Some code is neither a space by its category nor one of the codes that always are spaces, and
  neither a control, unassigned nor a surrogate. -/
  graph : ∃ code g, HasCategory us code g ∧ g.name ∉ ["Cc", "Cn", "Cs", "Zs", "Zl", "Zp"] ∧
    code ∉ CodeRange.mk 0x0009 0x000D ∧ code ≠ 0x0085

/-- The name of a general category, as far as the classes are concerned. -/
def GeneralName (name : String) : Prop :=
  name.toList.length = 2 ∧ name ∉ ClassRule.names posixRules

instance : DecidablePred GeneralName := fun name =>
  inferInstanceAs (Decidable (name.toList.length = 2 ∧ name ∉ ClassRule.names posixRules))

/-- A category has one name of two letters. -/
theorem Category.under_iff_name_eq {g : Category} {name : String} (h : name.toList.length = 2) :
    g.Under name ↔ g.name = name := by
  constructor
  · rintro ⟨kind, hkind, rfl⟩
    rw [length_nameIn hkind] at h
    obtain rfl | rfl := mem_kinds_iff.1 hkind
    · rfl
    · cases h
  · intro hname
    exact ⟨.generalCategory, generalCategory_mem_kinds, hname⟩

namespace Grows

variable {us : List CharacterRecord} {c s m : PropertyMap} {code : Code} {a : String}
  {g : Category}

/-- A code is read under the name of its own category. -/
theorem reads_general_iff (h : Grows us [] c s m) (ha : GeneralName a)
    (hg : HasCategory us code g) :
    (ClassTerm.property a).Reads m.Holds code ↔ g.name = a := by
  rw [h.reads_property_iff ha.2]
  constructor
  · rintro ⟨g', hg', hunder⟩
    rw [h.category_unique hg hg']
    exact (Category.under_iff_name_eq ha.1).1 hunder
  · intro hname
    exact ⟨g, hg, (Category.under_iff_name_eq ha.1).2 hname⟩

theorem exists_category (h : Grows us [] c s m) (hcode : code ∈ m.codesOf a) :
    ∃ g, HasCategory us code g :=
  exists_hasCategory us (h.codesOf_subset_codeSpace hcode)

/-- A class of general categories has a code if some code has one of them. -/
theorem codesOf_nonempty_iff (h : Grows us [] c s m) (a : String) (names : List String)
    (hrule : ClassRule.ofName a = ⟨a, names.map .property, []⟩)
    (hnames : ∀ name ∈ names, GeneralName name) :
    (m.codesOf a).Nonempty ↔ HasSome us names := by
  have hmem : ∀ code g, HasCategory us code g → (code ∈ m.codesOf a ↔ g.name ∈ names) := by
    intro code g hg
    rw [h.mem_codesOf_iff, hrule]
    simp only [ClassRule.Gives, List.mem_map, List.not_mem_nil, false_implies, implies_true,
      and_true]
    constructor
    · rintro ⟨_, ⟨name, hname, rfl⟩, hread⟩
      rwa [(h.reads_general_iff (hnames name hname) hg).1 hread]
    · intro hname
      exact ⟨_, ⟨_, hname, rfl⟩, (h.reads_general_iff (hnames _ hname) hg).2 rfl⟩
  constructor
  · rintro ⟨code, hcode⟩
    obtain ⟨g, hg⟩ := h.exists_category hcode
    exact ⟨code, g, hg, (hmem code g hg).1 hcode⟩
  · rintro ⟨code, g, hg, hname⟩
    exact ⟨code, (hmem code g hg).2 hname⟩

theorem mem_space_iff (h : Grows us [] c s m) (hg : HasCategory us code g) :
    code ∈ m.codesOf "Space" ↔
      g.name ∈ ["Zs", "Zl", "Zp"] ∨ code ∈ CodeRange.mk 0x0009 0x000D ∨ code = 0x0085 := by
  have hrule : ClassRule.ofName "Space" = ⟨"Space",
      [.property "Zs", .property "Zl", .property "Zp", .range ⟨0x0009, 0x000D⟩, .codes [0x0085]],
      []⟩ := by decide
  have hnames : ∀ name ∈ ["Zs", "Zl", "Zp"], GeneralName name := by decide
  simp only [List.forall_mem_cons] at hnames
  obtain ⟨hZs, hZl, hZp, -⟩ := hnames
  have hcodes : (ClassTerm.codes [0x0085]).Reads m.Holds code ↔ code = 0x0085 :=
    List.mem_singleton
  have hrange : (ClassTerm.range ⟨0x0009, 0x000D⟩).Reads m.Holds code ↔
      code ∈ CodeRange.mk 0x0009 0x000D := Iff.rfl
  rw [h.mem_codesOf_iff, hrule]
  simp only [ClassRule.Gives, List.mem_cons, List.not_mem_nil, or_false, exists_eq_or_imp,
    exists_eq_left, false_implies, implies_true, and_true, h.reads_general_iff hZs hg,
    h.reads_general_iff hZl hg, h.reads_general_iff hZp hg, hrange, hcodes, or_assoc]

theorem mem_graph_iff (h : Grows us [] c s m) (hg : HasCategory us code g) :
    code ∈ m.codesOf "Graph" ↔ g.name ∉ ["Cc", "Cn", "Cs"] ∧ code ∉ m.codesOf "Space" := by
  have hrule : ClassRule.ofName "Graph" = ⟨"Graph", [.range .codeSpace],
      [.posixClass "Space", .property "Cc", .property "Cn", .property "Cs"]⟩ := by decide
  have hnames : ∀ name ∈ ["Cc", "Cn", "Cs"], GeneralName name := by decide
  simp only [List.forall_mem_cons] at hnames
  obtain ⟨hCc, hCn, hCs, -⟩ := hnames
  have hspace : (ClassTerm.posixClass "Space").Reads m.Holds code ↔ code ∈ m.codesOf "Space" :=
    (h.mem_codesOf_of_mem_names (by decide)).symm
  have hcode : (ClassTerm.range .codeSpace).Reads m.Holds code := ⟨Nat.zero_le _, hg.1⟩
  rw [h.mem_codesOf_iff, hrule]
  simp only [ClassRule.Gives, List.mem_cons, List.not_mem_nil, or_false, exists_eq_left,
    forall_eq_or_imp, forall_eq, h.reads_general_iff hCc hg, h.reads_general_iff hCn hg,
    h.reads_general_iff hCs hg, hspace, hcode, true_and, not_or]
  exact and_comm

theorem graph_nonempty_iff (h : Grows us [] c s m) :
    (m.codesOf "Graph").Nonempty ↔ ∃ code g, HasCategory us code g ∧
      g.name ∉ ["Cc", "Cn", "Cs", "Zs", "Zl", "Zp"] ∧ code ∉ CodeRange.mk 0x0009 0x000D ∧
      code ≠ 0x0085 := by
  have hmem : ∀ code g, HasCategory us code g → (code ∈ m.codesOf "Graph" ↔
      g.name ∉ ["Cc", "Cn", "Cs", "Zs", "Zl", "Zp"] ∧ code ∉ CodeRange.mk 0x0009 0x000D ∧
        code ≠ 0x0085) := by
    intro code g hg
    have hnames : g.name ∉ ["Cc", "Cn", "Cs", "Zs", "Zl", "Zp"] ↔
        g.name ∉ ["Cc", "Cn", "Cs"] ∧ g.name ∉ ["Zs", "Zl", "Zp"] := by simp [and_assoc]
    rw [h.mem_graph_iff hg, h.mem_space_iff hg, hnames, not_or, not_or, and_assoc]
  constructor
  · rintro ⟨code, hcode⟩
    obtain ⟨g, hg⟩ := h.exists_category hcode
    exact ⟨code, g, hg, (hmem code g hg).1 hcode⟩
  · rintro ⟨code, g, hg, hgraph⟩
    exact ⟨code, (hmem code g hg).2 hgraph⟩

/-- The categories suffice if six of the classes have codes. -/
theorem sufficient_iff_nonempty (h : Grows us [] c s m) :
    Sufficient us ↔ ∀ name ∈ ["Upper", "Lower", "Digit", "Punct", "Cntrl", "Graph"],
      (m.codesOf name).Nonempty := by
  have hupper := h.codesOf_nonempty_iff "Upper" ["Lu"] (by decide) (by decide)
  have hlower := h.codesOf_nonempty_iff "Lower" ["Ll"] (by decide) (by decide)
  have hdigit := h.codesOf_nonempty_iff "Digit" ["Nd"] (by decide) (by decide)
  have hpunct := h.codesOf_nonempty_iff "Punct" ["Pc", "Pd", "Pe", "Pf", "Pi", "Po", "Ps"]
    (by decide) (by decide)
  have hcntrl := h.codesOf_nonempty_iff "Cntrl" ["Cc", "Cf", "Cn", "Co", "Cs"]
    (by decide) (by decide)
  simp only [List.forall_mem_cons, hupper, hlower, hdigit, hpunct, hcntrl, h.graph_nonempty_iff]
  constructor
  · intro hus
    exact ⟨hus.upper, hus.lower, hus.digit, hus.punct, hus.cntrl, hus.graph, by simp⟩
  · rintro ⟨hupper, hlower, hdigit, hpunct, hcntrl, hgraph, -⟩
    exact ⟨hupper, hlower, hdigit, hpunct, hcntrl, hgraph⟩

/-- If the categories suffice, no class is empty. -/
theorem nonempty_of_sufficient (h : Grows us [] c s m) (hus : Sufficient us) :
    ∀ name ∈ possiblyEmptyClasses, (m.codesOf name).Nonempty := by
  have hrelated := h.classRelations
  have hsix := h.sufficient_iff_nonempty.1 hus
  simp only [List.forall_mem_cons] at hsix
  obtain ⟨hupper, hlower, hdigit, hpunct, hcntrl, hgraph, -⟩ := hsix
  -- the other five contain the upper case letters
  have hLC := hupper.mono hrelated.upper
  have halpha := hLC.mono hrelated.cased
  have halnum : (m.codesOf "Alnum").Nonempty := by
    rw [hrelated.alnum.union]
    exact halpha.inl
  have hword : (m.codesOf "Word").Nonempty := by
    rw [hrelated.word.union]
    exact halnum.inl
  have hassigned : (m.codesOf "Assigned").Nonempty := by
    obtain ⟨code, hcode⟩ := hupper
    have hspace := h.codesOf_subset_codeSpace hcode
    rw [hrelated.assigned.union] at hspace
    refine ⟨code, hspace.resolve_right fun hCn => ?_⟩
    exact Set.disjoint_left.1 (h.disjoint_of_apart (by decide)) hcode hCn
  simp only [possiblyEmptyClasses, List.forall_mem_cons]
  exact ⟨halnum, halpha, hassigned, hcntrl, hdigit, hgraph, hLC, hlower, hpunct, hupper, hword,
    by simp⟩

/-- Only a class can be without codes. -/
theorem posixClass_of_emptyAt (h : Grows us [] c s m) (ha : m.EmptyAt a) :
    m.Has .posixClass a ∧ a ∈ possiblyEmptyClasses ∧ ∀ code, code ∉ m.codesOf a := by
  obtain ⟨kind, hhas, hempty⟩ := ha.exists_has
  obtain ⟨rfl, hname⟩ := h.mem_possiblyEmptyClasses hhas hempty
  refine ⟨hhas, hname, fun code hcode => ?_⟩
  obtain ⟨kind, hcode⟩ := PropertyMap.mem_codesOf.1 hcode
  obtain rfl := hcode.has.kind_unique hhas
  exact hempty code hcode

/-- The map has no name without codes if the categories suffice, and only then. -/
theorem sufficient_iff (h : Grows us [] c s m) : Sufficient us ↔ ∀ name, ¬ m.EmptyAt name := by
  constructor
  · intro hus name hempty
    obtain ⟨-, hname, hnone⟩ := h.posixClass_of_emptyAt hempty
    obtain ⟨code, hcode⟩ := h.nonempty_of_sufficient hus name hname
    exact hnone code hcode
  · intro hfilled
    have hsix : ∀ name ∈ ["Upper", "Lower", "Digit", "Punct", "Cntrl", "Graph"],
        name ∈ ClassRule.names posixRules := by decide
    refine h.sufficient_iff_nonempty.2 fun name hname => ?_
    obtain ⟨p, hp, -⟩ := h.has_class (hsix name hname)
    by_contra hnone
    exact hfilled name ⟨p, hp, fun code hcode => hnone ⟨code, p, hp, hcode⟩⟩

end Grows

/-! ## The ends of a run -/

variable {text : String} {us : List CharacterRecord} {d : Draft} {c : PropertyMap}

theorem result_tablesOf_characters (hc : (PropertyMap.ofCharacters (.ok text)).result = .ok c) :
    (tablesOf (.ok text) none).result =
      (c.withClasses posixRules).result >>= fun m => m.rangeTables := by
  rw [result_tablesOf, hc]
  rfl

/-- A record of the category `LC` stops the classes. -/
theorem tablesOf_eq_duplicate (hus : CharacterRecord.ofText text = .ok us)
    (hd : categoryDraft us = .ok d) (hLC : ∃ r ∈ us, r.category.name = "LC") :
    (tablesOf (.ok text) none).result = .error (.duplicateProperty "LC") := by
  obtain ⟨c, hc⟩ := PropertyMap.exists_merged_empty d
  have hs : c.merged (scriptDraft []) = .ok c := rfl
  have hcharacters : (PropertyMap.ofCharacters (.ok text)).result = .ok c :=
    PropertyMap.ofCharacters_eq_ok_iff.2 ⟨us, hus, d, hd, hc⟩
  have hhas : c.Has .generalCategory "LC" := by
    obtain ⟨as, has, -⟩ := categoryDraft_eq_ok_iff.1 hd
    obtain ⟨r, hr, hname⟩ := hLC
    exact (has_scripts hd hc hs).2
      ⟨by decide, r.code, r.category, hasCategory_of_mem has hr, hname⟩
  rw [result_tablesOf_characters hcharacters, PropertyMap.result_withClasses]
  cases hadded : (c.addClasses posixRules).2 with
  | ok u =>
    have hfree := PropertyMap.not_has_of_addClasses (Prod.ext rfl hadded) "LC" (by decide)
    exact absurd hhas (hfree .generalCategory)
  | error e =>
    obtain ⟨name, rfl, ⟨⟨r, hr, -⟩, -⟩ | ⟨rfl, -⟩⟩ := duplicate_of_classes hd hc hs hadded
    · cases hr
    · rfl

/-- Without such a record all classes can be added, and the tables are those of the map. -/
theorem exists_grows (hus : CharacterRecord.ofText text = .ok us) (hd : categoryDraft us = .ok d)
    (hLC : ∀ r ∈ us, r.category.name ≠ "LC") :
    ∃ c m, (PropertyMap.ofCharacters (.ok text)).result = .ok c ∧
      c.addPosixClasses = (m, .ok ()) ∧ Grows us [] c c m ∧
      (tablesOf (.ok text) none).result = m.rangeTables := by
  obtain ⟨c, hc⟩ := PropertyMap.exists_merged_empty d
  have hs : c.merged (scriptDraft []) = .ok c := rfl
  have hcharacters : (PropertyMap.ofCharacters (.ok text)).result = .ok c :=
    PropertyMap.ofCharacters_eq_ok_iff.2 ⟨us, hus, d, hd, hc⟩
  obtain ⟨⟨⟩, hadded⟩ : ∃ u, (c.addClasses posixRules).2 = .ok u := by
    apply eq_ok_of_forall_ne_error
    intro e he
    obtain ⟨name, -, ⟨⟨r, hr, -⟩, -⟩ | ⟨-, r, hr, hname⟩⟩ := duplicate_of_classes hd hc hs he
    · cases hr
    · exact hLC r hr hname
  refine ⟨c, _, hcharacters, Prod.ext rfl hadded, ⟨⟨d, hd, hc⟩, hs, Prod.ext rfl hadded⟩, ?_⟩
  rw [result_tablesOf_characters hcharacters, PropertyMap.result_withClasses, hadded]
  rfl

/-- How the making of the tables of a character database ends. -/
structure Verdict (text : String) (us : List CharacterRecord) : Prop where
  /-- A record of the category `LC` takes the name of a class, and no other name is taken. -/
  duplicate : (tablesOf (.ok text) none).result = .error (.duplicateProperty "LC") ↔
    ∃ r ∈ us, r.category.name = "LC"
  /-- Otherwise there are tables if the categories suffice, and only then. -/
  succeeds : (∀ r ∈ us, r.category.name ≠ "LC") →
    ((∃ ts, (tablesOf (.ok text) none).result = .ok ts) ↔ Sufficient us)
  /-- Otherwise a class is empty, and the error names the least name without codes. -/
  empty : (∀ r ∈ us, r.category.name ≠ "LC") → ¬ Sufficient us →
    ∃ c m name, (PropertyMap.ofCharacters (.ok text)).result = .ok c ∧
      c.addPosixClasses = (m, .ok ()) ∧ m.Has .posixClass name ∧ m.EmptyAt name ∧
      (∀ other, m.EmptyAt other → name ≤ other) ∧
      (tablesOf (.ok text) none).result = .error (.emptyProperty name)

/-- A character database to which categories can be assigned has tables, or has a category `LC`, or
leaves a class empty. -/
theorem tablesOf_verdict (hus : CharacterRecord.ofText text = .ok us)
    (hd : categoryDraft us = .ok d) : Verdict text us := by
  refine Verdict.mk ⟨fun hresult => ?duplicate, tablesOf_eq_duplicate hus hd⟩ ?succeeds ?empty
  case duplicate =>
    by_contra hnone
    obtain ⟨c, m, -, -, -, htables⟩ := exists_grows hus hd fun r hr hname => hnone ⟨r, hr, hname⟩
    obtain ⟨name, hname, -⟩ := PropertyMap.rangeTables_eq_error_least (htables.symm.trans hresult)
    cases hname
  case succeeds =>
    intro hLC
    obtain ⟨c, m, -, -, hgrows, htables⟩ := exists_grows hus hd hLC
    rw [htables, PropertyMap.exists_rangeTables_iff, hgrows.sufficient_iff]
  case empty =>
    intro hLC hlacking
    obtain ⟨c, m, hc, hm, hgrows, htables⟩ := exists_grows hus hd hLC
    rw [hgrows.sufficient_iff, ← PropertyMap.exists_rangeTables_iff] at hlacking
    cases hresult : m.rangeTables with
    | ok ts => exact absurd ⟨ts, hresult⟩ hlacking
    | error e =>
      obtain ⟨name, rfl, hempty, hleast⟩ := PropertyMap.rangeTables_eq_error_least hresult
      exact ⟨c, m, name, hc, hm, (hgrows.posixClass_of_emptyAt hempty).1, hempty, hleast,
        htables.trans hresult⟩

/-- A letter of each case, a digit and a connector, all of them codes that are spaces whatever their
category is, so that no code leaves a mark. -/
theorem tablesOf_verdict_spaces :
    let text := "0009;A;Lu\n000A;B;Ll\n000B;C;Nd\n000C;D;Pc\n"
    let us : List CharacterRecord := [
      ⟨1, ⟨0x09, by decide⟩, "A", { major := 'L', minor := 'u' }⟩,
      ⟨2, ⟨0x0A, by decide⟩, "B", { major := 'L', minor := 'l' }⟩,
      ⟨3, ⟨0x0B, by decide⟩, "C", { major := 'N', minor := 'd' }⟩,
      ⟨4, ⟨0x0C, by decide⟩, "D", { major := 'P', minor := 'c' }⟩]
    ∃ d, CharacterRecord.ofText text = .ok us ∧ categoryDraft us = .ok d ∧ Verdict text us ∧
      ∃ name, (tablesOf (.ok text) none).result = .error (.emptyProperty name) := by
  intro text us
  have hus : CharacterRecord.ofText text = .ok us := by decide +kernel
  have hverdict : Verdict text us := tablesOf_verdict hus rfl
  have hnone : ¬ Sufficient us := by
    intro h
    obtain ⟨code, g, hg, hname, hcode, -⟩ := h.graph
    let assigned : List Assignment := us.map fun r => ⟨.single r.code, r.category⟩
    have has : Assignment.ofRecords us = .ok assigned := rfl
    obtain ⟨a, ha, hmem, rfl⟩ := (hasCategory_iff has).1 hg
    have htiles : ∀ a ∈ Assignment.fillGaps 0 assigned, a.category.name = "Cn" ∨
        0x0009 ≤ a.range.first ∧ a.range.last ≤ 0x000D := by decide
    rcases htiles a ha with hunassigned | ⟨hfirst, hlast⟩
    · simp [hunassigned] at hname
    · exact hcode ⟨UInt32.le_trans hfirst hmem.1, UInt32.le_trans hmem.2 hlast⟩
  obtain ⟨c, m, name, -, -, -, -, -, hresult⟩ := hverdict.empty (by decide) hnone
  exact ⟨_, hus, rfl, hverdict, name, hresult⟩

end UcdTables
