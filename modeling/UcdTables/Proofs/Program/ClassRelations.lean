import Mathlib.Data.Set.Lattice
import Mathlib.Order.CompletePartialOrder
import UcdTables.Proofs.Program.Failures

/-!
# Relations between the classes

Whatever the character database, some classes contain others, some have no code in common, and some
are put together from two others. Most of these relations can be read off the rules: a code has one
category, the names that its category gives it are the two prefixes of the same two letters, and so
the terms of two rules can be compared by their names alone.

* `Category.under_iff`: the names of a category are prefixes of its letters.
* `Grows.subset_of_within`, `Grows.disjoint_of_apart`: what a comparison of two rules says of their
  classes.
* `Grows.mem_or_mem_minus`: a rule over the whole code space leaves out only what it takes away.
* `posixClasses_related`: the relations between the POSIX classes, for any character database.
-/

namespace UcdTables

/-! ## The names of a category -/

namespace Category

/-- A name is that of the category or of its major category. -/
def Under (g : Category) (name : String) : Prop := ∃ kind ∈ kinds, g.nameIn kind = name

theorem under_iff {g : Category} {name : String} :
    g.Under name ↔ name.toList ≠ [] ∧ name.toList <+: [g.major, g.minor] := by
  have hname : g.name = name ↔ name.toList = [g.major, g.minor] := by
    rw [← String.toList_inj, eq_comm, Category.name, String.toList_ofList]
  have hmajor : g.majorName = name ↔ name.toList = [g.major] := by
    rw [← String.toList_inj, eq_comm, Category.majorName, String.toList_ofList]
  have hnames : g.Under name ↔ name.toList = [g.major, g.minor] ∨ name.toList = [g.major] := by
    simp [Under, kinds, nameIn, hname, hmajor]
  rw [hnames]
  rcases name.toList with _ | ⟨x, _ | ⟨y, rest⟩⟩ <;> simp [List.cons_prefix_cons]

end Category

/-! ## Comparing the terms of two rules -/

namespace ClassTerm

/-- By its name or its codes, a term reads only what another reads. Terms that this test does not
relate may still be related. -/
def Within : ClassTerm → ClassTerm → Prop
  | property name, property name' => name'.toList ≠ [] ∧ name'.toList <+: name.toList
  | codes cs, range r => ∀ code ∈ cs, code ∈ r
  | _, _ => False

/-- By their names, no category belongs to both of two properties. -/
def Apart : ClassTerm → ClassTerm → Prop
  | property name, property name' =>
    ¬ name.toList <+: name'.toList ∧ ¬ name'.toList <+: name.toList
  | _, _ => False

instance : DecidableRel Within
  | property name, property name' =>
    inferInstanceAs (Decidable (name'.toList ≠ [] ∧ name'.toList <+: name.toList))
  | codes cs, range r => List.decidableBAll (· ∈ r) cs
  | property _, posixClass _ | property _, range _ | property _, codes _ | posixClass _, _
  | range _, _ | codes _, property _ | codes _, posixClass _ | codes _, codes _ =>
    inferInstanceAs (Decidable False)

instance : DecidableRel Apart
  | property name, property name' =>
    inferInstanceAs (Decidable (¬ name.toList <+: name'.toList ∧ ¬ name'.toList <+: name.toList))
  | property _, posixClass _ | property _, range _ | property _, codes _ | posixClass _, _
  | range _, _ | codes _, _ => inferInstanceAs (Decidable False)

/-- The term that reads what is held under a name. -/
def ofName (name : String) : ClassTerm :=
  if name ∈ ClassRule.names posixRules then posixClass name else property name

/-- A term reads a class as a class, and as a property only what is no class. -/
abbrev WellNamed (t : ClassTerm) : Prop :=
  t.ReadsBefore (ClassRule.names posixRules) (ClassRule.names posixRules)

end ClassTerm

namespace ClassRule

/-- The rule of the class of a name; a name that is that of no class stands for the property. -/
def ofName (name : String) : ClassRule :=
  (posixRules.find? (·.name = name)).getD ⟨name, [.ofName name], []⟩

/-- Nothing is taken away from the second class, and each term of the first is within one of the
second. -/
def Within (a b : ClassRule) : Prop :=
  b.minus = [] ∧ ∀ t ∈ a.union, ∃ u ∈ b.union, t.Within u

/-- The terms of two classes are apart. -/
def Apart (a b : ClassRule) : Prop := ∀ t ∈ a.union, ∀ u ∈ b.union, t.Apart u

instance : DecidableRel Within := fun a b =>
  inferInstanceAs (Decidable (b.minus = [] ∧ ∀ t ∈ a.union, ∃ u ∈ b.union, t.Within u))

instance : DecidableRel Apart := fun a b =>
  inferInstanceAs (Decidable (∀ t ∈ a.union, ∀ u ∈ b.union, t.Apart u))

theorem ofName_eq_or (name : String) :
    (ofName name ∈ posixRules ∧ (ofName name).name = name) ∨
      (name ∉ names posixRules ∧ ofName name = ⟨name, [.property name], []⟩) := by
  unfold ofName
  cases hfind : posixRules.find? (·.name = name) with
  | some rule =>
    have hname : rule.name = name := by simpa using List.find?_some hfind
    exact .inl ⟨List.mem_of_find?_eq_some hfind, hname⟩
  | none =>
    have hnames : name ∉ names posixRules := by
      simpa [names, List.find?_eq_none] using hfind
    exact .inr ⟨hnames, by simp [ClassTerm.ofName, hnames]⟩

theorem wellNamed_of_mem_union {name : String} {t : ClassTerm} (ht : t ∈ (ofName name).union) :
    t.WellNamed := by
  have hall : ∀ rule ∈ posixRules, ∀ t ∈ rule.union, t.WellNamed := by decide
  rcases ofName_eq_or name with ⟨hrule, -⟩ | ⟨hname, hrule⟩
  · exact hall _ hrule t ht
  · obtain rfl : t = .property name := by simpa [hrule] using ht
    exact hname

end ClassRule

/-! ## The codes under a name -/

/-- The codes that a map holds under a name. -/
def PropertyMap.codesOf (m : PropertyMap) (name : String) : Set Code :=
  {code | ∃ p, m.find? name = some p ∧ code ∈ p}

theorem PropertyMap.mem_codesOf {m : PropertyMap} {name : String} {code : Code} :
    code ∈ m.codesOf name ↔ ∃ kind, m.Holds kind name code := by
  constructor
  · intro hleft
    obtain ⟨p, hp, hcode⟩ := hleft
    exact ⟨p.kind, p, hp, rfl, hcode⟩
  · intro hright
    obtain ⟨kind, p, hp, -, hcode⟩ := hright
    exact ⟨p, hp, hcode⟩

namespace Grows

variable {us : List CharacterRecord} {c s m : PropertyMap} {code : Code} {a b : String}

theorem has_class (h : Grows us [] c s m) (hname : a ∈ ClassRule.names posixRules) :
    m.Has .posixClass a := by
  obtain ⟨rule, hrule, rfl⟩ := List.mem_map.1 hname
  exact h.has_iff.2 ⟨rule, hrule, rfl⟩

/-- A class is held as a class only. -/
theorem mem_codesOf_of_mem_names (h : Grows us [] c s m) (hname : a ∈ ClassRule.names posixRules) :
    code ∈ m.codesOf a ↔ m.Holds .posixClass a code := by
  rw [PropertyMap.mem_codesOf]
  constructor
  · intro hleft
    obtain ⟨kind, hcode⟩ := hleft
    rwa [hcode.has.kind_unique (h.has_class hname)] at hcode
  · intro hcode
    exact ⟨.posixClass, hcode⟩

theorem reads_ofName_iff (h : Grows us [] c s m) :
    (ClassTerm.ofName a).Reads m.Holds code ↔ code ∈ m.codesOf a := by
  unfold ClassTerm.ofName
  by_cases hname : a ∈ ClassRule.names posixRules
  · rw [if_pos hname, h.mem_codesOf_of_mem_names hname, ClassTerm.Reads]
  · rw [if_neg hname, PropertyMap.mem_codesOf, ClassTerm.Reads]

/-- Under a name lie the codes that its rule gives. -/
theorem mem_codesOf_iff (h : Grows us [] c s m) :
    code ∈ m.codesOf a ↔ (ClassRule.ofName a).Gives m.Holds code := by
  rcases ClassRule.ofName_eq_or a with ⟨hrule, hname⟩ | ⟨-, hrule⟩
  · have hmem : a ∈ ClassRule.names posixRules := List.mem_map.2 ⟨_, hrule, hname⟩
    rw [h.mem_codesOf_of_mem_names hmem, ← h.gives _ hrule code, hname]
  · rw [PropertyMap.mem_codesOf, hrule]
    simp [ClassRule.Gives, ClassTerm.Reads]

/-- A property that is no class holds the codes whose category belongs to it. -/
theorem reads_property_iff (h : Grows us [] c s m) (hname : a ∉ ClassRule.names posixRules) :
    (ClassTerm.property a).Reads m.Holds code ↔ ∃ g, HasCategory us code g ∧ g.Under a := by
  constructor
  · intro hleft
    obtain ⟨kind, hcode⟩ := hleft
    have hspecified := h.holds_iff.1 hcode
    cases kind with
    | generalCategory =>
      obtain ⟨g, hg, rfl⟩ := hspecified
      exact ⟨g, hg, .generalCategory, by simp, rfl⟩
    | majorCategory =>
      obtain ⟨g, hg, rfl⟩ := hspecified
      exact ⟨g, hg, .majorCategory, by simp, rfl⟩
    | script =>
      obtain ⟨r, hr, -⟩ := hspecified
      cases hr
    | posixClass =>
      obtain ⟨rule, hrule, rfl, -⟩ := hspecified
      exact absurd (List.mem_map_of_mem hrule) hname
  · intro hright
    obtain ⟨g, hg, kind, hkind, rfl⟩ := hright
    obtain rfl | rfl := Category.mem_kinds_iff.1 hkind
    · exact ⟨.generalCategory, h.holds_iff.2 ⟨g, hg, rfl⟩⟩
    · exact ⟨.majorCategory, h.holds_iff.2 ⟨g, hg, rfl⟩⟩

theorem category_unique (h : Grows us [] c s m) {g g' : Category} (hg : HasCategory us code g)
    (hg' : HasCategory us code g') : g = g' := by
  obtain ⟨d, hd, -⟩ := h.drafted
  obtain ⟨as, has, -⟩ := categoryDraft_eq_ok_iff.1 hd
  exact hg.unique has hg'

/-! ## What a comparison of two rules says -/

variable {t u : ClassTerm}

theorem reads_of_within (h : Grows us [] c s m) (ht : t.WellNamed) (hu : u.WellNamed)
    (hwithin : t.Within u) (hread : t.Reads m.Holds code) : u.Reads m.Holds code := by
  cases t with
  | property name =>
    cases u with
    | property name' =>
      obtain ⟨hne, hnames⟩ := hwithin
      obtain ⟨g, hg, hunder⟩ := (h.reads_property_iff ht).1 hread
      obtain ⟨-, hletters⟩ := Category.under_iff.1 hunder
      exact (h.reads_property_iff hu).2 ⟨g, hg, Category.under_iff.2 ⟨hne, hnames.trans hletters⟩⟩
    | posixClass _ => cases hwithin
    | range _ => cases hwithin
    | codes _ => cases hwithin
  | codes cs =>
    cases u with
    | range r => exact hwithin code hread
    | property _ => cases hwithin
    | posixClass _ => cases hwithin
    | codes _ => cases hwithin
  | posixClass _ => cases hwithin
  | range _ => cases hwithin

theorem not_reads_of_apart (h : Grows us [] c s m) (ht : t.WellNamed) (hu : u.WellNamed)
    (hapart : t.Apart u) (hread : t.Reads m.Holds code) : ¬ u.Reads m.Holds code := by
  cases t with
  | property name =>
    cases u with
    | property name' =>
      intro hread'
      obtain ⟨g, hg, hunder⟩ := (h.reads_property_iff ht).1 hread
      obtain ⟨g', hg', hunder'⟩ := (h.reads_property_iff hu).1 hread'
      obtain rfl := h.category_unique hg hg'
      -- both names begin the letters of the one category, so one begins the other
      rcases List.prefix_or_prefix_of_prefix (Category.under_iff.1 hunder).2
        (Category.under_iff.1 hunder').2 with hnames | hnames
      · exact hapart.1 hnames
      · exact hapart.2 hnames
    | posixClass _ => cases hapart
    | range _ => cases hapart
    | codes _ => cases hapart
  | posixClass _ => cases hapart
  | range _ => cases hapart
  | codes _ => cases hapart

/-- A class within another by its rule is contained in it. -/
theorem subset_of_within (h : Grows us [] c s m)
    (hrules : (ClassRule.ofName a).Within (ClassRule.ofName b)) : m.codesOf a ⊆ m.codesOf b := by
  intro code hcode
  obtain ⟨hminus, hterms⟩ := hrules
  obtain ⟨⟨t, ht, hread⟩, -⟩ := h.mem_codesOf_iff.1 hcode
  obtain ⟨u, hu, hwithin⟩ := hterms t ht
  refine h.mem_codesOf_iff.2 ⟨⟨u, hu, ?_⟩, by simp [hminus]⟩
  exact h.reads_of_within (ClassRule.wellNamed_of_mem_union ht)
    (ClassRule.wellNamed_of_mem_union hu) hwithin hread

/-- Classes apart by their rules have no code in common. -/
theorem disjoint_of_apart (h : Grows us [] c s m)
    (hrules : (ClassRule.ofName a).Apart (ClassRule.ofName b)) :
    Disjoint (m.codesOf a) (m.codesOf b) := by
  rw [Set.disjoint_left]
  intro code hcode hcode'
  obtain ⟨⟨t, ht, hread⟩, -⟩ := h.mem_codesOf_iff.1 hcode
  obtain ⟨⟨u, hu, hread'⟩, -⟩ := h.mem_codesOf_iff.1 hcode'
  exact h.not_reads_of_apart (ClassRule.wellNamed_of_mem_union ht)
    (ClassRule.wellNamed_of_mem_union hu) (hrules t ht u hu) hread hread'

/-- A class has no code of what its rule takes away. -/
theorem disjoint_of_mem_minus (h : Grows us [] c s m)
    (hb : ClassTerm.ofName b ∈ (ClassRule.ofName a).minus) :
    Disjoint (m.codesOf a) (m.codesOf b) := by
  rw [Set.disjoint_left]
  intro code hcode hcode'
  obtain ⟨-, hminus⟩ := h.mem_codesOf_iff.1 hcode
  exact hminus _ hb (h.reads_ofName_iff.2 hcode')

/-- A rule over the whole code space leaves out only what it takes away. -/
theorem mem_or_mem_minus (h : Grows us [] c s m) (a : String) (names : List String)
    (hunion : (ClassRule.ofName a).union = [.range .codeSpace])
    (hminus : (ClassRule.ofName a).minus = names.map .ofName) (hcode : code ≤ lastCode) :
    code ∈ m.codesOf a ∨ ∃ b ∈ names, code ∈ m.codesOf b := by
  rw [or_iff_not_imp_right]
  intro hnone
  refine h.mem_codesOf_iff.2 ⟨⟨_, by rw [hunion]; exact List.mem_singleton_self _, ?_⟩, ?_⟩
  · exact ⟨Nat.zero_le _, hcode⟩
  · intro t ht hread
    rw [hminus] at ht
    obtain ⟨b, hb, rfl⟩ := List.mem_map.1 ht
    exact hnone ⟨b, hb, h.reads_ofName_iff.1 hread⟩

/-- A class of two terms is the union of what lies under their names. -/
theorem union_of_terms (h : Grows us [] c s m) {b' : String}
    (hminus : (ClassRule.ofName a).minus = [])
    (hunion : (ClassRule.ofName a).union = [.ofName b, .ofName b']) :
    m.codesOf a = m.codesOf b ∪ m.codesOf b' := by
  ext code
  rw [Set.mem_union, h.mem_codesOf_iff, ← h.reads_ofName_iff, ← h.reads_ofName_iff]
  simp [ClassRule.Gives, hminus, hunion]

/-- A class that has the terms of two others is their union. -/
theorem union_of_append (h : Grows us [] c s m) {b' : String}
    (hminus : ∀ name ∈ [a, b, b'], (ClassRule.ofName name).minus = [])
    (hunion : (ClassRule.ofName a).union =
      (ClassRule.ofName b).union ++ (ClassRule.ofName b').union) :
    m.codesOf a = m.codesOf b ∪ m.codesOf b' := by
  have hterms : ∀ name ∈ [a, b, b'], ∀ code, code ∈ m.codesOf name ↔
      ∃ t ∈ (ClassRule.ofName name).union, t.Reads m.Holds code := by
    intro name hname code
    rw [h.mem_codesOf_iff]
    simp [ClassRule.Gives, hminus name hname]
  ext code
  rw [Set.mem_union, hterms a (by simp), hterms b (by simp), hterms b' (by simp), hunion]
  simp [or_and_right, exists_or]

end Grows

/-! ## The POSIX classes -/

/-- The codes of the code space. -/
def codeSpace : Set Code := {code | code ≤ lastCode}

/-- A set of codes is the union of two that have no code in common. -/
structure Splits (s t u : Set Code) : Prop where
  union : s = t ∪ u
  disjoint : Disjoint t u

/-- How the POSIX classes of a map are related to each other and to its categories. -/
structure ClassRelations (m : PropertyMap) : Prop where
  classes : ∀ rule ∈ posixRules, m.Has .posixClass rule.name
  /-- What can be printed leaves a mark or is a space. -/
  print : Splits (m.codesOf "Print") (m.codesOf "Graph") (m.codesOf "Space")
  /-- No control, no surrogate and no unassigned code leaves a mark. -/
  graph : ∀ name ∈ ["Cc", "Cn", "Cs"], Disjoint (m.codesOf "Graph") (m.codesOf name)
  assigned : Splits codeSpace (m.codesOf "Assigned") (m.codesOf "Cn")
  alnum : Splits (m.codesOf "Alnum") (m.codesOf "Alpha") (m.codesOf "Digit")
  word : Splits (m.codesOf "Word") (m.codesOf "Alnum") (m.codesOf "Pc")
  /-- The letters of the two cases. -/
  lower_upper : Disjoint (m.codesOf "Lower") (m.codesOf "Upper")
  lower : m.codesOf "Lower" ⊆ m.codesOf "LC"
  upper : m.codesOf "Upper" ⊆ m.codesOf "LC"
  cased : m.codesOf "LC" ⊆ m.codesOf "Alpha"
  punct : Disjoint (m.codesOf "Punct") (m.codesOf "Alnum")
  blank : m.codesOf "Blank" ⊆ m.codesOf "Space"
  /-- Letters, digits and punctuation can be printed, whatever else they are. -/
  printed : ∀ name ∈ ["Alnum", "Word", "Punct"], m.codesOf name ⊆ m.codesOf "Print"
  cntrl : ∀ name ∈ ["Alnum", "Punct"], Disjoint (m.codesOf "Cntrl") (m.codesOf name)
  /-- What cannot be printed is a control in the wider sense of the class. -/
  cntrl_print : m.codesOf "Cntrl" ∪ m.codesOf "Print" = codeSpace

namespace Grows

variable {us : List CharacterRecord} {c s m : PropertyMap} {code : Code} {a : String}

theorem codesOf_subset_codeSpace (h : Grows us [] c s m) : m.codesOf a ⊆ codeSpace := by
  intro code hcode
  obtain ⟨kind, hcode⟩ := PropertyMap.mem_codesOf.1 hcode
  exact h.bounded kind a code hcode

theorem print_eq_union (h : Grows us [] c s m) :
    m.codesOf "Print" = m.codesOf "Graph" ∪ m.codesOf "Space" :=
  h.union_of_terms (by decide) (by decide)

-- The rules of `Alnum`, `Word` and `Punct` cannot be compared with that of `Print`, which names no
-- category. What `Print` leaves out is compared with them instead.

/-- A code that cannot be printed is a control, unassigned or a surrogate. -/
theorem mem_print_or_hidden (h : Grows us [] c s m) (hcode : code ∈ codeSpace) :
    code ∈ m.codesOf "Print" ∨ ∃ name ∈ ["Cc", "Cn", "Cs"], code ∈ m.codesOf name := by
  have hgraph :=
    h.mem_or_mem_minus "Graph" ["Space", "Cc", "Cn", "Cs"] (by decide) (by decide) hcode
  rw [h.print_eq_union, Set.mem_union]
  rcases hgraph with hgraph | ⟨name, hname, hcode⟩
  · exact .inl (.inl hgraph)
  · rcases List.mem_cons.1 hname with rfl | hname
    · exact .inl (.inr hcode)
    · exact .inr ⟨name, hname, hcode⟩

/-- A class with no code that is a control, unassigned or a surrogate can be printed. -/
theorem subset_print (h : Grows us [] c s m)
    (hrules : ∀ name ∈ ["Cc", "Cn", "Cs"], (ClassRule.ofName a).Apart (ClassRule.ofName name)) :
    m.codesOf a ⊆ m.codesOf "Print" := by
  intro code hcode
  have hspace := h.codesOf_subset_codeSpace hcode
  rcases h.mem_print_or_hidden hspace with hprint | ⟨name, hname, hhidden⟩
  · exact hprint
  · exact absurd hhidden (Set.disjoint_left.1 (h.disjoint_of_apart (hrules name hname)) hcode)

theorem assigned_splits (h : Grows us [] c s m) :
    Splits codeSpace (m.codesOf "Assigned") (m.codesOf "Cn") := by
  refine ⟨Set.Subset.antisymm ?_ ?_, h.disjoint_of_mem_minus (by decide)⟩
  · intro code hcode
    simpa using h.mem_or_mem_minus "Assigned" ["Cn"] (by decide) (by decide) hcode
  · exact Set.union_subset h.codesOf_subset_codeSpace h.codesOf_subset_codeSpace

theorem cntrl_union_print (h : Grows us [] c s m) :
    m.codesOf "Cntrl" ∪ m.codesOf "Print" = codeSpace := by
  have hhidden : ∀ name ∈ ["Cc", "Cn", "Cs"],
      (ClassRule.ofName name).Within (ClassRule.ofName "Cntrl") := by decide
  apply Set.Subset.antisymm
  · exact Set.union_subset h.codesOf_subset_codeSpace h.codesOf_subset_codeSpace
  · intro code hcode
    rcases h.mem_print_or_hidden hcode with hprint | ⟨name, hname, hcode⟩
    · exact .inr hprint
    · exact .inl (h.subset_of_within (hhidden name hname) hcode)

theorem classRelations (h : Grows us [] c s m) : ClassRelations m where
  classes rule hrule := h.has_class (List.mem_map_of_mem hrule)
  print := ⟨h.print_eq_union, h.disjoint_of_mem_minus (by decide)⟩
  graph name hname :=
    have hminus : ∀ name ∈ ["Cc", "Cn", "Cs"],
      ClassTerm.ofName name ∈ (ClassRule.ofName "Graph").minus := by decide
    h.disjoint_of_mem_minus (hminus name hname)
  assigned := h.assigned_splits
  alnum := ⟨h.union_of_append (by decide) (by decide), h.disjoint_of_apart (by decide)⟩
  word := ⟨h.union_of_append (by decide) (by decide), h.disjoint_of_apart (by decide)⟩
  lower_upper := h.disjoint_of_apart (by decide)
  lower := h.subset_of_within (by decide)
  upper := h.subset_of_within (by decide)
  cased := h.subset_of_within (by decide)
  punct := h.disjoint_of_apart (by decide)
  blank := h.subset_of_within (by decide)
  printed name hname :=
    have hrules : ∀ name ∈ ["Alnum", "Word", "Punct"], ∀ hidden ∈ ["Cc", "Cn", "Cs"],
      (ClassRule.ofName name).Apart (ClassRule.ofName hidden) := by decide
    h.subset_print (hrules name hname)
  cntrl name hname :=
    have hrules : ∀ name ∈ ["Alnum", "Punct"],
      (ClassRule.ofName "Cntrl").Apart (ClassRule.ofName name) := by decide
    h.disjoint_of_apart (hrules name hname)
  cntrl_print := h.cntrl_union_print

end Grows

/-- For any character database without a category `LC`, all classes can be added to the map of its
categories, and they are related to each other as they should be. -/
theorem posixClasses_related {text : String} {us : List CharacterRecord} {d : Draft}
    (hus : CharacterRecord.ofText text = .ok us) (hd : categoryDraft us = .ok d)
    (hLC : ∀ r ∈ us, r.category.name ≠ "LC") :
    ∃ c m, (PropertyMap.ofCharacters (.ok text)).result = .ok c ∧
      c.addPosixClasses = (m, .ok ()) ∧ ClassRelations m := by
  obtain ⟨c, hc⟩ := PropertyMap.exists_merged_empty d
  have hs : c.merged (scriptDraft []) = .ok c := rfl
  have hok : ∀ e, c.addPosixClasses.2 ≠ .error e := by
    intro e he
    obtain ⟨name, -, ⟨⟨r, hr, -⟩, -⟩ | ⟨-, r, hr, hname⟩⟩ := duplicate_of_classes hd hc hs he
    · cases hr
    · exact hLC r hr hname
  obtain ⟨⟨⟩, hadded⟩ := eq_ok_of_forall_ne_error hok
  have hadd : c.addPosixClasses = (c.addPosixClasses.1, .ok ()) := Prod.ext rfl hadded
  exact ⟨c, _, PropertyMap.ofCharacters_eq_ok_iff.2 ⟨us, hus, d, hd, hc⟩, hadd,
    Grows.classRelations ⟨⟨d, hd, hc⟩, hs, hadd⟩⟩

/-- The code of a tabulator as a letter, a space, and a code that a record calls unassigned. -/
theorem posixClasses_related_tabulator :
    let text := "0009;TAB;Lu\n0020;SPACE;Zs\n0041;NONE;Cn\n"
    let us : List CharacterRecord := [
      ⟨1, ⟨0x09, by decide⟩, "TAB", { major := 'L', minor := 'u' }⟩,
      ⟨2, ⟨0x20, by decide⟩, "SPACE", { major := 'Z', minor := 's' }⟩,
      ⟨3, ⟨0x41, by decide⟩, "NONE", .unassigned⟩]
    ∃ d, CharacterRecord.ofText text = .ok us ∧ categoryDraft us = .ok d ∧
      (∀ r ∈ us, r.category.name ≠ "LC") ∧
      ∃ c m, (PropertyMap.ofCharacters (.ok text)).result = .ok c ∧
        c.addPosixClasses = (m, .ok ()) ∧ ClassRelations m := by
  intro text us
  have hus : CharacterRecord.ofText text = .ok us := by decide +kernel
  have hLC : ∀ r ∈ us, r.category.name ≠ "LC" := by decide
  exact ⟨_, hus, rfl, hLC, posixClasses_related hus rfl hLC⟩

end UcdTables
