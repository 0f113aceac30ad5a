import UcdTables.Proofs.Code.Ascending
import UcdTables.Proofs.Database.CodeCategory
import UcdTables.Proofs.Property.Mention
import UcdTables.Proofs.Property.Partition

/-!
# The lists of the categories

The draft of a character database has a list of codes for each general category and for each major
category that some code has. The lists of one kind partition the code space.

* `ListsCategories`: what the lists hold.
* `categoryDraft_partitions`: they hold it for every database to which categories can be assigned,
  and the map made from them passes the partition check.
-/

namespace UcdTables

namespace Category

/-- The kinds of the properties that a category names. -/
def kinds : List PropertyKind := [.generalCategory, .majorCategory]

theorem mem_kinds_iff {kind : PropertyKind} :
    kind ∈ kinds ↔ kind = .generalCategory ∨ kind = .majorCategory := by simp [kinds]

@[simp] theorem generalCategory_mem_kinds : .generalCategory ∈ kinds := by simp [kinds]

@[simp] theorem majorCategory_mem_kinds : .majorCategory ∈ kinds := by simp [kinds]

/-- The name of the property of a kind that a category belongs to. -/
def nameIn (g : Category) : PropertyKind → String
  | .majorCategory => g.majorName
  | _ => g.name

theorem length_nameIn {kind : PropertyKind} (h : kind ∈ kinds) (g : Category) :
    (g.nameIn kind).toList.length = if kind = .majorCategory then 1 else 2 := by
  obtain rfl | rfl := mem_kinds_iff.1 h
  · simp [nameIn, name]
  · simp [nameIn, majorName]

/-- No general category has the name of a major category. -/
theorem kind_eq_of_nameIn_eq {kind kind' : PropertyKind} (h : kind ∈ kinds) (h' : kind' ∈ kinds)
    {g g' : Category} (hname : g.nameIn kind = g'.nameIn kind') : kind = kind' := by
  have hlength := length_nameIn h g
  rw [hname, length_nameIn h' g'] at hlength
  obtain rfl | rfl := mem_kinds_iff.1 h
  all_goals
    obtain rfl | rfl := mem_kinds_iff.1 h'
  all_goals simp_all

theorem majorName_eq_iff {g g' : Category} : g.majorName = g'.majorName ↔ g.major = g'.major := by
  simp [majorName]

theorem name_eq_iff {g g' : Category} : g.name = g'.name ↔ g = g' :=
  ⟨name_injective, fun h => h ▸ rfl⟩

end Category

/-! ## The draft as a list of mentions -/

namespace Assignment

/-- The two mentions of the codes of an assignment. -/
def mentions (a : Assignment) : List Mention :=
  Category.kinds.map fun kind => ⟨kind, a.category.nameIn kind, [a.range]⟩

theorem foldl_addTo (as : List Assignment) :
    as.foldl addTo .empty = Draft.ofMentions (as.flatMap mentions) := by
  rw [Draft.ofMentions, List.foldl_flatMap]
  rfl

theorem mem_mentions {as : List Assignment} {m : Mention} :
    m ∈ as.flatMap mentions ↔
      ∃ kind ∈ Category.kinds, ∃ a ∈ as, m = ⟨kind, a.category.nameIn kind, [a.range]⟩ := by
  simp only [mentions, List.mem_flatMap, List.mem_map]
  constructor
  · intro hleft
    obtain ⟨a, ha, kind, hkind, rfl⟩ := hleft
    exact ⟨kind, hkind, a, ha, rfl⟩
  · intro hright
    obtain ⟨kind, hkind, a, ha, rfl⟩ := hright
    exact ⟨a, ha, kind, hkind, rfl⟩

theorem agree_mentions (as : List Assignment) : Mention.Agree (as.flatMap mentions) := by
  intro m hm m' hm' hname
  obtain ⟨kind, hkind, a, -, rfl⟩ := mem_mentions.1 hm
  obtain ⟨kind', hkind', a', -, rfl⟩ := mem_mentions.1 hm'
  exact Category.kind_eq_of_nameIn_eq hkind hkind' hname

/-- The ranges assigned to the categories of one name of a kind. -/
def rangesOf (as : List Assignment) (kind : PropertyKind) (name : String) : List CodeRange :=
  (as.filter (·.category.nameIn kind = name)).map (·.range)

theorem gathered_mentions {as : List Assignment} (h : ∀ a ∈ as, a.range.Inhabited)
    {kind : PropertyKind} (hkind : kind ∈ Category.kinds) (g : Category) :
    Mention.gathered (as.flatMap mentions) (g.nameIn kind) = rangesOf as kind (g.nameIn kind) := by
  induction as with
  | nil => rfl
  | cons a as ih =>
    have hother : ∀ kind' ∈ Category.kinds, kind' ≠ kind →
        a.category.nameIn kind' ≠ g.nameIn kind := fun kind' hkind' hne hname =>
      hne (Category.kind_eq_of_nameIn_eq hkind' hkind hname)
    have hone : Mention.gathered a.mentions (g.nameIn kind) =
        if a.category.nameIn kind = g.nameIn kind then [a.range] else [] := by
      have ha := h a (by simp)
      obtain rfl | rfl := Category.mem_kinds_iff.1 hkind
      · have hmajor := hother .majorCategory (by simp) (by simp)
        by_cases hname : a.category.nameIn .generalCategory = g.nameIn .generalCategory <;>
          simp [Mention.gathered, mentions, Category.kinds, hmajor, hname, ha]
      · have hgeneral := hother .generalCategory (by simp) (by simp)
        by_cases hname : a.category.nameIn .majorCategory = g.nameIn .majorCategory <;>
          simp [Mention.gathered, mentions, Category.kinds, hgeneral, hname, ha]
    rw [List.flatMap_cons, Mention.gathered_append, ih fun b hb => h b (by simp [hb]), hone]
    by_cases hname : a.category.nameIn kind = g.nameIn kind
    · simp [rangesOf, hname]
    · simp [rangesOf, hname]

/-! ## The lists of a tiling -/

variable {ts : List Assignment}

theorem mem_codes_rangesOf {kind : PropertyKind} {name : String} {code : Code} :
    code ∈ (rangesOf ts kind name).flatMap CodeRange.codes ↔
      ∃ a ∈ ts, a.category.nameIn kind = name ∧ code ∈ a.range := by
  simp only [rangesOf, List.mem_flatMap, List.mem_map, List.mem_filter, decide_eq_true_eq,
    CodeRange.mem_codes]
  constructor
  · intro hleft
    obtain ⟨_, ⟨a, ⟨ha, hname⟩, rfl⟩, hcode⟩ := hleft
    exact ⟨a, ha, hname, hcode⟩
  · intro hright
    obtain ⟨a, ha, hname, hcode⟩ := hright
    exact ⟨_, ⟨a, ⟨ha, hname⟩, rfl⟩, hcode⟩

/-- The codes of one name are in ascending order as they come: the tiles of a name are some of all
the tiles. -/
theorem pairwise_codes_rangesOf (h : CodeRange.Tiles 0 (ts.map (·.range))) (kind : PropertyKind)
    (name : String) : ((rangesOf ts kind name).flatMap CodeRange.codes).Pairwise (· < ·) :=
  CodeRange.pairwise_flatMap_codes (h.pairwise.sublist (List.filter_sublist.map _))

theorem mem_entries_foldl_addTo (h : CodeRange.Tiles 0 (ts.map (·.range))) {e : DraftEntry} :
    e ∈ (ts.foldl addTo .empty).entries ↔
      ∃ kind ∈ Category.kinds, ∃ a ∈ ts,
        e = ⟨a.category.nameIn kind, kind,
          (rangesOf ts kind (a.category.nameIn kind)).toArray⟩ := by
  have hinhabited : ∀ a ∈ ts, a.range.Inhabited := fun a ha =>
    CodeRange.inhabited_iff.2 (h.bounds a.range (List.mem_map_of_mem ha)).2.1
  rw [foldl_addTo, Draft.mem_entries_ofMentions (agree_mentions ts)]
  constructor
  · intro hleft
    obtain ⟨m, hm, rfl⟩ := hleft
    obtain ⟨kind, hkind, a, ha, rfl⟩ := mem_mentions.1 hm
    exact ⟨kind, hkind, a, ha, by rw [gathered_mentions hinhabited hkind]⟩
  · intro hright
    obtain ⟨kind, hkind, a, ha, rfl⟩ := hright
    exact ⟨_, mem_mentions.2 ⟨kind, hkind, a, ha, rfl⟩,
      by rw [gathered_mentions hinhabited hkind]⟩

theorem lists_foldl_addTo (h : CodeRange.Tiles 0 (ts.map (·.range))) {kind : PropertyKind}
    (hkind : kind ∈ Category.kinds) {name : String} {code : Code} :
    (ts.foldl addTo .empty).Lists kind name code ↔
      ∃ a ∈ ts, a.category.nameIn kind = name ∧ code ∈ a.range := by
  constructor
  · intro hleft
    obtain ⟨e, he, hk, hname, hcode⟩ := hleft
    obtain ⟨kind', -, a, -, rfl⟩ := (mem_entries_foldl_addTo h).1 he
    obtain rfl : kind' = kind := hk
    obtain rfl : a.category.nameIn kind' = name := hname
    exact mem_codes_rangesOf.1 hcode
  · intro hright
    obtain ⟨a, ha, rfl, hcode⟩ := hright
    exact ⟨_, (mem_entries_foldl_addTo h).2 ⟨kind, hkind, a, ha, rfl⟩, rfl, rfl,
      mem_codes_rangesOf.2 ⟨a, ha, rfl, hcode⟩⟩

end Assignment

/-! ## The lists of a database -/

theorem categoryDraft_eq_ok_iff {rs : List CharacterRecord} {d : Draft} :
    categoryDraft rs = .ok d ↔
      ∃ as, Assignment.ofRecords rs = .ok as ∧
        d = (Assignment.fillGaps 0 as).foldl Assignment.addTo .empty := by
  rw [categoryDraft, bind_eq_ok_iff]
  apply exists_congr
  intro as
  apply and_congr_right
  intro _
  constructor
  · intro h
    exact (Except.ok.inj h).symm
  · rintro rfl
    rfl

/-- What the lists of the categories of a database hold. -/
structure ListsCategories (rs : List CharacterRecord) (d : Draft) : Prop where
  /-- Each list is that of a general or of a major category. -/
  named : ∀ e ∈ d.entries, ∃ g : Category,
    (e.kind = .generalCategory ∧ e.name = g.name) ∨
      (e.kind = .majorCategory ∧ e.name = g.majorName)
  /-- No list is empty. -/
  inhabited : ∀ e ∈ d.entries, e.codes ≠ []
  /-- The codes of a list ascend as they were added. -/
  ascending : ∀ e ∈ d.entries, e.codes.Pairwise (· < ·)
  /-- The codes of a list lie in the code space. -/
  bounded : ∀ e ∈ d.entries, ∀ code ∈ e.codes, code ≤ lastCode
  /-- A code of the code space is in one list of each kind, and there once. -/
  once : ∀ kind ∈ Category.kinds, ∀ code ≤ lastCode,
    ∃ e ∈ d.entries, e.kind = kind ∧ e.codes.count code = 1 ∧
      ∀ e' ∈ d.entries, e'.kind = kind → code ∈ e'.codes → e' = e
  /-- The list of a general category holds the codes of the category. -/
  general : ∀ (g : Category) code,
    d.Lists .generalCategory g.name code ↔ HasCategory rs code g
  /-- The list of a major category holds what the lists of its general categories hold. -/
  major : ∀ (g : Category) code,
    d.Lists .majorCategory g.majorName code ↔
      ∃ g' : Category, g'.major = g.major ∧ d.Lists .generalCategory g'.name code
  /-- No general category has the name of a major category. -/
  apart : ∀ e ∈ d.entries, ∀ e' ∈ d.entries,
    e.kind = .generalCategory → e'.kind = .majorCategory → e.name ≠ e'.name

/-- The lists of one kind hold the codes of the categories of their names. -/
theorem lists_categoryDraft {rs : List CharacterRecord} {d : Draft} (h : categoryDraft rs = .ok d)
    {kind : PropertyKind} (hkind : kind ∈ Category.kinds) {name : String} {code : Code} :
    d.Lists kind name code ↔ ∃ g, HasCategory rs code g ∧ g.nameIn kind = name := by
  obtain ⟨as, has, rfl⟩ := categoryDraft_eq_ok_iff.1 h
  rw [Assignment.lists_foldl_addTo (Assignment.tiles_ofRecords has) hkind]
  constructor
  · intro hleft
    obtain ⟨a, ha, hname, hcode⟩ := hleft
    exact ⟨a.category, (hasCategory_iff has).2 ⟨a, ha, hcode, rfl⟩, hname⟩
  · intro hright
    obtain ⟨g, hg, hname⟩ := hright
    obtain ⟨a, ha, hcode, rfl⟩ := (hasCategory_iff has).1 hg
    exact ⟨a, ha, hname, hcode⟩

/-- An entry of the draft, by its kind and a tile of its category. -/
theorem mem_entries_categoryDraft {rs : List CharacterRecord} {as : List Assignment} {d : Draft}
    (has : Assignment.ofRecords rs = .ok as) (h : categoryDraft rs = .ok d) {e : DraftEntry} :
    e ∈ d.entries ↔ ∃ kind ∈ Category.kinds, ∃ a ∈ Assignment.fillGaps 0 as,
      e = ⟨a.category.nameIn kind, kind, (Assignment.rangesOf (Assignment.fillGaps 0 as) kind
        (a.category.nameIn kind)).toArray⟩ := by
  obtain ⟨as', has', rfl⟩ := categoryDraft_eq_ok_iff.1 h
  obtain rfl : as = as' := Except.ok.inj (has.symm.trans has')
  exact Assignment.mem_entries_foldl_addTo (Assignment.tiles_ofRecords has)

/-- The codes of an entry have a category that names the entry. -/
theorem exists_category_of_mem_codes {rs : List CharacterRecord} {d : Draft}
    (h : categoryDraft rs = .ok d) {e : DraftEntry} (he : e ∈ d.entries) {code : Code}
    (hcode : code ∈ e.codes) :
    e.kind ∈ Category.kinds ∧ ∃ g, HasCategory rs code g ∧ g.nameIn e.kind = e.name := by
  obtain ⟨as, has, -⟩ := categoryDraft_eq_ok_iff.1 h
  have hkind : e.kind ∈ Category.kinds := by
    obtain ⟨kind, hkind, a, -, rfl⟩ := (mem_entries_categoryDraft has h).1 he
    exact hkind
  exact ⟨hkind, (lists_categoryDraft h hkind).1 ⟨e, he, rfl, rfl, hcode⟩⟩

/-- A code is in one list of a kind, and there once. -/
theorem exists_entry_of_code {rs : List CharacterRecord} {as : List Assignment} {d : Draft}
    (has : Assignment.ofRecords rs = .ok as) (h : categoryDraft rs = .ok d)
    (hascending : ∀ e ∈ d.entries, e.codes.Pairwise (· < ·)) {kind : PropertyKind}
    (hkind : kind ∈ Category.kinds) {code : Code} (hcode : code ≤ lastCode) :
    ∃ e ∈ d.entries, e.kind = kind ∧ e.codes.count code = 1 ∧
      ∀ e' ∈ d.entries, e'.kind = kind → code ∈ e'.codes → e' = e := by
  obtain ⟨g, hg⟩ := exists_hasCategory rs hcode
  obtain ⟨e, he, hk, hname, hmem⟩ := (lists_categoryDraft h hkind).2 ⟨g, hg, rfl⟩
  have hnodup : e.codes.Nodup := (hascending e he).imp fun hlt => UInt32.ne_of_lt hlt
  refine ⟨e, he, hk, List.count_eq_one_of_mem hnodup hmem, fun e' he' hk' hmem' => ?_⟩
  obtain ⟨-, g', hg', hname'⟩ := exists_category_of_mem_codes h he' hmem'
  obtain rfl := hg.unique has hg'
  have hsame : e'.name = e.name := by rw [← hname', hk', hname]
  have hfound := Draft.entry?_eq_some_iff.2 ⟨he', hsame⟩
  rw [Draft.entry?_eq_some_iff.2 ⟨he, rfl⟩] at hfound
  exact (Option.some.inj hfound).symm

theorem listsCategories_of_categoryDraft {rs : List CharacterRecord} {d : Draft}
    (h : categoryDraft rs = .ok d) : ListsCategories rs d := by
  obtain ⟨as, has, -⟩ := categoryDraft_eq_ok_iff.1 h
  have htiles := Assignment.tiles_ofRecords has
  have hascending : ∀ e ∈ d.entries, e.codes.Pairwise (· < ·) := by
    intro e he
    obtain ⟨kind, -, a, -, rfl⟩ := (mem_entries_categoryDraft has h).1 he
    exact Assignment.pairwise_codes_rangesOf htiles kind _
  refine ListsCategories.mk ?named ?inhabited hascending ?bounded ?once ?general ?major ?apart
  case named =>
    intro e he
    obtain ⟨kind, hkind, a, -, rfl⟩ := (mem_entries_categoryDraft has h).1 he
    obtain rfl | rfl := Category.mem_kinds_iff.1 hkind
    · exact ⟨a.category, .inl ⟨rfl, rfl⟩⟩
    · exact ⟨a.category, .inr ⟨rfl, rfl⟩⟩
  case inhabited =>
    intro e he
    obtain ⟨kind, -, a, ha, rfl⟩ := (mem_entries_categoryDraft has h).1 he
    have hfirst := CodeRange.first_mem (htiles.bounds a.range (List.mem_map_of_mem ha)).2.1
    exact List.ne_nil_of_mem (Assignment.mem_codes_rangesOf.2 ⟨a, ha, rfl, hfirst⟩)
  case bounded =>
    intro e he code hcode
    obtain ⟨-, g, hg, -⟩ := exists_category_of_mem_codes h he hcode
    exact hg.1
  case once =>
    intro kind hkind code hcode
    exact exists_entry_of_code has h hascending hkind hcode
  case general =>
    intro g code
    rw [lists_categoryDraft h Category.generalCategory_mem_kinds]
    simp [Category.nameIn, Category.name_eq_iff]
  case major =>
    intro g code
    rw [lists_categoryDraft h Category.majorCategory_mem_kinds]
    simp only [lists_categoryDraft h Category.generalCategory_mem_kinds,
      Category.nameIn, Category.name_eq_iff, Category.majorName_eq_iff, exists_eq_right]
    exact exists_congr fun g' => And.comm
  case apart =>
    intro e he e' he' hk hk' hname
    obtain ⟨kind, hkind, a, -, rfl⟩ := (mem_entries_categoryDraft has h).1 he
    obtain ⟨kind', hkind', a', -, rfl⟩ := (mem_entries_categoryDraft has h).1 he'
    have hkinds := Category.kind_eq_of_nameIn_eq hkind hkind' hname
    obtain rfl : kind = .generalCategory := hk
    obtain rfl : kind' = .majorCategory := hk'
    cases hkinds

/-- Made into a map, the lists of each kind partition the code space. -/
theorem partitionedBy_of_categoryDraft {rs : List CharacterRecord} {d : Draft} {m : PropertyMap}
    (h : categoryDraft rs = .ok d) (hm : PropertyMap.merged .empty d = .ok m) {kind : PropertyKind}
    (hkind : kind ∈ Category.kinds) : m.PartitionedBy kind := by
  obtain ⟨as, has, -⟩ := categoryDraft_eq_ok_iff.1 h
  have hholds : ∀ name code, m.Holds kind name code ↔
      ∃ g, HasCategory rs code g ∧ g.nameIn kind = name := fun name code =>
    (PropertyMap.holds_merged_empty hm).trans (lists_categoryDraft h hkind)
  refine ⟨fun name code hcode => ?_, fun code hcode => ?_⟩
  · obtain ⟨g, hg, -⟩ := (hholds name code).1 hcode
    exact hg.1
  · obtain ⟨g, hg⟩ := exists_hasCategory rs hcode
    refine ⟨g.nameIn kind, (hholds _ code).2 ⟨g, hg, rfl⟩, fun other hother => ?_⟩
    obtain ⟨g', hg', rfl⟩ := (hholds other code).1 hother
    rw [hg.unique has hg']

theorem checkPartition_of_categoryDraft {rs : List CharacterRecord} {d : Draft} {m : PropertyMap}
    (h : categoryDraft rs = .ok d) (hm : PropertyMap.merged .empty d = .ok m) :
    m.checkPartition = .ok () :=
  PropertyMap.checkPartition_eq_ok
    (partitionedBy_of_categoryDraft h hm Category.generalCategory_mem_kinds)
    (partitionedBy_of_categoryDraft h hm Category.majorCategory_mem_kinds)

/-- If categories can be assigned to the records, the lists of each kind partition the code space,
and the map made from them passes the partition check. -/
theorem categoryDraft_partitions {rs : List CharacterRecord} {d : Draft}
    (h : categoryDraft rs = .ok d) :
    ListsCategories rs d ∧
      ∃ m, PropertyMap.merged .empty d = .ok m ∧ m.checkPartition = .ok () := by
  obtain ⟨m, hm⟩ := PropertyMap.exists_merged_empty d
  exact ⟨listsCategories_of_categoryDraft h, m, hm, checkPartition_of_categoryDraft h hm⟩

/-- Two letters beside each other, a block after a gap, and the rest of the code space. -/
theorem categoryDraft_partitions_block :
    let rs : List CharacterRecord := [
      ⟨1, ⟨0x41, by decide⟩, "LATIN CAPITAL LETTER A", { major := 'L', minor := 'u' }⟩,
      ⟨2, ⟨0x42, by decide⟩, "LATIN CAPITAL LETTER B", { major := 'L', minor := 'u' }⟩,
      ⟨3, ⟨0xE000, by decide⟩, "<Private Use, First>", { major := 'C', minor := 'o' }⟩,
      ⟨4, ⟨0xF8FF, by decide⟩, "<Private Use, Last>", { major := 'C', minor := 'o' }⟩]
    ∃ d, categoryDraft rs = .ok d ∧ ListsCategories rs d ∧
      ∃ m, PropertyMap.merged .empty d = .ok m ∧ m.checkPartition = .ok () :=
  ⟨_, rfl, categoryDraft_partitions rfl⟩

end UcdTables
