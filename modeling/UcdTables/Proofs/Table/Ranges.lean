import UcdTables.Proofs.Code.Runs
import UcdTables.Proofs.Property.Partition
import UcdTables.Table.Ranges

/-!
# What the tables say of the map

The tables of a map have the names of the map, in ascending order, and the codes that the map holds
under them. There are no tables if a name of the map holds no code.
-/

namespace UcdTables

/-- A table of a list has a name and a kind and holds a code. -/
def RangeTable.Holds (ts : List RangeTable) (kind : PropertyKind) (name : String) (code : Code) :
    Prop :=
  ∃ t ∈ ts, t.kind = kind ∧ t.name = name ∧ CodeRange.Covers t.ranges code

theorem RangeTable.ofProperty_eq_ok_iff {name : String} {p : Property} {t : RangeTable} :
    ofProperty name p = .ok t ↔ (∃ code, code ∈ p) ∧ t = ⟨name, p.kind, p.codes.toRanges⟩ := by
  have hempty : p.codes.isEmpty = false ↔ ∃ code, code ∈ p := CodeSet.isEmpty_eq_false_iff
  unfold ofProperty
  cases h : p.codes.isEmpty with
  | true => simp [← hempty, h]
  | false => simp [← hempty, h, eq_comm]

theorem RangeTable.ofProperty_eq_error {name : String} {p : Property} {e : BuildError}
    (h : ofProperty name p = .error e) : e = .emptyProperty name ∧ ∀ code, code ∉ p := by
  unfold ofProperty at h
  cases hempty : p.codes.isEmpty with
  | true =>
    simp only [hempty, if_true, Except.error.injEq] at h
    refine ⟨h.symm, fun code hcode => ?_⟩
    simp [CodeSet.isEmpty_eq_false_iff.2 ⟨code, hcode⟩] at hempty
  | false => simp [hempty] at h

/-- The ranges of a table are the runs of the codes of the property. -/
theorem RangeTable.ofProperty_eq_runs (name : String) (p : Property) :
    ofProperty name p =
      match CodeRange.runs? p.codes.codes with
      | none => .error (.emptyProperty name)
      | some rs => .ok ⟨name, p.kind, rs⟩ := by
  rw [CodeSet.runs?_codes, ofProperty]
  cases p.codes.isEmpty with
  | true => rfl
  | false => rfl

namespace PropertyMap

variable {m : PropertyMap} {ts : List RangeTable}

/-- The tables are those of the entries of the map, one by one. -/
theorem rangeTables_eq_ok (h : m.rangeTables = .ok ts) :
    ts = m.entries.map (fun e => ⟨e.1, e.2.kind, e.2.codes.toRanges⟩) ∧
      ∀ e ∈ m.entries, ∃ code, code ∈ e.2 := by
  have hall := forall₂_of_mapM_eq_ok h
  clear h
  generalize m.entries = es at hall ⊢
  induction hall with
  | nil => simp
  | cons ht _ ih =>
    obtain ⟨hcode, rfl⟩ := RangeTable.ofProperty_eq_ok_iff.1 ht
    exact ⟨by rw [List.map_cons, ← ih.1], List.forall_mem_cons.2 ⟨hcode, ih.2⟩⟩

/-- A name of the map holds no code. -/
def EmptyAt (m : PropertyMap) (name : String) : Prop :=
  ∃ p, m.find? name = some p ∧ ∀ code, code ∉ p

theorem EmptyAt.exists_has {name : String} (h : m.EmptyAt name) :
    ∃ kind, m.Has kind name ∧ ∀ code, ¬ m.Holds kind name code := by
  obtain ⟨p, hp, hempty⟩ := h
  refine ⟨p.kind, ⟨p, hp, rfl⟩, ?_⟩
  rintro code ⟨q, hq, -, hcode⟩
  rw [hp, Option.some.injEq] at hq
  exact hempty code (hq ▸ hcode)

/-- A map without tables fails at the least of its names that hold no code. -/
theorem rangeTables_eq_error_least {e : BuildError} (h : m.rangeTables = .error e) :
    ∃ name, e = .emptyProperty name ∧ m.EmptyAt name ∧
      ∀ other, m.EmptyAt other → name ≤ other := by
  obtain ⟨before, ⟨name, p⟩, after, hentries, hbefore, herror⟩ := exists_append_of_mapM_eq_error h
  obtain ⟨rfl, hempty⟩ := RangeTable.ofProperty_eq_error herror
  have hfound : m.find? name = some p := NameMap.find?_eq_some_iff.2 (by simp [hentries])
  refine ⟨name, rfl, ⟨p, hfound, hempty⟩, fun other hother => ?_⟩
  obtain ⟨q, hq, hnone⟩ := hother
  have hmem : (other, q) ∈ before ++ (name, p) :: after :=
    hentries ▸ NameMap.find?_eq_some_iff.1 hq
  have hsorted := m.sorted
  rw [hentries] at hsorted
  rcases List.mem_append.1 hmem with hmem | hmem
  -- the properties before the name have tables, and so they have codes
  · obtain ⟨t, ht⟩ := hbefore _ hmem
    obtain ⟨⟨code, hcode⟩, -⟩ := RangeTable.ofProperty_eq_ok_iff.1 ht
    exact absurd hcode (hnone code)
  · rcases List.mem_cons.1 hmem with heq | hmem
    · obtain ⟨rfl, -⟩ := Prod.mk.inj heq
      exact String.le_refl _
    · have hlt : name < other :=
        (List.pairwise_cons.1 (List.pairwise_append.1 hsorted).2.1).1 _ hmem
      exact Std.le_of_lt hlt

/-- A map has tables if all its names hold codes, and only then. -/
theorem exists_rangeTables_iff :
    (∃ ts, m.rangeTables = .ok ts) ↔ ∀ name, ¬ m.EmptyAt name := by
  constructor
  · rintro ⟨ts, hts⟩ name ⟨p, hp, hempty⟩
    obtain ⟨code, hcode⟩ := (rangeTables_eq_ok hts).2 _ (NameMap.find?_eq_some_iff.1 hp)
    exact hempty code hcode
  · intro hnone
    apply eq_ok_of_forall_ne_error
    intro e he
    obtain ⟨name, -, hempty, -⟩ := rangeTables_eq_error_least he
    exact hnone name hempty

/-- Only a name that holds no code keeps a map from having tables. -/
theorem rangeTables_eq_error {e : BuildError} (h : m.rangeTables = .error e) :
    ∃ kind name, e = .emptyProperty name ∧ m.Has kind name ∧ ∀ code, ¬ m.Holds kind name code := by
  obtain ⟨name, rfl, hname, -⟩ := rangeTables_eq_error_least h
  obtain ⟨kind, hhas, hempty⟩ := hname.exists_has
  exact ⟨kind, name, rfl, hhas, hempty⟩

/-- A table is that of a name of the map. -/
theorem mem_rangeTables (h : m.rangeTables = .ok ts) {t : RangeTable} :
    t ∈ ts ↔ ∃ p, m.find? t.name = some p ∧ t.kind = p.kind ∧ t.ranges = p.codes.toRanges := by
  rw [(rangeTables_eq_ok h).1, List.mem_map]
  constructor
  · intro hleft
    obtain ⟨⟨name, p⟩, hmem, rfl⟩ := hleft
    exact ⟨p, NameMap.find?_eq_some_iff.2 hmem, rfl, rfl⟩
  · intro hright
    obtain ⟨p, hp, hkind, hranges⟩ := hright
    exact ⟨(t.name, p), NameMap.find?_eq_some_iff.1 hp, by rw [← hkind, ← hranges]⟩

/-- The names of the tables ascend. -/
theorem pairwise_rangeTables (h : m.rangeTables = .ok ts) :
    ts.Pairwise fun t t' => t.name < t'.name := by
  rw [(rangeTables_eq_ok h).1, List.pairwise_map]
  exact m.sorted

theorem exists_rangeTable_iff (h : m.rangeTables = .ok ts) {kind : PropertyKind} {name : String} :
    (∃ t ∈ ts, t.kind = kind ∧ t.name = name) ↔ m.Has kind name := by
  constructor
  · intro hleft
    obtain ⟨t, ht, rfl, rfl⟩ := hleft
    obtain ⟨p, hp, hkind, -⟩ := (mem_rangeTables h).1 ht
    exact ⟨p, hp, hkind.symm⟩
  · intro hright
    obtain ⟨p, hp, hkind⟩ := hright
    exact ⟨⟨name, p.kind, p.codes.toRanges⟩, (mem_rangeTables h).2 ⟨p, hp, rfl, rfl⟩, hkind, rfl⟩

/-- A table holds the codes that the map holds under its name. -/
theorem covers_rangeTables (h : m.rangeTables = .ok ts) {t : RangeTable} (ht : t ∈ ts)
    {code : Code} : CodeRange.Covers t.ranges code ↔ m.Holds t.kind t.name code := by
  obtain ⟨p, hp, hkind, hranges⟩ := (mem_rangeTables h).1 ht
  rw [hkind, hranges]
  constructor
  · intro hcode
    exact ⟨p, hp, rfl, hcode⟩
  · intro hright
    obtain ⟨p', hp', -, hcode⟩ := hright
    rw [hp, Option.some.injEq] at hp'
    subst hp'
    exact hcode

theorem holds_rangeTables (h : m.rangeTables = .ok ts) : RangeTable.Holds ts = m.Holds := by
  funext kind name code
  apply propext
  constructor
  · intro hleft
    obtain ⟨t, ht, rfl, rfl, hcode⟩ := hleft
    exact (covers_rangeTables h ht).1 hcode
  · intro hcode
    obtain ⟨t, ht, rfl, rfl⟩ := (exists_rangeTable_iff h).2 hcode.has
    exact ⟨t, ht, rfl, rfl, (covers_rangeTables h ht).2 hcode⟩

/-- The ranges of a table are those of a set, and not none. -/
theorem canonical_rangeTables (h : m.rangeTables = .ok ts) {t : RangeTable} (ht : t ∈ ts) :
    CodeRange.Canonical t.ranges ∧ t.ranges ≠ [] := by
  obtain ⟨htables, hinhabited⟩ := rangeTables_eq_ok h
  rw [htables] at ht
  obtain ⟨e, he, rfl⟩ := List.mem_map.1 ht
  obtain ⟨code, r, hr, -⟩ := hinhabited e he
  exact ⟨e.2.codes.canonical, List.ne_nil_of_mem hr⟩

end PropertyMap

end UcdTables
