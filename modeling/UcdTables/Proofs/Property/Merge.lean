import UcdTables.Proofs.Code.Unique
import UcdTables.Proofs.Outcome
import UcdTables.Property.Map

/-!
# What a merge does

A map of properties is read through two views: which names it has and of what kind (`Has`), and
which codes they hold (`Holds`). Merging adds the entries to both views and takes nothing away.

* `eq_of_views`: the two views determine the map.
* `has_mergeEntries`, `holds_mergeEntries`: the map after a merge that succeeds.
* `mergeEntries_stops`: a merge stops only at a name of two kinds.
* `exists_merged_empty`: into the empty map, any draft can be merged.
-/

namespace UcdTables

/-- The draft lists a code under a name of a kind. -/
def Draft.Lists (d : Draft) (kind : PropertyKind) (name : String) (code : Code) : Prop :=
  ∃ e ∈ d.entries, e.kind = kind ∧ e.name = name ∧ code ∈ e.codes

theorem DraftEntry.mem_codes {e : DraftEntry} {code : Code} :
    code ∈ e.codes ↔ CodeRange.Covers e.ranges.toList code := by
  simp [DraftEntry.codes, CodeRange.Covers, List.mem_flatMap]

namespace PropertyMap

/-- A name of the map is of a kind. -/
def Has (m : PropertyMap) (kind : PropertyKind) (name : String) : Prop :=
  ∃ p, m.find? name = some p ∧ p.kind = kind

/-- A name of the map is of a kind and holds a code. -/
def Holds (m : PropertyMap) (kind : PropertyKind) (name : String) (code : Code) : Prop :=
  ∃ p, m.find? name = some p ∧ p.kind = kind ∧ code ∈ p

theorem Holds.has {m : PropertyMap} {kind : PropertyKind} {name : String} {code : Code}
    (h : m.Holds kind name code) : m.Has kind name := by
  obtain ⟨p, hp, hkind, -⟩ := h
  exact ⟨p, hp, hkind⟩

theorem Has.kind_unique {m : PropertyMap} {kind kind' : PropertyKind} {name : String}
    (h : m.Has kind name) (h' : m.Has kind' name) : kind = kind' := by
  obtain ⟨p, hp, rfl⟩ := h
  obtain ⟨p', hp', rfl⟩ := h'
  rw [hp, Option.some.injEq] at hp'
  rw [hp']

theorem not_has_empty (kind : PropertyKind) (name : String) :
    ¬ Has NameMap.empty kind name := by
  rintro ⟨p, hp, -⟩
  simp at hp

theorem contains_eq_true_iff {m : PropertyMap} {name : String} :
    m.contains name = true ↔ ∃ kind, m.Has kind name := by
  rw [NameMap.contains, Option.isSome_iff_exists]
  constructor
  · intro hleft
    obtain ⟨p, hp⟩ := hleft
    exact ⟨p.kind, p, hp, rfl⟩
  · intro hright
    obtain ⟨_, p, hp, _⟩ := hright
    exact ⟨p, hp⟩

/-- A name is free if the map has it with no kind. -/
theorem find?_eq_none_iff {m : PropertyMap} {name : String} :
    m.find? name = none ↔ ∀ kind, ¬ m.Has kind name := by
  unfold Has
  cases m.find? name with
  | none => simp
  | some p => simp

/-- What a map holds under a name, by the two views. -/
theorem find?_eq_some_iff_views {m : PropertyMap} {name : String} {p : Property} :
    m.find? name = some p ↔
      m.Has p.kind name ∧ ∀ code, m.Holds p.kind name code ↔ code ∈ p := by
  constructor
  · intro hp
    refine ⟨⟨p, hp, rfl⟩, fun code => ?_⟩
    simp [Holds, hp]
  · intro hright
    obtain ⟨⟨q, hq, hkind⟩, hcodes⟩ := hright
    have hsame : q.codes = p.codes := by
      apply CodeSet.ext
      intro code
      simpa [Holds, hq, hkind, Property.mem_def] using hcodes code
    rw [hq]
    cases p
    cases q
    simp_all

/-- Two maps with the same names, kinds and codes are equal. -/
theorem eq_of_views {m n : PropertyMap} (hhas : ∀ kind name, m.Has kind name ↔ n.Has kind name)
    (hholds : ∀ kind name code, m.Holds kind name code ↔ n.Holds kind name code) : m = n := by
  apply NameMap.ext
  intro name
  apply Option.ext
  intro p
  rw [find?_eq_some_iff_views, find?_eq_some_iff_views, hhas]
  simp only [hholds]

theorem has_insert {m : PropertyMap} {name other : String} {p : Property} {kind : PropertyKind} :
    Has (m.insert name p) kind other ↔
      (other = name ∧ p.kind = kind) ∨ (other ≠ name ∧ m.Has kind other) := by
  unfold Has
  rw [NameMap.find?_insert]
  by_cases h : other = name
  · simp [h]
  · simp [h]

theorem holds_insert {m : PropertyMap} {name other : String} {p : Property} {kind : PropertyKind}
    {code : Code} :
    Holds (m.insert name p) kind other code ↔
      (other = name ∧ p.kind = kind ∧ code ∈ p) ∨ (other ≠ name ∧ m.Holds kind other code) := by
  unfold Holds
  rw [NameMap.find?_insert]
  by_cases h : other = name
  · simp [h]
  · simp [h]

/-! ## One entry -/

/-- What the map holds under the name of an entry that is merged into it. -/
def joined (m : PropertyMap) (e : DraftEntry) : Property :=
  ⟨e.kind, .ofRanges (e.ranges.toList ++ ((m.find? e.name).map (·.codes.toRanges)).getD [])⟩

theorem mem_joined {m : PropertyMap} {e : DraftEntry} {code : Code} :
    code ∈ m.joined e ↔ code ∈ e.codes ∨ ∃ p, m.find? e.name = some p ∧ code ∈ p := by
  rw [Property.mem_def, joined, CodeSet.mem_ofRanges, CodeRange.covers_append,
    DraftEntry.mem_codes]
  cases m.find? e.name with
  | none => simp
  | some p => simp [Property.mem_def, CodeSet.mem_def]

theorem mergeEntry_eq_ok_iff {m grown : PropertyMap} {e : DraftEntry} :
    m.mergeEntry e = .ok grown ↔
      (∀ kind, m.Has kind e.name → kind = e.kind) ∧ grown = m.insert e.name (m.joined e) := by
  unfold mergeEntry joined Has
  cases m.find? e.name with
  | none => simp [eq_comm]
  | some p =>
    by_cases h : p.kind = e.kind
    · simp [h, eq_comm]
    · simp [h]

theorem mergeEntry_eq_error_iff {m : PropertyMap} {e : DraftEntry} {error : BuildError} :
    m.mergeEntry e = .error error ↔
      error = .duplicateProperty e.name ∧ ∃ kind, m.Has kind e.name ∧ kind ≠ e.kind := by
  unfold mergeEntry Has
  cases m.find? e.name with
  | none => simp
  | some p =>
    by_cases h : p.kind = e.kind
    · simp [h]
    · simp [h, eq_comm]

/-- A merged entry adds its name, and keeps the names that were there with their kinds. -/
theorem has_mergeEntry {m grown : PropertyMap} {e : DraftEntry} (h : m.mergeEntry e = .ok grown)
    {kind : PropertyKind} {name : String} :
    grown.Has kind name ↔ m.Has kind name ∨ (e.kind = kind ∧ e.name = name) := by
  obtain ⟨hkind, rfl⟩ := mergeEntry_eq_ok_iff.1 h
  rw [has_insert]
  constructor
  · rintro (⟨rfl, hk⟩ | ⟨-, hm⟩)
    · exact .inr ⟨hk, rfl⟩
    · exact .inl hm
  · rintro (hm | ⟨hk, rfl⟩)
    · by_cases hname : name = e.name
      · subst hname
        exact .inl ⟨rfl, (hkind kind hm).symm⟩
      · exact .inr ⟨hname, hm⟩
    · exact .inl ⟨rfl, hk⟩

/-- A merged entry adds its codes, and keeps the codes that were there. -/
theorem holds_mergeEntry {m grown : PropertyMap} {e : DraftEntry} (h : m.mergeEntry e = .ok grown)
    {kind : PropertyKind} {name : String} {code : Code} :
    grown.Holds kind name code ↔
      m.Holds kind name code ∨ (e.kind = kind ∧ e.name = name ∧ code ∈ e.codes) := by
  obtain ⟨hkind, rfl⟩ := mergeEntry_eq_ok_iff.1 h
  rw [holds_insert, mem_joined]
  constructor
  · rintro (⟨rfl, hk, hcode | ⟨p, hp, hcode⟩⟩ | ⟨-, hm⟩)
    · exact .inr ⟨hk, rfl, hcode⟩
    · exact .inl ⟨p, hp, (hkind p.kind ⟨p, hp, rfl⟩).trans hk, hcode⟩
    · exact .inl hm
  · rintro (hm | ⟨hk, rfl, hcode⟩)
    · by_cases hname : name = e.name
      · subst hname
        have hk := hkind kind hm.has
        obtain ⟨p, hp, -, hcode⟩ := hm
        exact .inl ⟨rfl, hk.symm, .inr ⟨p, hp, hcode⟩⟩
      · exact .inr ⟨hname, hm⟩
    · exact .inl ⟨rfl, hk, .inl hcode⟩

/-! ## A list of entries -/

/-- A merge that succeeds adds the names of all entries. -/
theorem has_mergeEntries {m grown : PropertyMap} {es : List DraftEntry}
    (h : m.mergeEntries es = (grown, .ok ())) {kind : PropertyKind} {name : String} :
    grown.Has kind name ↔ m.Has kind name ∨ ∃ e ∈ es, e.kind = kind ∧ e.name = name := by
  induction es generalizing m with
  | nil =>
    obtain rfl : m = grown := congrArg Prod.fst h
    simp
  | cons e es ih =>
    rw [mergeEntries] at h
    cases he : m.mergeEntry e with
    | error error => simp [he] at h
    | ok next =>
      rw [he] at h
      rw [ih h, has_mergeEntry he, or_assoc]
      simp

/-- A merge that succeeds adds the codes of all entries. -/
theorem holds_mergeEntries {m grown : PropertyMap} {es : List DraftEntry}
    (h : m.mergeEntries es = (grown, .ok ())) {kind : PropertyKind} {name : String} {code : Code} :
    grown.Holds kind name code ↔
      m.Holds kind name code ∨ ∃ e ∈ es, e.kind = kind ∧ e.name = name ∧ code ∈ e.codes := by
  induction es generalizing m with
  | nil =>
    obtain rfl : m = grown := congrArg Prod.fst h
    simp
  | cons e es ih =>
    rw [mergeEntries] at h
    cases he : m.mergeEntry e with
    | error error => simp [he] at h
    | ok next =>
      rw [he] at h
      rw [ih h, holds_mergeEntry he, or_assoc]
      simp

/-- The map holds codes of the code space only. -/
def Bounded (m : PropertyMap) : Prop := ∀ kind name code, m.Holds kind name code → code ≤ lastCode

theorem bounded_empty : Bounded NameMap.empty := fun kind name _ h =>
  absurd h.has (not_has_empty kind name)

/-- Whatever becomes of a merge, the codes come from the map or from the entries. -/
theorem Holds.of_mergeEntries {m : PropertyMap} {es : List DraftEntry} {kind : PropertyKind}
    {name : String} {code : Code} (h : (m.mergeEntries es).1.Holds kind name code) :
    m.Holds kind name code ∨ ∃ e ∈ es, e.kind = kind ∧ e.name = name ∧ code ∈ e.codes := by
  induction es generalizing m with
  | nil => exact .inl h
  | cons e es ih =>
    rw [mergeEntries] at h
    cases he : m.mergeEntry e with
    | error error =>
      rw [he] at h
      exact .inl h
    | ok next =>
      rw [he] at h
      rcases ih h with hn | ⟨e', he', hcode⟩
      · rcases (holds_mergeEntry he).1 hn with hm | hcode
        · exact .inl hm
        · exact .inr ⟨e, by simp, hcode⟩
      · exact .inr ⟨e', by simp [he'], hcode⟩

/-- Whatever becomes of a merge, it brings no code beyond the code space. -/
theorem bounded_mergeEntries {m : PropertyMap} {es : List DraftEntry} (hm : m.Bounded)
    (hes : ∀ e ∈ es, ∀ code ∈ e.codes, code ≤ lastCode) : (m.mergeEntries es).1.Bounded := by
  intro kind name code hcode
  rcases Holds.of_mergeEntries hcode with hcode | ⟨e, he, -, -, hcode⟩
  · exact hm kind name code hcode
  · exact hes e he code hcode

/-- A merge stops at an entry whose name the map has with another kind, and the entries before it
are merged. -/
theorem mergeEntries_stops {m grown : PropertyMap} {es : List DraftEntry} {error : BuildError}
    (hdistinct : (es.map (·.name)).Nodup) (h : m.mergeEntries es = (grown, .error error)) :
    ∃ before e after, es = before ++ e :: after ∧ m.mergeEntries before = (grown, .ok ()) ∧
      error = .duplicateProperty e.name ∧ ∃ kind, m.Has kind e.name ∧ kind ≠ e.kind := by
  induction es generalizing m with
  | nil => cases h
  | cons e es ih =>
    rw [List.map_cons, List.nodup_cons] at hdistinct
    rw [mergeEntries] at h
    cases he : m.mergeEntry e with
    | error error' =>
      rw [he] at h
      obtain ⟨rfl, herror⟩ := Prod.mk.inj h
      obtain rfl := Except.error.inj herror
      exact ⟨[], e, es, rfl, rfl, mergeEntry_eq_error_iff.1 he⟩
    | ok next =>
      rw [he] at h
      obtain ⟨before, e', after, rfl, hmerged, rfl, kind, hhas, hne⟩ := ih hdistinct.2 h
      refine ⟨e :: before, e', after, rfl, ?_, rfl, kind, ?_, hne⟩
      · rw [mergeEntries, he]
        exact hmerged
      · rcases (has_mergeEntry he).1 hhas with hm | ⟨-, hname⟩
        · exact hm
        -- the entry merged just now has another name than all that follow it
        · exact absurd (hname ▸ List.mem_map_of_mem (by simp)) hdistinct.1

/-- A merge fails at an entry whose name the map has with another kind. -/
theorem mergeEntries_eq_error {m : PropertyMap} {es : List DraftEntry} {error : BuildError}
    (hdistinct : (es.map (·.name)).Nodup) (h : (m.mergeEntries es).2 = .error error) :
    ∃ e ∈ es, error = .duplicateProperty e.name ∧ ∃ kind, m.Has kind e.name ∧ kind ≠ e.kind := by
  obtain ⟨before, e, after, rfl, -, he⟩ := mergeEntries_stops hdistinct (Prod.ext rfl h)
  exact ⟨e, by simp, he⟩

/-! ## A draft -/

theorem merged_eq (m : PropertyMap) (d : Draft) : m.merged d =
    (m.mergeEntries d.entries).2.map fun _ => (m.mergeEntries d.entries).1 := rfl

theorem merged_eq_ok_iff {m grown : PropertyMap} {d : Draft} :
    m.merged d = .ok grown ↔ m.mergeEntries d.entries = (grown, .ok ()) := by
  rw [merged_eq, map_fst_eq_ok_iff]

theorem merged_eq_error_iff {m : PropertyMap} {d : Draft} {error : BuildError} :
    m.merged d = .error error ↔ (m.mergeEntries d.entries).2 = .error error := by
  rw [merged_eq, map_fst_eq_error_iff]

/-- A draft merged into a map adds what it lists. -/
theorem holds_merged {m grown : PropertyMap} {d : Draft} (h : m.merged d = .ok grown)
    {kind : PropertyKind} {name : String} {code : Code} :
    grown.Holds kind name code ↔ m.Holds kind name code ∨ d.Lists kind name code :=
  holds_mergeEntries (merged_eq_ok_iff.1 h)

theorem has_merged {m grown : PropertyMap} {d : Draft} (h : m.merged d = .ok grown)
    {kind : PropertyKind} {name : String} :
    grown.Has kind name ↔ m.Has kind name ∨ ∃ e ∈ d.entries, e.kind = kind ∧ e.name = name :=
  has_mergeEntries (merged_eq_ok_iff.1 h)

/-- A draft cannot be merged into a map that has one of its names with another kind. -/
theorem merged_eq_error {m : PropertyMap} {d : Draft} {error : BuildError}
    (h : m.merged d = .error error) :
    ∃ e ∈ d.entries, error = .duplicateProperty e.name ∧
      ∃ kind, m.Has kind e.name ∧ kind ≠ e.kind :=
  mergeEntries_eq_error d.distinct (merged_eq_error_iff.1 h)

/-- A draft merged into the empty map is all that the map has. -/
theorem holds_merged_empty {m : PropertyMap} {d : Draft} (h : merged .empty d = .ok m)
    {kind : PropertyKind} {name : String} {code : Code} :
    m.Holds kind name code ↔ d.Lists kind name code := by
  rw [holds_merged h]
  exact or_iff_right fun hempty => not_has_empty kind name hempty.has

/-- A draft can always be merged into the empty map. -/
theorem exists_merged_empty (d : Draft) : ∃ m, merged .empty d = .ok m := by
  apply eq_ok_of_forall_ne_error
  intro error h
  obtain ⟨e, -, -, kind, hhas, -⟩ := merged_eq_error h
  exact not_has_empty kind e.name hhas

end PropertyMap

end UcdTables
