import Mathlib.Data.List.Induction
import Mathlib.Data.List.Nodup
import UcdTables.Property.Draft

/-!
# Drafts as lists of mentions

A draft is what is left of the mentions that made it. Under each name it keeps the ranges of all
mentions of the name, one after the other, and the kind of the first.

* `Draft.entry?_ofMentions`: the entry of a name, for any list of mentions.
* `Draft.mem_entries_ofMentions`: the entries of a draft whose mentions agree on kinds.
-/

namespace UcdTables

/-- A name with its kind and ranges of codes, as it is added to a draft. -/
structure Mention where
  kind : PropertyKind
  name : String
  ranges : List CodeRange

namespace Mention

/-- The ranges of all mentions of a name that hold a code, in order. -/
def gathered (ms : List Mention) (name : String) : List CodeRange :=
  (ms.filter (·.name = name)).flatMap fun m => m.ranges.filter (·.Inhabited)

/-- Mentions of one name have one kind. -/
def Agree (ms : List Mention) : Prop :=
  ∀ m ∈ ms, ∀ m' ∈ ms, m.name = m'.name → m.kind = m'.kind

theorem gathered_append (ms ns : List Mention) (name : String) :
    gathered (ms ++ ns) name = gathered ms name ++ gathered ns name := by
  unfold gathered
  rw [List.filter_append, List.flatMap_append]

theorem gathered_eq_nil_of_find?_eq_none {ms : List Mention} {name : String}
    (h : ms.find? (·.name = name) = none) : gathered ms name = [] := by
  have hnone : ms.filter (·.name = name) = [] := by
    simpa [List.filter_eq_nil_iff, List.find?_eq_none] using h
  rw [gathered, hnone]
  rfl

theorem mem_gathered {ms : List Mention} {name : String} {r : CodeRange} :
    r ∈ gathered ms name ↔ ∃ m ∈ ms, m.name = name ∧ r ∈ m.ranges ∧ r.Inhabited := by
  simp [gathered, and_assoc]

end Mention

namespace Draft

/-- The draft with a mention added. -/
def mention (d : Draft) (m : Mention) : Draft := d.extend m.kind m.name m.ranges

/-- The draft of a list of mentions, added in order. -/
def ofMentions (ms : List Mention) : Draft := ms.foldl mention .empty

theorem ofMentions_concat (ms : List Mention) (m : Mention) :
    ofMentions (ms ++ [m]) = (ofMentions ms).mention m := by
  rw [ofMentions, List.foldl_append]
  rfl

/-! ## The entry of a name -/

theorem entry?_eq_some_iff {d : Draft} {name : String} {e : DraftEntry} :
    d.entry? name = some e ↔ e ∈ d.entries ∧ e.name = name := by
  constructor
  · intro h
    exact ⟨List.mem_of_find?_eq_some h, by simpa using List.find?_some h⟩
  · intro hright
    obtain ⟨he, rfl⟩ := hright
    cases hfound : d.entry? e.name with
    | none => simpa using List.find?_eq_none.1 hfound e he
    | some e' =>
      have hname : e'.name = e.name := by simpa using List.find?_some hfound
      rw [List.inj_on_of_nodup_map d.distinct (List.mem_of_find?_eq_some hfound) he hname]

private theorem find?_extendEntries (kind : PropertyKind) (name other : String)
    (ranges : List CodeRange) (es : List DraftEntry) :
    (extendEntries kind name ranges es).find? (·.name = other) =
      if name = other then
        some (match es.find? (·.name = name) with
          | some e => { e with ranges := e.ranges ++ ranges }
          | none => ⟨name, kind, ranges.toArray⟩)
      else es.find? (·.name = other) := by
  induction es with
  | nil =>
    by_cases h : name = other
    · simp [extendEntries, h]
    · simp [extendEntries, h]
  | cons e es ih =>
    rw [extendEntries]
    by_cases he : e.name = name
    · by_cases h : name = other
      · simp [he, h]
      · simp [he, h]
    · by_cases h : name = other
      · subst h
        rw [if_pos rfl] at ih
        simp [he, ih]
      · rw [if_neg h] at ih
        by_cases ho : e.name = other
        · simp [ho, h, Ne.symm h]
        · simp [he, ho, h, ih]

theorem entry?_mention (d : Draft) (m : Mention) (name : String) :
    entry? (d.mention m) name =
      if m.name = name then
        some (match d.entry? m.name with
          | some e => { e with ranges := e.ranges ++ m.ranges.filter (·.Inhabited) }
          | none => ⟨m.name, m.kind, (m.ranges.filter (·.Inhabited)).toArray⟩)
      else d.entry? name :=
  find?_extendEntries m.kind m.name name _ d.entries

/-- The entry of a name: the kind is that of the first mention, and no range of a later mention is
lost or moved. -/
theorem entry?_ofMentions (ms : List Mention) (name : String) :
    entry? (ofMentions ms) name =
      (ms.find? (·.name = name)).map fun m => ⟨name, m.kind, (Mention.gathered ms name).toArray⟩ := by
  induction ms using List.reverseRecOn with
  | nil => rfl
  | append_singleton ms m ih =>
    rw [ofMentions_concat, entry?_mention, List.find?_append, Mention.gathered_append]
    by_cases h : m.name = name
    · subst h
      rw [if_pos rfl, ih]
      cases hfirst : ms.find? (·.name = m.name) with
      | none =>
        rw [Mention.gathered_eq_nil_of_find?_eq_none hfirst]
        simp [Mention.gathered]
      | some first => simp [Mention.gathered]
    · have hm : Mention.gathered [m] name = [] := by simp [Mention.gathered, h]
      rw [if_neg h, ih, hm, List.append_nil]
      simp [h]

/-- Where the mentions agree on kinds, each of them has an entry, and there are no others. -/
theorem mem_entries_ofMentions {ms : List Mention} (h : Mention.Agree ms) {e : DraftEntry} :
    e ∈ (ofMentions ms).entries ↔
      ∃ m ∈ ms, e = ⟨m.name, m.kind, (Mention.gathered ms m.name).toArray⟩ := by
  have hentry : e ∈ (ofMentions ms).entries ↔ entry? (ofMentions ms) e.name = some e := by
    simp [entry?_eq_some_iff]
  rw [hentry, entry?_ofMentions, Option.map_eq_some_iff]
  constructor
  · intro hleft
    obtain ⟨m, hm, he⟩ := hleft
    have hname : m.name = e.name := by simpa using List.find?_some hm
    exact ⟨m, List.mem_of_find?_eq_some hm, by rw [hname]; exact he.symm⟩
  · intro hright
    obtain ⟨m, hm, rfl⟩ := hright
    cases hfirst : ms.find? (·.name = m.name) with
    | none => simpa using List.find?_eq_none.1 hfirst m hm
    | some first =>
      have hname : first.name = m.name := by simpa using List.find?_some hfirst
      exact ⟨first, rfl, by rw [h first (List.mem_of_find?_eq_some hfirst) m hm hname]⟩

end Draft

end UcdTables
