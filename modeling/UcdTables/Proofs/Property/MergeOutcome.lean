import UcdTables.Proofs.Property.Growth
import UcdTables.Proofs.Property.MergeOrder

/-!
# What becomes of one merge

A draft gives its entries in some order. Either all of them are merged, and then the order leaves no
trace in the map, or the merge stops at the first entry whose name the map has with another kind.
In that case the entries before it are merged, and nothing else has happened.

* `Joins`: a map, and entries merged into it.
* `joins_mergeEntries`: what a merge that succeeds does to each name.
* `merges_ok_iff`, `Merges.exists_entry`: a merge in any order that succeeds, and one that fails.
* `mergeEntries_joins_or_stops`: both cases, for any order of the entries.
-/

namespace UcdTables.PropertyMap

variable {m grown : PropertyMap} {es : List DraftEntry}

/-- A map, entries merged into it. -/
structure Joins (m : PropertyMap) (es : List DraftEntry) (grown : PropertyMap) : Prop where
  /-- The map had none of the names with another kind. -/
  agree : ∀ e ∈ es, ∀ p, m.find? e.name = some p → p.kind = e.kind
  /-- Each name has the kind of its entry, and the codes of the entry beside those that it had, in
  ascending order. -/
  joined : ∀ e ∈ es, ∃ p, grown.find? e.name = some p ∧ p.kind = e.kind ∧
    p.codes.codes.Pairwise (· < ·) ∧
    ∀ code, code ∈ p.codes.codes ↔
      code ∈ e.codes ∨ ∃ q, m.find? e.name = some q ∧ code ∈ q.codes.codes
  /-- All other names keep their sets, or stay free. -/
  others : ∀ name, name ∉ es.map (·.name) → grown.find? name = m.find? name

/-- A merge that succeeds joins each entry with what the map had under its name. -/
theorem joins_mergeEntries (hdistinct : (es.map (·.name)).Nodup)
    (h : m.mergeEntries es = (grown, .ok ())) : Joins m es grown := by
  have hnamed : ∀ e ∈ es, grown.Has e.kind e.name := fun e he =>
    (has_mergeEntries h).2 (.inr ⟨e, he, rfl, rfl⟩)
  have hagree : ∀ e ∈ es, ∀ p, m.find? e.name = some p → p.kind = e.kind := by
    intro e he p hp
    have hkept : grown.Has p.kind e.name := (has_mergeEntries h).2 (.inl ⟨p, hp, rfl⟩)
    exact hkept.kind_unique (hnamed e he)
  refine Joins.mk hagree ?joined ?others
  case joined =>
    intro e he
    obtain ⟨p, hp, hkind⟩ := hnamed e he
    refine ⟨p, hp, hkind, p.codes.pairwise_codes, fun code => ?_⟩
    have hholds : code ∈ p ↔ grown.Holds e.kind e.name code :=
      hkind ▸ ((find?_eq_some_iff_views.1 hp).2 code).symm
    rw [CodeSet.mem_codes, ← Property.mem_def, hholds, holds_mergeEntries h, or_comm]
    apply or_congr
    · constructor
      · rintro ⟨f, hf, -, hname, hcode⟩
        obtain rfl : f = e := List.inj_on_of_nodup_map hdistinct hf he hname
        exact hcode
      · intro hcode
        exact ⟨e, he, rfl, rfl, hcode⟩
    · refine exists_congr fun q => and_congr_right fun hq => ?_
      rw [CodeSet.mem_codes, ← Property.mem_def]
      exact and_iff_right (hagree e he q hq)
  case others =>
    intro name hname
    have hfind := find?_mergeEntries_of_not_mem m hname
    rwa [h] at hfind

/-- Entries of different names can be merged if the map has none of the names with another kind,
and only then. -/
theorem mergeEntries_eq_ok_iff (hdistinct : (es.map (·.name)).Nodup) :
    (m.mergeEntries es).2 = .ok () ↔
      ∀ e ∈ es, ∀ p, m.find? e.name = some p → p.kind = e.kind := by
  constructor
  · intro hok
    exact (joins_mergeEntries hdistinct (Prod.ext rfl hok)).agree
  · intro hagree
    have hnone : ∀ error, (m.mergeEntries es).2 ≠ .error error := by
      intro error herror
      obtain ⟨e, he, -, kind, ⟨p, hp, rfl⟩, hne⟩ := mergeEntries_eq_error hdistinct herror
      exact hne (hagree e he p hp)
    obtain ⟨⟨⟩, hok⟩ := eq_ok_of_forall_ne_error hnone
    exact hok

/-- A merge that fails has merged the entries before the one at fault, and left alone that one and
those after it. -/
theorem joins_of_mergeEntries_eq_error {error : BuildError} (hdistinct : (es.map (·.name)).Nodup)
    (h : m.mergeEntries es = (grown, .error error)) :
    ∃ before e after, es = before ++ e :: after ∧ (∃ p, m.find? e.name = some p ∧ p.kind ≠ e.kind) ∧
      error = .duplicateProperty e.name ∧ Joins m before grown ∧
      ∀ f ∈ e :: after, grown.find? f.name = m.find? f.name := by
  obtain ⟨before, e, after, rfl, hmerged, he, kind, ⟨p, hp, rfl⟩, hne⟩ :=
    mergeEntries_stops hdistinct h
  rw [List.map_append, List.nodup_append] at hdistinct
  obtain ⟨hbefore, -, hapart⟩ := hdistinct
  have hjoins := joins_mergeEntries hbefore hmerged
  refine ⟨before, e, after, rfl, ⟨p, hp, hne⟩, he, hjoins, fun f hf => ?_⟩
  apply hjoins.others
  exact fun hname => hapart _ hname _ (List.mem_map_of_mem hf) rfl

/-- Entries of different names have one kind for each name. -/
theorem oneKind_of_agree (hdistinct : (es.map (·.name)).Nodup)
    (h : ∀ e ∈ es, ∀ p, m.find? e.name = some p → p.kind = e.kind) : OneKind m es := by
  constructor
  · rintro e he kind ⟨p, hp, rfl⟩
    exact h e he p hp
  · intro e he f hf hname
    rw [List.inj_on_of_nodup_map hdistinct he hf hname]

/-- The names of a draft are different in any order of its entries. -/
theorem nodup_names_of_perm {d : Draft} {order : List DraftEntry} (h : order.Perm d.entries) :
    (order.map (·.name)).Nodup := (h.map _).nodup_iff.2 d.distinct

/-- A draft is merged into a map, its entries in some order: what that leaves, and its outcome. -/
def Merges (m : PropertyMap) (d : Draft) (grown : PropertyMap) (outcome : Except BuildError Unit) :
    Prop :=
  ∃ order : List DraftEntry, order.Perm d.entries ∧ m.mergeEntries order = (grown, outcome)

/-- A merge that succeeds leaves the same map in any order. -/
theorem merges_ok_iff {d : Draft} : m.Merges d grown (.ok ()) ↔ m.merged d = .ok grown := by
  rw [merged_eq_ok_iff]
  constructor
  · rintro ⟨order, hperm, horder⟩
    have hdistinct := nodup_names_of_perm hperm
    have honeKind := oneKind_of_agree hdistinct (joins_mergeEntries hdistinct horder).agree
    exact mergeEntries_congr honeKind horder (.of_perm hperm)
  · intro h
    exact ⟨d.entries, .refl _, h⟩

theorem exists_merges_of_merged {d : Draft} {error : BuildError} (h : m.merged d = .error error) :
    ∃ grown, m.Merges d grown (.error error) :=
  ⟨_, d.entries, .refl _, Prod.ext rfl (merged_eq_error_iff.1 h)⟩

/-- In any order, a merge fails only at an entry whose name the map has with another kind. -/
theorem Merges.exists_entry {d : Draft} {error : BuildError}
    (h : m.Merges d grown (.error error)) :
    ∃ e ∈ d.entries, error = .duplicateProperty e.name ∧
      ∃ kind, m.Has kind e.name ∧ kind ≠ e.kind := by
  obtain ⟨order, hperm, horder⟩ := h
  obtain ⟨e, he, hname⟩ :=
    mergeEntries_eq_error (nodup_names_of_perm hperm) (congrArg Prod.snd horder)
  exact ⟨e, hperm.mem_iff.1 he, hname⟩

/-- What becomes of a map into which the entries of a draft are merged in some order. -/
structure MergeOutcome (m : PropertyMap) (d : Draft) (order : List DraftEntry)
    (grown : PropertyMap) (outcome : Except BuildError Unit) : Prop where
  /-- The merge succeeds if the map has none of the names with another kind, and only then. -/
  succeeds : outcome = .ok () ↔
    ∀ e ∈ d.entries, ∀ p, m.find? e.name = some p → p.kind = e.kind
  /-- If it succeeds, all entries are merged. -/
  merged : outcome = .ok () → Joins m d.entries grown
  /-- If it succeeds, any other order leads to the same map. -/
  anyOrder : outcome = .ok () → ∀ other : List DraftEntry, other.Perm d.entries →
    m.mergeEntries other = (grown, .ok ())
  /-- Otherwise the first entry in the given order that finds its name with another kind is at
  fault. The entries before it are merged, and it leaves no trace, nor do those after it. -/
  stopped : ∀ error, outcome = .error error → ∃ before e after, order = before ++ e :: after ∧
    (∃ p, m.find? e.name = some p ∧ p.kind ≠ e.kind) ∧ error = .duplicateProperty e.name ∧
    Joins m before grown ∧ ∀ f ∈ e :: after, grown.find? f.name = m.find? f.name
  /-- A name that the draft does not mention keeps its set, or stays free. -/
  unmentioned : ∀ name, name ∉ d.entries.map (·.name) → grown.find? name = m.find? name
  /-- A draft of one name that cannot be merged leaves the map as it was. -/
  alone : ∀ e error, d.entries = [e] → outcome = .error error → grown = m

/-- The entries of a draft are all merged into a map, in any order, or the merge stops at the first
of them that finds its name with another kind. -/
theorem mergeEntries_joins_or_stops (m : PropertyMap) (d : Draft) {order : List DraftEntry}
    (h : order.Perm d.entries) :
    MergeOutcome m d order (m.mergeEntries order).1 (m.mergeEntries order).2 := by
  have hdistinct := nodup_names_of_perm h
  have hsucceeds : (m.mergeEntries order).2 = .ok () ↔
      ∀ e ∈ d.entries, ∀ p, m.find? e.name = some p → p.kind = e.kind := by
    simp only [mergeEntries_eq_ok_iff hdistinct, h.mem_iff]
  have hanyOrder : (m.mergeEntries order).2 = .ok () → ∀ other : List DraftEntry,
      other.Perm d.entries → m.mergeEntries other = ((m.mergeEntries order).1, .ok ()) := by
    intro hok other hother
    have honeKind := oneKind_of_agree hdistinct ((mergeEntries_eq_ok_iff hdistinct).1 hok)
    exact mergeEntries_congr honeKind (Prod.ext rfl hok) (.of_perm (h.trans hother.symm))
  refine MergeOutcome.mk hsucceeds ?merged hanyOrder ?stopped ?unmentioned ?alone
  case merged =>
    intro hok
    exact joins_mergeEntries d.distinct (hanyOrder hok d.entries (.refl _))
  case stopped =>
    intro error herror
    exact joins_of_mergeEntries_eq_error hdistinct (Prod.ext rfl herror)
  case unmentioned =>
    intro name hname
    apply find?_mergeEntries_of_not_mem
    exact fun hmem => hname ((h.map _).mem_iff.1 hmem)
  case alone =>
    intro e error hentries herror
    obtain ⟨before, f, after, hsplit, -, -, hjoins, -⟩ :=
      joins_of_mergeEntries_eq_error hdistinct (Prod.ext rfl herror)
    rw [hentries, hsplit, List.perm_singleton, List.append_eq_singleton_iff] at h
    obtain ⟨rfl, -⟩ | ⟨-, hcons⟩ := h
    · exact NameMap.ext fun name => hjoins.others name List.not_mem_nil
    · cases hcons

/-- A draft of three scripts gives the one with the name of a category in the middle: the script
before it is merged, and the one after it is not reached. -/
theorem mergeEntries_joins_or_stops_category :
    let m : PropertyMap := NameMap.empty.insert "Lu" (.ofCodes .generalCategory [0x41])
    let greek : DraftEntry := ⟨"Greek", .script, #[.single 0x3B2, .single 0x3B1, .single 0x3B2]⟩
    let lu : DraftEntry := ⟨"Lu", .script, #[.single 0x43]⟩
    let thai : DraftEntry := ⟨"Thai", .script, #[.single 0xE01]⟩
    let d : Draft := ⟨[thai, greek, lu], by decide⟩
    let order := [greek, lu, thai]
    let grown := (m.mergeEntries order).1
    order.Perm d.entries ∧
      MergeOutcome m d order grown (.error (.duplicateProperty "Lu")) ∧
      grown.entries.map (fun e => (e.1, e.2.kind)) =
        [("Greek", .script), ("Lu", .generalCategory)] := by
  intro m greek lu thai d order grown
  have hperm : order.Perm d.entries := List.perm_append_singleton thai [greek, lu]
  have houtcome : (m.mergeEntries order).2 = .error (.duplicateProperty "Lu") := by
    decide +kernel
  exact ⟨hperm, houtcome ▸ mergeEntries_joins_or_stops m d hperm, by decide +kernel⟩

end UcdTables.PropertyMap
