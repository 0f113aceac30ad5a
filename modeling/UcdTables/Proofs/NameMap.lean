import Mathlib.Data.List.Dedup
import UcdTables.NameMap

/-!
# The names of a map

A map has each of its names once, in ascending order. So a map whose names are those of a list has
at most as many names as the list has members, and fewer if the list repeats a name.
-/

namespace UcdTables

/-- Two lists with the same members in ascending order of keys are equal if one repeats no key. -/
theorem eq_of_perm_of_ascending {α β : Type} [LE β] [LT β] [Std.LawfulOrderLT β]
    [Std.IsLinearOrder β] (key : α → β) {as bs : List α} (hperm : as.Perm bs)
    (has : as.Pairwise fun a b => key a ≤ key b) (hbs : bs.Pairwise fun a b => key a < key b) :
    as = bs := by
  have hkeys : (bs.map key).Nodup := by
    rw [List.Nodup, List.pairwise_map]
    exact hbs.imp Std.ne_of_lt
  refine hperm.eq_of_pairwise ?_ has (hbs.imp Std.le_of_lt)
  intro a b ha hb hle hge
  exact List.inj_on_of_nodup_map hkeys (hperm.mem_iff.1 ha) hb (Std.le_antisymm hle hge)

namespace NameMap

variable {α : Type} {m : NameMap α} {name : String}

theorem mem_names_iff : name ∈ m.names ↔ ∃ value, m.find? name = some value := by
  simp [names, find?_eq_some_iff]

theorem nodup_names (m : NameMap α) : m.names.Nodup := by
  rw [names, List.Nodup, List.pairwise_map]
  exact m.sorted.imp Std.ne_of_lt

theorem length_names (m : NameMap α) : m.names.length = m.size := List.length_map _

/-- A map with the names of a list has each of them once. -/
theorem names_perm_dedup {names : List String} (h : ∀ name, name ∈ m.names ↔ name ∈ names) :
    m.names.Perm names.dedup := by
  rw [List.perm_ext_iff_of_nodup m.nodup_names (List.nodup_dedup names)]
  simp [h]

/-- A map has fewer names than a list that repeats one of them. -/
theorem size_le_of_names {names : List String} (h : ∀ name, name ∈ m.names ↔ name ∈ names) :
    m.size ≤ names.length ∧ (m.size = names.length ↔ names.Nodup) := by
  have hsub := List.dedup_sublist names
  rw [← length_names, (names_perm_dedup h).length_eq]
  refine ⟨hsub.length_le, fun hlength => ?_, fun hnodup => by rw [hnodup.dedup]⟩
  rw [← hsub.eq_of_length hlength]
  exact List.nodup_dedup names

end NameMap

end UcdTables
