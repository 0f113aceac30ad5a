/-!
# Maps from names

A finite map whose keys are names, kept as its list of entries in ascending order of names. Names
compare by code point, and so by the bytes of their UTF-8 form.

* `find?_insert`: what a map holds after an insertion.
* `find?_eq_some_iff`: what a map holds is what its entries say.
* `NameMap.ext`: what a map holds determines it.
-/

namespace UcdTables

/-- Two lists in ascending order of keys that have the same members are equal. -/
theorem eq_of_ascending {α β : Type} [LE β] [LT β] [Std.LawfulOrderLT β] [Std.IsLinearOrder β]
    (key : α → β) {as bs : List α} (ha : as.Pairwise fun a b => key a < key b)
    (hb : bs.Pairwise fun a b => key a < key b) (h : ∀ a, a ∈ as ↔ a ∈ bs) : as = bs := by
  have nodup : ∀ cs : List α, (cs.Pairwise fun a b => key a < key b) → cs.Nodup := by
    intro cs hcs
    apply hcs.imp
    rintro a _ hlt rfl
    exact Std.lt_irrefl hlt
  have hperm : as.Perm bs := (List.perm_ext_iff_of_nodup (nodup as ha) (nodup bs hb)).2 h
  refine hperm.eq_of_pairwise ?_ ha hb
  intro a b _ _ hlt hgt
  exact absurd (Std.lt_trans hlt hgt) Std.lt_irrefl

/-- A finite map from names, as its entries in ascending order of names. -/
structure NameMap (α : Type) where
  entries : List (String × α)
  sorted : entries.Pairwise fun a b => a.1 < b.1

namespace NameMap

variable {α : Type}

/-- The map of no names. -/
def empty : NameMap α := ⟨[], .nil⟩

/-- What the map holds under a name. -/
def find? (m : NameMap α) (name : String) : Option α := m.entries.lookup name

/-- Whether the map holds something under a name. -/
def contains (m : NameMap α) (name : String) : Bool := (m.find? name).isSome

/-- The names in ascending order. -/
def names (m : NameMap α) : List String := m.entries.map (·.1)

/-- The number of names. -/
def size (m : NameMap α) : Nat := m.entries.length

/-- Whether the map holds no name. -/
def isEmpty (m : NameMap α) : Bool := m.entries.isEmpty

/-- Puts an entry in its place, and in place of an entry of the same name. -/
def insertEntry (name : String) (value : α) : List (String × α) → List (String × α)
  | [] => [(name, value)]
  | e :: es =>
    if name < e.1 then (name, value) :: e :: es
    else if name = e.1 then (name, value) :: es
    else e :: insertEntry name value es

theorem mem_insertEntry {name : String} {value : α} {es : List (String × α)} {e : String × α}
    (h : e ∈ insertEntry name value es) : e = (name, value) ∨ e ∈ es := by
  induction es with
  | nil => simpa [insertEntry] using h
  | cons d es ih =>
    rw [insertEntry] at h
    split at h
    next => simpa using h
    next =>
      split at h
      next => grind
      next => grind

theorem sorted_insertEntry {name : String} {value : α} {es : List (String × α)}
    (h : es.Pairwise fun a b => a.1 < b.1) :
    (insertEntry name value es).Pairwise fun a b => a.1 < b.1 := by
  induction es with
  | nil => simp [insertEntry]
  | cons d es ih =>
    obtain ⟨hd, hes⟩ := List.pairwise_cons.1 h
    rw [insertEntry]
    split
    next hlt =>
      refine List.pairwise_cons.2 ⟨fun e he => ?_, h⟩
      rcases List.mem_cons.1 he with rfl | he
      · exact hlt
      · exact String.lt_trans hlt (hd e he)
    next hlt =>
      split
      next heq => exact List.pairwise_cons.2 ⟨fun e he => heq ▸ hd e he, hes⟩
      next hne =>
        refine List.pairwise_cons.2 ⟨fun e he => ?_, ih hes⟩
        rcases mem_insertEntry he with rfl | he
        · rcases Std.lt_trichotomy name d.1 with h | h | h
          · exact absurd h hlt
          · exact absurd h hne
          · exact h
        · exact hd e he

/-- The map with a value under a name, in place of what it held there. -/
def insert (m : NameMap α) (name : String) (value : α) : NameMap α :=
  ⟨insertEntry name value m.entries, sorted_insertEntry m.sorted⟩

private theorem lookup_entry {name key : String} {value : α} {es : List (String × α)} :
    List.lookup name ((key, value) :: es) = if name = key then some value else es.lookup name := by
  rw [List.lookup_cons]
  by_cases h : name = key
  · simp [h]
  · simp [h, beq_eq_false_iff_ne.2 h]

private theorem lookup_insertEntry {name other : String} {value : α} {es : List (String × α)} :
    (insertEntry name value es).lookup other =
      if other = name then some value else es.lookup other := by
  induction es with
  | nil => rw [insertEntry, lookup_entry]
  | cons d es ih =>
    obtain ⟨key, held⟩ := d
    rw [insertEntry]
    split
    next => rw [lookup_entry]
    next =>
      split
      next heq =>
        obtain rfl : name = key := heq
        rw [lookup_entry, lookup_entry]
        split <;> rfl
      next hne =>
        rw [lookup_entry, lookup_entry, ih]
        by_cases h : other = key
        · rw [if_pos h, if_pos h, if_neg (h ▸ Ne.symm hne)]
        · rw [if_neg h, if_neg h]

@[simp] theorem find?_empty (name : String) : (empty : NameMap α).find? name = none := rfl

/-- An insertion changes what the map holds under its own name only. -/
theorem find?_insert (m : NameMap α) (name other : String) (value : α) :
    (m.insert name value).find? other = if other = name then some value else m.find? other :=
  lookup_insertEntry

theorem find?_eq_some_iff {m : NameMap α} {name : String} {value : α} :
    m.find? name = some value ↔ (name, value) ∈ m.entries := by
  obtain ⟨es, hes⟩ := m
  simp only [find?]
  induction es with
  | nil => simp
  | cons d es ih =>
    obtain ⟨key, held⟩ := d
    obtain ⟨hd, hes⟩ := List.pairwise_cons.1 hes
    rw [lookup_entry, List.mem_cons, Prod.mk.injEq]
    split
    next h =>
      subst h
      simp only [Option.some.injEq, true_and, eq_comm (a := held)]
      exact (or_iff_left fun h => String.lt_irrefl _ (hd (name, value) h)).symm
    next h => simp [ih hes, h]

/-- Two maps that hold the same under each name are equal. -/
theorem ext {m n : NameMap α} (h : ∀ name, m.find? name = n.find? name) : m = n := by
  have hentries : m.entries = n.entries := by
    apply eq_of_ascending (·.1) m.sorted n.sorted
    intro e
    rw [← find?_eq_some_iff, ← find?_eq_some_iff, h]
  cases m
  cases n
  congr

end NameMap

end UcdTables
