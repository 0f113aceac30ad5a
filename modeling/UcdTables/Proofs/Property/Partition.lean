import Mathlib.Data.List.Nodup
import UcdTables.Property.Partition
import UcdTables.Proofs.Code.Ascending
import UcdTables.Proofs.Property.Merge

/-!
# When the partition check passes

The check passes over a map in which each code of the code space lies in one general and in one
major category, and these hold no other codes.

* `multiplicity_setsOfKind`: where one name of a kind holds a code, its sets hold it once.
-/

namespace UcdTables.PropertyMap

/-- Each code of the code space lies in one property of a kind, and no other code in any. -/
structure PartitionedBy (m : PropertyMap) (kind : PropertyKind) : Prop where
  bounded : ∀ name code, m.Holds kind name code → code ≤ lastCode
  unique : ∀ code ≤ lastCode, ∃ name, m.Holds kind name code ∧
    ∀ other, m.Holds kind other code → other = name

theorem nodup_entries (m : PropertyMap) : m.entries.Nodup := by
  refine List.Pairwise.imp ?_ m.sorted
  rintro a b hlt rfl
  exact String.lt_irrefl a.1 hlt

private theorem countP_eq_one {α : Type} [DecidableEq α] {l : List α} {p : α → Bool} {a : α}
    (hl : l.Nodup) (ha : a ∈ l) (hp : p a = true) (h : ∀ b ∈ l, p b = true → b = a) :
    l.countP p = 1 := by
  have hcongr : l.countP p = l.count a := by
    apply List.countP_congr
    intro b hb
    constructor
    · intro hpb
      simpa using h b hb hpb
    · intro hba
      obtain rfl : b = a := by simpa using hba
      exact hp
  rw [hcongr, List.count_eq_one_of_mem hl ha]

/-- Where one name of a kind holds a code, the sets of that kind hold it once. -/
theorem multiplicity_setsOfKind {m : PropertyMap} {kind : PropertyKind} {name : String}
    {code : Code} (h : m.Holds kind name code)
    (hunique : ∀ other, m.Holds kind other code → other = name) :
    multiplicity (m.setsOfKind kind) code = 1 := by
  obtain ⟨p, hp, hkind, hcode⟩ := h
  unfold multiplicity setsOfKind
  rw [List.countP_map, List.countP_filter]
  refine countP_eq_one (a := (name, p)) m.nodup_entries (NameMap.find?_eq_some_iff.1 hp) ?_ ?_
  · simp [hkind, CodeSet.contains_eq_true_iff.2 hcode]
  · rintro ⟨other, q⟩ hq hboth
    simp only [Function.comp_apply, Bool.and_eq_true, CodeSet.contains_eq_true_iff,
      decide_eq_true_eq] at hboth
    have hfound := NameMap.find?_eq_some_iff.2 hq
    obtain rfl : other = name := hunique other ⟨q, hfound, hboth.2, hboth.1⟩
    rw [hp, Option.some.injEq] at hfound
    rw [hfound]

/-- No property of the kind holds a code beyond the code space. -/
def WithinCodeSpace (m : PropertyMap) (kind : PropertyKind) : Prop :=
  ∀ name code, m.Holds kind name code → code ≤ lastCode

/-- The greatest codes of the sets tell whether one of them leaves the code space. -/
theorem any_beyond_iff {m : PropertyMap} {kind : PropertyKind} :
    (m.setsOfKind kind).any (fun s => s.last?.any (lastCode < ·)) = true ↔
      ¬ m.WithinCodeSpace kind := by
  unfold WithinCodeSpace setsOfKind
  rw [List.any_eq_true]
  constructor
  · rintro ⟨s, hs, hbeyond⟩ hwithin
    obtain ⟨⟨name, p⟩, hp, rfl⟩ := List.mem_map.1 hs
    rw [List.mem_filter, decide_eq_true_eq] at hp
    cases hlast : p.codes.last? with
    | none => simp [hlast] at hbeyond
    | some last =>
      have hle := hwithin name last
        ⟨p, NameMap.find?_eq_some_iff.2 hp.1, hp.2, CodeSet.mem_of_last? hlast⟩
      have hlt : lastCode < last := by simpa [hlast] using hbeyond
      exact UInt32.not_le.2 hlt hle
  · intro hout
    simp only [not_forall] at hout
    obtain ⟨name, code, ⟨p, hp, hkind, hcode⟩, hlt⟩ := hout
    obtain ⟨last, hlast, hle⟩ := CodeSet.exists_last?_ge hcode
    refine ⟨p.codes, List.mem_map.2 ⟨(name, p), ?_, rfl⟩, ?_⟩
    · exact List.mem_filter.2 ⟨NameMap.find?_eq_some_iff.1 hp, by simpa using hkind⟩
    · rw [hlast]
      simpa using UInt32.lt_of_lt_of_le (UInt32.not_le.1 hlt) hle

theorem checkKind_eq_ok {m : PropertyMap} {kind : PropertyKind} (h : m.PartitionedBy kind) :
    m.checkKind kind = .ok () := by
  have hbounded : (m.setsOfKind kind).any (fun s => s.last?.any (lastCode < ·)) = false :=
    Bool.eq_false_iff.2 fun hany => any_beyond_iff.1 hany h.bounded
  have hfound : (breakpoints (m.setsOfKind kind)).find?
      (multiplicity (m.setsOfKind kind) · ≠ 1) = none := by
    rw [List.find?_eq_none]
    intro code hcode
    have hle : code ≤ lastCode := by
      have hmem := List.mem_mergeSort.1 hcode
      simpa using (List.mem_filter.1 hmem).2
    obtain ⟨name, hholds, hunique⟩ := h.unique code hle
    simp [multiplicity_setsOfKind hholds hunique]
  unfold checkKind
  simp only [hbounded, hfound]
  rfl

/-- The check passes if the code space is partitioned by the categories of both kinds. -/
theorem checkPartition_eq_ok {m : PropertyMap} (hgeneral : m.PartitionedBy .generalCategory)
    (hmajor : m.PartitionedBy .majorCategory) : m.checkPartition = .ok () := by
  rw [checkPartition, checkKind_eq_ok hgeneral]
  exact checkKind_eq_ok hmajor

end UcdTables.PropertyMap
