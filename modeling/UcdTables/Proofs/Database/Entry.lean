import UcdTables.Database.Assignment
import UcdTables.Proofs.Outcome

/-!
# The entries of the character database

The records of the character database fall into entries: a record that stands alone, or the two
records of a block, one directly after the other. An entry gives one category to a range of codes.

* `CharacterRecord.BeginsBlock`, `CharacterRecord.EndsBlock`: what the name of a record says.
* `exists_entries`: records to which categories can be assigned ascend and fall into entries, and
  the entries are what is assigned.
* `standsIn_iff_mem`: there is one way to cut the records into entries.
* `unique_of_mem_range`: no code lies in two entries.
-/

namespace UcdTables

/-! ## The names of the bounds -/

namespace CharacterRecord

variable {r : CharacterRecord}

/-- The name of the record says that a block begins with it. -/
def BeginsBlock (r : CharacterRecord) : Prop :=
  "<".toList <+: r.name.toList ∧ ", First>".toList <:+ r.name.toList

/-- The name of the record says that a block ends with it. -/
def EndsBlock (r : CharacterRecord) : Prop :=
  "<".toList <+: r.name.toList ∧ ", Last>".toList <:+ r.name.toList

instance (r : CharacterRecord) : Decidable r.BeginsBlock :=
  inferInstanceAs (Decidable ("<".toList <+: r.name.toList ∧ ", First>".toList <:+ r.name.toList))

instance (r : CharacterRecord) : Decidable r.EndsBlock :=
  inferInstanceAs (Decidable ("<".toList <+: r.name.toList ∧ ", Last>".toList <:+ r.name.toList))

/-- No name ends in both ways. -/
theorem BeginsBlock.not_endsBlock (h : r.BeginsBlock) : ¬ r.EndsBlock := by
  intro hends
  exact absurd (List.suffix_of_suffix_length_le hends.2 h.2 (by decide)) (by decide)

theorem bound?_eq_first_iff : r.bound? = some .first ↔ r.BeginsBlock := by
  simp only [bound?, BeginsBlock, ← List.isPrefixOf_iff_prefix, ← List.isSuffixOf_iff_suffix]
  split_ifs <;> simp_all

theorem bound?_eq_last_iff : r.bound? = some .last ↔ r.EndsBlock := by
  -- the other end is looked for first
  have hnot : r.EndsBlock → ¬ r.BeginsBlock := fun hends hbegins => hbegins.not_endsBlock hends
  simp only [bound?, BeginsBlock, EndsBlock, ← List.isPrefixOf_iff_prefix,
    ← List.isSuffixOf_iff_suffix] at hnot ⊢
  split_ifs <;> simp_all

theorem bound?_eq_none_iff : r.bound? = none ↔ ¬ r.BeginsBlock ∧ ¬ r.EndsBlock := by
  rw [← bound?_eq_first_iff, ← bound?_eq_last_iff]
  cases r.bound? with
  | none => simp
  | some bound => cases bound <;> simp

end CharacterRecord

/-! ## Entries -/

/-- What the character database says in one piece: a record that stands alone, or the two records
of a block. -/
inductive CharacterEntry where
  | single (record : CharacterRecord)
  | block (first last : CharacterRecord)
  deriving DecidableEq

namespace CharacterEntry

/-- The records of an entry. -/
def records : CharacterEntry → List CharacterRecord
  | single r => [r]
  | block first last => [first, last]

/-- The codes of an entry. -/
def range : CharacterEntry → CodeRange
  | single r => .single r.code
  | block first last => ⟨first.code, last.code⟩

/-- The category of the codes of an entry. -/
def category : CharacterEntry → Category
  | single r => r.category
  | block _ last => last.category

/-- The names of the records say which bounds they are, and the records of a block agree on the
category. -/
def WellFormed : CharacterEntry → Prop
  | single r => ¬ r.BeginsBlock ∧ ¬ r.EndsBlock
  | block first last => first.BeginsBlock ∧ last.EndsBlock ∧ first.category = last.category

instance : (e : CharacterEntry) → Decidable e.WellFormed
  | single r => inferInstanceAs (Decidable (¬ r.BeginsBlock ∧ ¬ r.EndsBlock))
  | block first last => inferInstanceAs
      (Decidable (first.BeginsBlock ∧ last.EndsBlock ∧ first.category = last.category))

/-- Without a `<` in front, the name is that of a record that stands alone. -/
example : (single ⟨1, ⟨0x3400, by decide⟩, "CJK Ideograph, First>",
    { major := 'L', minor := 'o' }⟩).WellFormed := by decide

/-- The entry stands in a list of records, its own records next to one another. -/
def StandsIn (e : CharacterEntry) (rs : List CharacterRecord) : Prop :=
  e.WellFormed ∧ e.records <:+: rs

/-- The category of an entry, assigned to its codes. -/
def assignment (e : CharacterEntry) : Assignment := ⟨e.range, e.category⟩

/-! ## One way to cut records into entries -/

variable {es : List CharacterEntry}

/-- A block in a list of entries is one of them: where two records begin a block and end one, no
entry begins between them. -/
private theorem block_mem_of_infix {first last : CharacterRecord}
    (hfirst : first.BeginsBlock) (hes : ∀ e ∈ es, e.WellFormed)
    (h : [first, last] <:+: es.flatMap records) : block first last ∈ es := by
  induction es with
  | nil => simp at h
  | cons e es ih =>
    have he := hes e (by simp)
    have ih := fun h => List.mem_cons_of_mem e (ih (fun e he => hes e (by simp [he])) h)
    cases e with
    | single r =>
      rcases List.infix_cons_iff.1 h with hprefix | hinfix
      · obtain ⟨rfl, -⟩ := List.cons_prefix_cons.1 hprefix
        exact absurd hfirst he.1
      · exact ih hinfix
    | block first' last' =>
      rcases List.infix_cons_iff.1 h with hprefix | hinfix
      · obtain ⟨rfl, hlast⟩ := List.cons_prefix_cons.1 hprefix
        obtain ⟨hlast, -⟩ := List.cons_prefix_cons.1 hlast
        simp [hlast]
      · rcases List.infix_cons_iff.1 hinfix with hprefix | hinfix
        · obtain ⟨rfl, -⟩ := List.cons_prefix_cons.1 hprefix
          exact absurd he.2.1 hfirst.not_endsBlock
        · exact ih hinfix

/-- The entries that stand in records are those that the records are cut into. -/
theorem standsIn_iff_mem (hes : ∀ e ∈ es, e.WellFormed) {e : CharacterEntry} :
    e.StandsIn (es.flatMap records) ↔ e ∈ es := by
  constructor
  · intro hleft
    obtain ⟨he, h⟩ := hleft
    cases e with
    | single r =>
      obtain ⟨e', he', hr⟩ := List.mem_flatMap.1 (h.subset (List.mem_singleton_self r))
      have hwell := hes e' he'
      cases e' with
      | single r' =>
        obtain rfl : r = r' := by simpa [records] using hr
        exact he'
      | block first last =>
        obtain rfl | rfl : r = first ∨ r = last := by simpa [records] using hr
        · exact absurd hwell.1 he.1
        · exact absurd hwell.2.1 he.2
    | block first last => exact block_mem_of_infix he.1 hes h
  · intro he
    refine ⟨hes e he, ?_⟩
    obtain ⟨before, after, rfl⟩ := List.append_of_mem he
    exact ⟨before.flatMap records, after.flatMap records, by simp⟩

/-! ## Entries of ascending records -/

/-- The codes of the records ascend. -/
def Ascending (rs : List CharacterRecord) : Prop := rs.Pairwise fun r s => r.code.val < s.code.val

/-- The codes of an entry begin with the code of one of its records. -/
theorem exists_record_of_first (e : CharacterEntry) : ∃ r ∈ e.records, e.range.first = r.code := by
  cases e with
  | single r => exact ⟨r, by simp [records], rfl⟩
  | block first last => exact ⟨first, by simp [records], rfl⟩

/-- The codes of an entry end with the code of one of its records. -/
theorem exists_record_of_last (e : CharacterEntry) : ∃ r ∈ e.records, e.range.last = r.code := by
  cases e with
  | single r => exact ⟨r, by simp [records], rfl⟩
  | block first last => exact ⟨last, by simp [records], rfl⟩

/-- In ascending records, an entry ends below the start of the next. -/
theorem pairwise_of_ascending (h : Ascending (es.flatMap records)) :
    es.Pairwise fun e e' => e.range.last.toNat < e'.range.first.toNat := by
  apply (List.pairwise_flatMap.1 h).2.imp
  intro e e' hlt
  obtain ⟨r, hr, hlast⟩ := e.exists_record_of_last
  obtain ⟨s, hs, hfirst⟩ := e'.exists_record_of_first
  rw [hlast, hfirst]
  exact UInt32.lt_iff_toNat_lt.1 (hlt r hr s hs)

theorem inhabited_of_ascending (h : Ascending (es.flatMap records)) :
    ∀ e ∈ es, e.range.first.toNat ≤ e.range.last.toNat := by
  intro e he
  have hlt := (List.pairwise_flatMap.1 h).1 e he
  cases e with
  | single r => exact Nat.le_refl _
  | block first last =>
    simp only [records, List.pairwise_cons, List.mem_singleton, forall_eq] at hlt
    exact Nat.le_of_lt (UInt32.lt_iff_toNat_lt.1 hlt.1)

theorem last_le_lastCode (e : CharacterEntry) : e.range.last ≤ lastCode := by
  cases e with
  | single r => exact r.code.property
  | block _ last => exact last.code.property

/-- No code lies in two entries. -/
theorem unique_of_mem_range (h : Ascending (es.flatMap records)) {e e' : CharacterEntry}
    (he : e ∈ es) (he' : e' ∈ es) {code : Code} (hcode : code ∈ e.range)
    (hcode' : code ∈ e'.range) : e = e' := by
  have hshared : es.Pairwise fun e e' => code ∈ e.range → code ∈ e'.range → e = e' := by
    apply (pairwise_of_ascending h).imp
    intro e e' hlt hcode hcode'
    rw [CodeRange.mem_iff_toNat] at hcode hcode'
    omega
  have hflip := hshared.imp fun {e e'} heq hcode' hcode => (heq hcode hcode').symm
  exact hshared.forall_of_forall_of_flip (fun _ _ _ _ => rfl) hflip he he' hcode hcode'

end CharacterEntry

/-! ## Assigning categories cuts the records into entries -/

namespace Assignment

theorem checkOrder_eq_ok_iff {previous : Option CodePoint} {r : CharacterRecord} :
    checkOrder previous r = .ok () ↔ ∀ code ∈ previous, code.val < r.code.val := by
  unfold checkOrder
  cases previous with
  | none => simp [pure, Except.pure]
  | some code =>
    simp only [Option.mem_some_iff, forall_eq']
    by_cases h : r.code.val ≤ code.val
    · rw [if_pos h]
      exact ⟨nofun, fun hlt => absurd h (UInt32.not_le.2 hlt)⟩
    · rw [if_neg h]
      exact ⟨fun _ => UInt32.not_le.1 h, fun _ => rfl⟩

/-- What one record can do: begin a block, stand alone, or end the block that is open. -/
private theorem assignmentsFrom_cons {previous : Option CodePoint}
    {opened : Option CharacterRecord} {r : CharacterRecord} {rs : List CharacterRecord}
    {as : List Assignment} (h : assignmentsFrom previous opened (r :: rs) = .ok as) :
    (∀ code ∈ previous, code.val < r.code.val) ∧
      ((opened = none ∧ r.bound? = some .first ∧
          assignmentsFrom (some r.code) (some r) rs = .ok as) ∨
        ∃ rest, assignmentsFrom (some r.code) none rs = .ok rest ∧
          ((opened = none ∧ r.bound? = none ∧ as = ⟨.single r.code, r.category⟩ :: rest) ∨
            ∃ first, opened = some first ∧ r.bound? = some .last ∧ first.category = r.category ∧
              as = ⟨⟨first.code, r.code⟩, r.category⟩ :: rest)) := by
  unfold assignmentsFrom at h
  obtain ⟨⟨⟩, horder, hstep⟩ := bind_eq_ok_iff.1 h
  refine ⟨checkOrder_eq_ok_iff.1 horder, ?_⟩
  cases hbound : r.bound? with
  | none =>
    simp only [hbound] at hstep
    cases opened with
    | none =>
      obtain ⟨rest, hrest, has⟩ := bind_eq_ok_iff.1 hstep
      exact .inr ⟨rest, hrest, .inl ⟨rfl, rfl, (Except.ok.inj has).symm⟩⟩
    | some first => cases hstep
  | some bound =>
    simp only [hbound] at hstep
    cases bound with
    | first =>
      cases opened with
      | none => exact .inl ⟨rfl, rfl, hstep⟩
      | some first => cases hstep
    | last =>
      cases opened with
      | none => cases hstep
      | some first =>
        by_cases hcategory : first.category = r.category
        · simp only [hcategory, if_true] at hstep
          obtain ⟨rest, hrest, has⟩ := bind_eq_ok_iff.1 hstep
          exact .inr ⟨rest, hrest,
            .inr ⟨first, rfl, rfl, hcategory, (Except.ok.inj has).symm⟩⟩
        · simp only [hcategory, if_false] at hstep
          cases hstep

/-- If categories can be assigned to the records that follow the opened one, these records fall
into entries, the first of which is that of the opened record. -/
private theorem exists_entries_from {previous : Option CodePoint} {opened : Option CharacterRecord}
    {rs : List CharacterRecord} {as : List Assignment}
    (hopened : ∀ first ∈ opened, first.bound? = some .first)
    (h : assignmentsFrom previous opened rs = .ok as) :
    ∃ es : List CharacterEntry, opened.toList ++ rs = es.flatMap CharacterEntry.records ∧
      (∀ e ∈ es, e.WellFormed) ∧ as = es.map CharacterEntry.assignment := by
  induction rs generalizing previous opened as with
  | nil =>
    cases opened with
    | none =>
      obtain rfl : [] = as := Except.ok.inj h
      exact ⟨[], by simp⟩
    | some first => cases h
  | cons r rs ih =>
    obtain ⟨-, ⟨rfl, hbound, h⟩ | ⟨rest, hrest, h⟩⟩ := assignmentsFrom_cons h
    · exact ih (by simpa using hbound) h
    · obtain ⟨es, hrs, hes, rfl⟩ := ih (by simp) hrest
      rcases h with ⟨rfl, hbound, rfl⟩ | ⟨first, rfl, hbound, hcategory, rfl⟩
      · refine ⟨.single r :: es, ?_, ?_, rfl⟩
        · simpa [CharacterEntry.records] using hrs
        · exact List.forall_mem_cons.2 ⟨CharacterRecord.bound?_eq_none_iff.1 hbound, hes⟩
      · have hfirst := CharacterRecord.bound?_eq_first_iff.1 (hopened first rfl)
        have hlast := CharacterRecord.bound?_eq_last_iff.1 hbound
        refine ⟨.block first r :: es, ?_, ?_, rfl⟩
        · simpa [CharacterEntry.records] using hrs
        · exact List.forall_mem_cons.2 ⟨⟨hfirst, hlast, hcategory⟩, hes⟩

private theorem ascending_from {previous : Option CodePoint} {opened : Option CharacterRecord}
    {rs : List CharacterRecord} {as : List Assignment}
    (h : assignmentsFrom previous opened rs = .ok as) :
    (∀ code ∈ previous, ∀ r ∈ rs, code.val < r.code.val) ∧ CharacterEntry.Ascending rs := by
  induction rs generalizing previous opened as with
  | nil => exact ⟨by simp, .nil⟩
  | cons r rs ih =>
    obtain ⟨hprevious, hrest⟩ := assignmentsFrom_cons h
    obtain ⟨hr, hrs⟩ : (∀ s ∈ rs, r.code.val < s.code.val) ∧ CharacterEntry.Ascending rs := by
      rcases hrest with ⟨-, -, h⟩ | ⟨rest, h, -⟩
      · exact ⟨(ih h).1 r.code rfl, (ih h).2⟩
      · exact ⟨(ih h).1 r.code rfl, (ih h).2⟩
    refine ⟨fun code hcode s hs => ?_, List.pairwise_cons.2 ⟨hr, hrs⟩⟩
    rcases List.mem_cons.1 hs with rfl | hs
    · exact hprevious code hcode
    · exact UInt32.lt_trans (hprevious code hcode) (hr s hs)

/-- Records to which categories can be assigned ascend and fall into entries, and what is assigned
is the category of each entry. -/
theorem exists_entries {rs : List CharacterRecord} {as : List Assignment}
    (h : ofRecords rs = .ok as) :
    ∃ es : List CharacterEntry, rs = es.flatMap CharacterEntry.records ∧
      (∀ e ∈ es, e.WellFormed) ∧ CharacterEntry.Ascending rs ∧
      as = es.map CharacterEntry.assignment := by
  obtain ⟨es, hrs, hes, has⟩ := exists_entries_from (by simp) h
  exact ⟨es, hrs, hes, (ascending_from h).2, has⟩

end Assignment

end UcdTables
