import UcdTables.Proofs.Database.CategoryDraft

/-!
# The records that are refused

Categories are assigned to records one after the other. Whether a record is refused depends on the
record directly before it and on nothing else, since a block consists of two records: the record
before it begins the block that is open, or no block is open.

* `RecordFault`: why a record is refused after another, and the error that says so.
* `Assignment.fault_or_continues`: what one record does.
* `Assignment.ofRecords_append_eq_error_iff`: what records do that are not at fault.
* `categoryDraft_verdict`: which lists of records are accepted, and the error of every other list.
-/

namespace UcdTables

/-! ## One record after another -/

/-- Why a record is refused after the record before it, if there is one. That its code is not above
comes first. -/
inductive RecordFault (previous : Option CharacterRecord) (r : CharacterRecord) : BuildError → Prop
  /-- Its code is not above that of the record before it. -/
  | unordered {s : CharacterRecord} (before : previous = some s) (order : r.code.val ≤ s.code.val) :
    RecordFault previous r (.ordering r.line s.code r.code)
  /-- It ends a block, and the record before it does not begin one. -/
  | notOpened (above : ∀ s ∈ previous, s.code.val < r.code.val)
    (unopened : ∀ s ∈ previous, ¬ s.BeginsBlock) (last : r.EndsBlock) :
    RecordFault previous r (.malformedRecord r.line (.notOpened r.name))
  /-- It does not end the block that the record before it begins. -/
  | notClosed {s : CharacterRecord} (before : previous = some s) (above : s.code.val < r.code.val)
    (first : s.BeginsBlock) (other : ¬ r.EndsBlock) :
    RecordFault previous r (.malformedRecord r.line (.notClosed s.name))
  /-- It ends the block that the record before it begins, in another category. -/
  | changesCategory {s : CharacterRecord} (before : previous = some s)
    (above : s.code.val < r.code.val) (first : s.BeginsBlock) (last : r.EndsBlock)
    (differ : s.category ≠ r.category) :
    RecordFault previous r (.malformedRecord r.line
      (.changesCategory ⟨s.code, r.code⟩ s.category.name r.category.name))

namespace Assignment

open CharacterEntry (Ascending)

variable {previous : Option CharacterRecord} {r : CharacterRecord}
  {before after rs : List CharacterRecord} {e : BuildError}

/-- The assignments of the records that follow a record. A block is open if that record begins
one. -/
def assignmentsAfter (previous : Option CharacterRecord) (rs : List CharacterRecord) :
    Except BuildError (List Assignment) :=
  assignmentsFrom (previous.map (·.code)) (previous.filter (·.BeginsBlock)) rs

theorem assignmentsAfter_of_first (h : r.BeginsBlock) :
    assignmentsAfter (some r) rs = assignmentsFrom (some r.code) (some r) rs := by
  simp [assignmentsAfter, Option.filter_some, h]

theorem assignmentsAfter_of_not_first (h : ¬ r.BeginsBlock) :
    assignmentsAfter (some r) rs = assignmentsFrom (some r.code) none rs := by
  simp [assignmentsAfter, Option.filter_some, h]

theorem checkOrder_eq_pure (h : ∀ s ∈ previous, s.code.val < r.code.val) :
    checkOrder (previous.map (·.code)) r = pure () := by
  apply checkOrder_eq_ok_iff.2
  simpa using h

/-- A record that is at fault is refused, whatever follows it. -/
theorem assignmentsAfter_eq_error (h : RecordFault previous r e) (rs : List CharacterRecord) :
    assignmentsAfter previous (r :: rs) = .error e := by
  unfold assignmentsAfter assignmentsFrom
  cases h with
  | @unordered s before order =>
    subst before
    simp only [Option.map_some, checkOrder, order, if_true]
    rfl
  | notOpened above unopened last =>
    have hopened : previous.filter (·.BeginsBlock) = none := by
      simpa [Option.filter_eq_none_iff] using unopened
    rw [checkOrder_eq_pure above, hopened, CharacterRecord.bound?_eq_last_iff.2 last]
    rfl
  | @notClosed s before above first other =>
    subst before
    rw [checkOrder_eq_pure (by simpa using above)]
    simp only [Option.filter_some, first, decide_true, if_true]
    cases hbound : r.bound? with
    | none => rfl
    | some bound =>
      cases bound with
      | first => rfl
      | last => exact absurd (CharacterRecord.bound?_eq_last_iff.1 hbound) other
  | @changesCategory s before above first last differ =>
    subst before
    rw [checkOrder_eq_pure (by simpa using above)]
    simp only [Option.filter_some, first, decide_true, if_true,
      CharacterRecord.bound?_eq_last_iff.2 last, differ, if_false]
    rfl

/-- A record is passed: the records that follow it are refused as they are after it. -/
def Continues (previous : Option CharacterRecord) (r : CharacterRecord) : Prop := ∀ rs e,
  assignmentsAfter previous (r :: rs) = .error e ↔ assignmentsAfter (some r) rs = .error e

/-- Where no block is open, a record above that does not end one is passed. -/
theorem continues_of_unopened (habove : ∀ s ∈ previous, s.code.val < r.code.val)
    (hunopened : ∀ s ∈ previous, ¬ s.BeginsBlock) (hr : ¬ r.EndsBlock) :
    Continues previous r := by
  intro rs e
  have horder := checkOrder_eq_pure habove
  have hopened : previous.filter (·.BeginsBlock) = none := by
    simpa [Option.filter_eq_none_iff] using hunopened
  cases hbound : r.bound? with
  | none =>
    have hnot := (CharacterRecord.bound?_eq_none_iff.1 hbound).1
    rw [assignmentsAfter_of_not_first hnot, assignmentsAfter]
    conv_lhs => unfold assignmentsFrom
    simp only [horder, hopened, hbound, pure_bind]
    exact bind_pure_eq_error_iff
  | some bound =>
    cases bound with
    | first =>
      have hfirst := CharacterRecord.bound?_eq_first_iff.1 hbound
      rw [assignmentsAfter_of_first hfirst, assignmentsAfter]
      conv_lhs => unfold assignmentsFrom
      simp only [horder, hopened, hbound, pure_bind]
    | last => exact absurd (CharacterRecord.bound?_eq_last_iff.1 hbound) hr

/-- Where a block is open, a record above that ends it in its category is passed. -/
theorem continues_of_opened {first : CharacterRecord} (habove : first.code.val < r.code.val)
    (hfirst : first.BeginsBlock) (hlast : r.EndsBlock)
    (hcategory : first.category = r.category) : Continues (some first) r := by
  intro rs e
  have horder : checkOrder (some first.code) r = pure () := checkOrder_eq_ok_iff.2 (by simpa)
  have hnot : ¬ r.BeginsBlock := fun hbegins => hbegins.not_endsBlock hlast
  rw [assignmentsAfter_of_first hfirst, assignmentsAfter_of_not_first hnot]
  conv_lhs => unfold assignmentsFrom
  simp only [horder, CharacterRecord.bound?_eq_last_iff.2 hlast, pure_bind, hcategory, if_true]
  exact bind_pure_eq_error_iff

/-- What one record does: it is at fault, or it is passed. -/
theorem fault_or_continues (previous : Option CharacterRecord) (r : CharacterRecord) :
    (∃ e, RecordFault previous r e) ∨ Continues previous r := by
  by_cases habove : ∀ s ∈ previous, s.code.val < r.code.val
  case neg =>
    simp only [not_forall] at habove
    obtain ⟨s, hs, hle⟩ := habove
    exact .inl ⟨_, .unordered hs (UInt32.not_lt.1 hle)⟩
  by_cases hunopened : ∀ s ∈ previous, ¬ s.BeginsBlock
  · by_cases hlast : r.EndsBlock
    · exact .inl ⟨_, .notOpened habove hunopened hlast⟩
    · exact .inr (continues_of_unopened habove hunopened hlast)
  · simp only [not_forall, not_not] at hunopened
    obtain ⟨first, rfl, hfirst⟩ := hunopened
    have habove := habove first rfl
    by_cases hlast : r.EndsBlock
    case neg => exact .inl ⟨_, .notClosed rfl habove hfirst hlast⟩
    by_cases hcategory : first.category = r.category
    · exact .inr (continues_of_opened habove hfirst hlast hcategory)
    · exact .inl ⟨_, .changesCategory rfl habove hfirst hlast hcategory⟩

/-- A record that is not at fault is passed. -/
theorem continues_of_not_fault (h : ∀ e, ¬ RecordFault previous r e) : Continues previous r := by
  rcases fault_or_continues previous r with ⟨e, he⟩ | hcontinues
  · exact absurd he (h e)
  · exact hcontinues

/-- At the end, a block is open if the last record begins one. -/
theorem assignmentsAfter_nil_eq_error_iff : assignmentsAfter previous [] = .error e ↔
    ∃ s, previous = some s ∧ s.BeginsBlock ∧
      e = .malformedRecord s.line (.notClosed s.name) := by
  unfold assignmentsAfter assignmentsFrom
  cases previous with
  | none => simp [pure, Except.pure]
  | some s =>
    by_cases hs : s.BeginsBlock
    · simp [Option.filter_some, hs, throw, throwThe, MonadExceptOf.throw, eq_comm]
    · simp [Option.filter_some, hs, pure, Except.pure]

/-! ## All records in turn -/

/-- No record is at fault after the one before it. -/
def Faultless (rs : List CharacterRecord) : Prop :=
  ∀ before r after, rs = before ++ r :: after → ∀ e, ¬ RecordFault before.getLast? r e

theorem faultless_append_singleton_iff : Faultless (rs ++ [r]) ↔
    Faultless rs ∧ ∀ e, ¬ RecordFault rs.getLast? r e := by
  constructor
  · intro h
    refine ⟨fun before s after hsplit => ?_, h rs r [] rfl⟩
    exact h before s (after ++ [r]) (by simp [hsplit])
  · rintro ⟨hrs, hr⟩ before s after hsplit
    rcases List.eq_nil_or_concat after with rfl | ⟨after, last, rfl⟩
    · obtain ⟨rfl, hs⟩ := List.append_inj' hsplit rfl
      obtain rfl : r = s := by simpa using hs
      exact hr
    · have hsplit : rs ++ [r] = (before ++ s :: after) ++ [last] := by simp [hsplit]
      exact hrs before s after (List.append_inj' hsplit rfl).1

/-- Records that are not at fault are passed, one after the other. -/
theorem ofRecords_append_eq_error_iff (h : Faultless before) :
    ofRecords (before ++ rs) = .error e ↔ assignmentsAfter before.getLast? rs = .error e := by
  induction before using List.reverseRecOn generalizing rs with
  | nil => exact Iff.rfl
  | append_singleton before r ih =>
    obtain ⟨hbefore, hr⟩ := faultless_append_singleton_iff.1 h
    rw [List.append_assoc, ih hbefore, List.getLast?_append_cons]
    exact continues_of_not_fault hr rs e

/-- Records of which some are at fault have a first that is. -/
theorem faultless_or_exists_first (rs : List CharacterRecord) : Faultless rs ∨
    ∃ before r after e, rs = before ++ r :: after ∧ Faultless before ∧
      RecordFault before.getLast? r e := by
  induction rs using List.reverseRecOn with
  | nil => exact .inl fun before r after hsplit => by simp at hsplit
  | append_singleton rs r ih =>
    rcases ih with hrs | ⟨before, s, after, e, rfl, hbefore, he⟩
    · by_cases hr : ∀ e, ¬ RecordFault rs.getLast? r e
      · exact .inl (faultless_append_singleton_iff.2 ⟨hrs, hr⟩)
      · simp only [not_forall, not_not] at hr
        obtain ⟨e, he⟩ := hr
        exact .inr ⟨rs, r, [], e, rfl, hrs, he⟩
    · exact .inr ⟨before, s, after ++ [r], e, by simp, hbefore, he⟩

/-- The first record at fault is refused, or else the last record if it begins a block. -/
theorem ofRecords_eq_error_iff : ofRecords rs = .error e ↔
    (∃ before r after, rs = before ++ r :: after ∧ Faultless before ∧
      RecordFault before.getLast? r e) ∨
    (Faultless rs ∧ ∃ s, rs.getLast? = some s ∧ s.BeginsBlock ∧
      e = .malformedRecord s.line (.notClosed s.name)) := by
  have hrefused : ∀ {before r after e}, Faultless before → RecordFault before.getLast? r e →
      ofRecords (before ++ r :: after) = .error e := fun hbefore hr =>
    (ofRecords_append_eq_error_iff hbefore).2 (assignmentsAfter_eq_error hr _)
  have hpassed : Faultless rs → (ofRecords rs = .error e ↔ ∃ s, rs.getLast? = some s ∧
      s.BeginsBlock ∧ e = .malformedRecord s.line (.notClosed s.name)) := by
    intro hrs
    rw [← assignmentsAfter_nil_eq_error_iff, ← ofRecords_append_eq_error_iff hrs, List.append_nil]
  constructor
  · intro he
    rcases faultless_or_exists_first rs with hrs | ⟨before, r, after, e', rfl, hbefore, hr⟩
    · exact .inr ⟨hrs, (hpassed hrs).1 he⟩
    · rw [hrefused hbefore hr] at he
      obtain rfl := Except.error.inj he
      exact .inl ⟨before, r, after, rfl, hbefore, hr⟩
  · rintro (⟨before, r, after, rfl, hbefore, hr⟩ | ⟨hrs, hs⟩)
    · exact hrefused hbefore hr
    · exact (hpassed hrs).2 hs

/-! ## The records that are accepted -/

theorem above_of_ascending (h : Ascending (previous.toList ++ r :: rs)) :
    (∀ s ∈ previous, s.code.val < r.code.val) ∧ Ascending (r :: rs) := by
  obtain ⟨-, hrs, habove⟩ := List.pairwise_append.1 h
  exact ⟨fun s hs => habove s (Option.mem_toList.2 hs) r (by simp), hrs⟩

/-- Ascending records that fall into entries are not refused. -/
theorem assignmentsAfter_ne_error {es : List CharacterEntry} (hes : ∀ e ∈ es, e.WellFormed)
    (hrs : Ascending (previous.toList ++ es.flatMap CharacterEntry.records))
    (hunopened : ∀ s ∈ previous, ¬ s.BeginsBlock) :
    assignmentsAfter previous (es.flatMap CharacterEntry.records) ≠ .error e := by
  induction es generalizing previous with
  | nil =>
    intro he
    obtain ⟨s, rfl, hs, -⟩ := assignmentsAfter_nil_eq_error_iff.1 he
    exact hunopened s rfl hs
  | cons entry es ih =>
    obtain ⟨hentry, hentries⟩ := List.forall_mem_cons.1 hes
    rw [List.flatMap_cons] at hrs ⊢
    intro he
    cases entry with
    | single r =>
      obtain ⟨hbegins, hends⟩ := hentry
      obtain ⟨habove, hrs⟩ := above_of_ascending hrs
      have hrest := (continues_of_unopened habove hunopened hends _ e).1 he
      exact ih hentries (show Ascending ((some r).toList ++ _) from hrs) (by simpa) hrest
    | block first last =>
      obtain ⟨hfirst, hlast, hcategory⟩ := hentry
      obtain ⟨habove, hrs⟩ := above_of_ascending hrs
      have hopened := (continues_of_unopened habove hunopened hfirst.not_endsBlock _ e).1 he
      obtain ⟨habove, hrs⟩ :=
        above_of_ascending (show Ascending ((some first).toList ++ _) from hrs)
      have hrest := (continues_of_opened (habove first rfl) hfirst hlast hcategory _ e).1 hopened
      have hunopened : ∀ s ∈ some last, ¬ s.BeginsBlock := by
        rintro _ ⟨⟩ hbegins
        exact hbegins.not_endsBlock hlast
      exact ih hentries (show Ascending ((some last).toList ++ _) from hrs) hunopened hrest

/-- Categories can be assigned to records that ascend and fall into entries, and to no others. -/
theorem exists_ofRecords_iff : (∃ as, ofRecords rs = .ok as) ↔ Ascending rs ∧
    ∃ es : List CharacterEntry, rs = es.flatMap CharacterEntry.records ∧
      ∀ e ∈ es, e.WellFormed := by
  constructor
  · rintro ⟨as, has⟩
    obtain ⟨es, hrs, hes, hascending, -⟩ := exists_entries has
    exact ⟨hascending, es, hrs, hes⟩
  · rintro ⟨hascending, es, rfl, hes⟩
    have hnone : ∀ e, assignmentsAfter none (es.flatMap CharacterEntry.records) ≠ .error e :=
      fun e => assignmentsAfter_ne_error hes hascending (by simp)
    exact eq_ok_of_forall_ne_error hnone

end Assignment

/-! ## The verdict -/

theorem exists_categoryDraft_iff {rs : List CharacterRecord} :
    (∃ d, categoryDraft rs = .ok d) ↔ ∃ as, Assignment.ofRecords rs = .ok as := by
  constructor
  · rintro ⟨d, hd⟩
    obtain ⟨as, has, -⟩ := categoryDraft_eq_ok_iff.1 hd
    exact ⟨as, has⟩
  · rintro ⟨as, has⟩
    exact ⟨_, categoryDraft_eq_ok_iff.2 ⟨as, has, rfl⟩⟩

/-- What becomes of a list of records. -/
structure RecordsVerdict (rs : List CharacterRecord) (outcome : Except BuildError Draft) :
    Prop where
  /-- A record begins a block or ends one by its name. -/
  bounds : ∀ r ∈ rs,
    (r.bound? = some .first ↔
      "<".toList <+: r.name.toList ∧ ", First>".toList <:+ r.name.toList) ∧
    (r.bound? = some .last ↔
      "<".toList <+: r.name.toList ∧ ", Last>".toList <:+ r.name.toList)
  /-- The records are accepted if they ascend and can be cut into entries, and only then. -/
  accepts : (∃ d, outcome = .ok d) ↔ CharacterEntry.Ascending rs ∧
    ∃ es : List CharacterEntry, rs = es.flatMap CharacterEntry.records ∧ ∀ e ∈ es, e.WellFormed
  /-- Otherwise the first record that is at fault after the one before it is refused. If there is
  none, the last record begins a block, and is refused for that. -/
  refuses : ∀ e, outcome = .error e ↔
    (∃ before r after, rs = before ++ r :: after ∧ Assignment.Faultless before ∧
      RecordFault before.getLast? r e) ∨
    (Assignment.Faultless rs ∧ ∃ s, rs.getLast? = some s ∧ s.BeginsBlock ∧
      e = .malformedRecord s.line (.notClosed s.name))

/-- Which lists of records are accepted, and the error of every other list. -/
theorem categoryDraft_verdict (rs : List CharacterRecord) :
    RecordsVerdict rs (categoryDraft rs) := by
  refine RecordsVerdict.mk ?bounds ?accepts ?refuses
  case bounds =>
    intro r _
    exact ⟨CharacterRecord.bound?_eq_first_iff, CharacterRecord.bound?_eq_last_iff⟩
  case accepts => rw [exists_categoryDraft_iff, Assignment.exists_ofRecords_iff]
  case refuses =>
    intro e
    rw [← Assignment.ofRecords_eq_error_iff]
    exact bind_pure_eq_error_iff

/-- The order is looked at first: the second record also ends the block in another category. -/
example : categoryDraft [
    ⟨1, ⟨0x3400, by decide⟩, "<CJK Ideograph, First>", { major := 'L', minor := 'o' }⟩,
    ⟨2, ⟨0x3400, by decide⟩, "<CJK Ideograph, Last>", { major := 'C', minor := 'o' }⟩] =
      .error (.ordering 2 0x3400 0x3400) := rfl

end UcdTables
