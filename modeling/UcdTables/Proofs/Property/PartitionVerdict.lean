import Mathlib.Order.WellFounded
import UcdTables.Proofs.Outcome
import UcdTables.Proofs.Property.Partition

/-!
# What the partition check finds

The check looks at a few codes only, those at which some range starts or has just ended. It misses
nothing: the least code that does not lie in exactly one set is among them, since the code before
it, if there is one, lies in as many sets unless a range starts or ends between the two.

* `FirstMiscount.mem_breakpoints`: the least code at fault is looked at.
* `checkKind_verdict`: what the check of one kind finds.
* `checkPartition_verdict`: what the whole check finds, for any map.
-/

namespace UcdTables

namespace PropertyMap

variable {m n : PropertyMap} {kind : PropertyKind} {sets : List CodeSet} {code : Code}

/-! ## The codes that are looked at -/

/-- The least code of the code space that is not counted once. -/
structure FirstMiscount (count : Code → Nat) (code : Code) : Prop where
  inSpace : code ≤ lastCode
  miscounted : count code ≠ 1
  below : ∀ c < code, count c = 1

theorem exists_firstMiscount {count : Code → Nat} (hle : code ≤ lastCode) (h : count code ≠ 1) :
    ∃ first ≤ code, FirstMiscount count first := by
  obtain ⟨first, hfirst, hleast⟩ :=
    (measure UInt32.toNat).wf.has_min {c | c ≤ code ∧ count c ≠ 1} ⟨code, UInt32.le_refl code, h⟩
  refine ⟨first, hfirst.1, UInt32.le_trans hfirst.1 hle, hfirst.2, fun c hc => ?_⟩
  apply Decidable.byContradiction
  intro hcount
  have hle := UInt32.le_trans (UInt32.le_of_lt hc) hfirst.1
  exact hleast c ⟨hle, hcount⟩ (UInt32.lt_iff_toNat_lt.1 hc)

theorem mem_breakpoints_iff : code ∈ breakpoints sets ↔ code ≤ lastCode ∧
    (code = 0 ∨ ∃ s ∈ sets, ∃ r ∈ s.toRanges, code = r.first ∨ code = r.last + 1) := by
  unfold breakpoints
  rw [List.mem_mergeSort, List.mem_filter, decide_eq_true_eq, and_comm]
  simp

/-- From one code to the next, a set changes only where a range starts or has ended. -/
theorem exists_bound_of_change {s : CodeSet} {prev : Code} (hnext : code.toNat = prev.toNat + 1)
    (h : ¬ (prev ∈ s ↔ code ∈ s)) : ∃ r ∈ s.toRanges, code = r.first ∨ code = r.last + 1 := by
  by_cases hcode : code ∈ s
  · have hprev : prev ∉ s := fun hprev => h (iff_of_true hprev hcode)
    obtain ⟨r, hr, hmem⟩ := hcode
    have hout : prev ∉ r := fun hprev' => hprev ⟨r, hr, hprev'⟩
    rw [CodeRange.mem_iff_toNat] at hmem hout
    exact ⟨r, hr, .inl (UInt32.toNat_inj.1 (by omega))⟩
  · have hprev : prev ∈ s := by
      apply Decidable.byContradiction
      exact fun hprev => h (iff_of_false hprev hcode)
    obtain ⟨r, hr, hmem⟩ := hprev
    have hout : code ∉ r := fun hcode' => hcode ⟨r, hr, hcode'⟩
    have hword := code.toNat_lt
    rw [CodeRange.mem_iff_toNat] at hmem hout
    refine ⟨r, hr, .inr (UInt32.toNat_inj.1 ?_)⟩
    rw [UInt32.toNat_add, UInt32.toNat_one]
    omega

/-- The least code that does not lie in exactly one of the sets is looked at. -/
theorem FirstMiscount.mem_breakpoints (h : FirstMiscount (multiplicity sets) code) :
    code ∈ breakpoints sets := by
  refine mem_breakpoints_iff.2 ⟨h.inSpace, ?_⟩
  by_cases hzero : code = 0
  · exact .inl hzero
  -- the code before it lies in another number of sets, so one of the sets changes between the two
  have hpos : 0 < code.toNat := by
    apply Nat.pos_of_ne_zero
    exact fun hnat => hzero (UInt32.toNat_inj.1 hnat)
  have hpred : (code - 1).toNat = code.toNat - 1 :=
    UInt32.toNat_sub_of_le _ _ (UInt32.le_iff_toNat_le.2 hpos)
  have hprev := h.below (code - 1) (UInt32.lt_iff_toNat_lt.2 (by omega))
  obtain ⟨s, hs, hchange⟩ : ∃ s ∈ sets, ¬ (code - 1 ∈ s ↔ code ∈ s) := by
    apply Decidable.byContradiction
    intro hsame
    simp only [not_exists, not_and, Decidable.not_not] at hsame
    apply h.miscounted
    rw [← hprev]
    apply List.countP_congr
    intro s hs
    rw [CodeSet.contains_eq_true_iff, CodeSet.contains_eq_true_iff, hsame s hs]
  exact .inr ⟨s, hs, exists_bound_of_change (by omega) hchange⟩

/-- In an ascending list, the least member that satisfies a test is the one that is found. -/
private theorem find?_eq_some_of_least {cs : List Code} {p : Code → Bool} (hmem : code ∈ cs)
    (hp : p code = true) (hleast : ∀ c ∈ cs, p c = true → code ≤ c) (hcs : cs.Pairwise (· ≤ ·)) :
    cs.find? p = some code := by
  induction cs with
  | nil => cases hmem
  | cons c cs ih =>
    obtain ⟨hbelow, hcs⟩ := List.pairwise_cons.1 hcs
    by_cases hc : p c = true
    · obtain rfl : code = c := by
        rcases List.mem_cons.1 hmem with rfl | hmem
        · rfl
        · exact UInt32.le_antisymm (hleast c (by simp) hc) (hbelow code hmem)
      exact List.find?_cons_of_pos hc
    · have hne : code ≠ c := fun hcode => hc (hcode ▸ hp)
      rw [List.find?_cons_of_neg hc]
      exact ih ((List.mem_cons.1 hmem).resolve_left hne)
        (fun d hd => hleast d (by simp [hd])) hcs

theorem pairwise_breakpoints (sets : List CodeSet) : (breakpoints sets).Pairwise (· ≤ ·) := by
  refine (List.pairwise_mergeSort ?_ ?_ _).imp ?_
  · simp only [decide_eq_true_eq, UInt32.le_iff_toNat_le]
    omega
  · simp only [Bool.or_eq_true, decide_eq_true_eq, UInt32.le_iff_toNat_le]
    omega
  · simp

/-- The least code at fault is the one that is found. -/
theorem FirstMiscount.find?_breakpoints (h : FirstMiscount (multiplicity sets) code) :
    (breakpoints sets).find? (multiplicity sets · ≠ 1) = some code := by
  refine find?_eq_some_of_least h.mem_breakpoints (by simpa using h.miscounted) ?_
    (pairwise_breakpoints sets)
  intro c _ hc
  apply UInt32.not_lt.1
  exact fun hlt => absurd (h.below c hlt) (by simpa using hc)

/-! ## One kind -/

/-- The number of properties of a kind that hold a code. -/
def holders (m : PropertyMap) (kind : PropertyKind) (code : Code) : Nat :=
  m.entries.countP fun e => e.2.kind = kind ∧ code ∈ e.2

theorem multiplicity_eq_holders (m : PropertyMap) (kind : PropertyKind) :
    multiplicity (m.setsOfKind kind) = m.holders kind := by
  funext code
  unfold multiplicity setsOfKind holders
  rw [List.countP_map, List.countP_filter]
  apply List.countP_congr
  simp [CodeSet.contains_eq_true_iff, Property.mem_def, and_comm]

/-- Written out one after the other, the sets of a kind list a code once for each of them that
holds it. -/
theorem count_codes_setsOfKind (m : PropertyMap) (kind : PropertyKind) (code : Code) :
    ((m.setsOfKind kind).flatMap CodeSet.codes).count code = m.holders kind code := by
  rw [← multiplicity_eq_holders]
  induction m.setsOfKind kind with
  | nil => rfl
  | cons s sets ih =>
    have hnodup : s.codes.Nodup := s.pairwise_codes.imp UInt32.ne_of_lt
    have hone : s.codes.count code = if s.contains code then 1 else 0 := by
      rw [hnodup.count]
      simp only [CodeSet.mem_codes, CodeSet.contains_eq_true_iff]
    rw [List.flatMap_cons, List.count_append, ih, hone, multiplicity, multiplicity,
      List.countP_cons, Nat.add_comm]

/-- A code lies in exactly one property of a kind if one name holds it and no other does. -/
theorem holders_eq_one_iff : m.holders kind code = 1 ↔
    ∃ name, m.Holds kind name code ∧ ∀ other, m.Holds kind other code → other = name := by
  constructor
  · intro hone
    unfold holders at hone
    rw [List.countP_eq_length_filter, List.length_eq_one_iff] at hone
    obtain ⟨⟨name, p⟩, hfilter⟩ := hone
    have hiff : ∀ e, e ∈ [(name, p)] ↔ e ∈ m.entries ∧ e.2.kind = kind ∧ code ∈ e.2 := by
      intro e
      rw [← hfilter, List.mem_filter, decide_eq_true_eq]
    obtain ⟨hmem, hkind, hcode⟩ := (hiff (name, p)).1 (by simp)
    refine ⟨name, ⟨p, NameMap.find?_eq_some_iff.2 hmem, hkind, hcode⟩, ?_⟩
    rintro other ⟨q, hq, hkind', hcode'⟩
    have hsame := (hiff (other, q)).2 ⟨NameMap.find?_eq_some_iff.1 hq, hkind', hcode'⟩
    exact congrArg Prod.fst (List.mem_singleton.1 hsame)
  · rintro ⟨name, hholds, hunique⟩
    rw [← multiplicity_eq_holders]
    exact multiplicity_setsOfKind hholds hunique

theorem partitionedBy_iff : m.PartitionedBy kind ↔
    m.WithinCodeSpace kind ∧ ∀ code ≤ lastCode, m.holders kind code = 1 := by
  simp only [holders_eq_one_iff]
  exact ⟨fun h => ⟨h.bounded, h.unique⟩, fun h => ⟨h.1, h.2⟩⟩

/-- A kind partitions the code space, or one of its properties leaves it, or some code of it is at
fault. -/
theorem partitionedBy_or (m : PropertyMap) (kind : PropertyKind) :
    m.PartitionedBy kind ∨ ¬ m.WithinCodeSpace kind ∨
      m.WithinCodeSpace kind ∧ ∃ code, FirstMiscount (m.holders kind) code := by
  by_cases hwithin : m.WithinCodeSpace kind
  · by_cases hone : ∀ code ≤ lastCode, m.holders kind code = 1
    · exact .inl (partitionedBy_iff.2 ⟨hwithin, hone⟩)
    · simp only [not_forall] at hone
      obtain ⟨code, hle, hne⟩ := hone
      obtain ⟨first, -, hfirst⟩ := exists_firstMiscount hle hne
      exact .inr (.inr ⟨hwithin, first, hfirst⟩)
  · exact .inr (.inl hwithin)

theorem checkKind_of_not_withinCodeSpace (h : ¬ m.WithinCodeSpace kind) :
    m.checkKind kind = .error (.outsideCodeSpace kind) := by
  unfold checkKind
  simp only [any_beyond_iff.2 h, if_true]

theorem checkKind_of_firstMiscount (hwithin : m.WithinCodeSpace kind)
    (h : FirstMiscount (m.holders kind) code) :
    m.checkKind kind = .error (.partition code (m.holders kind code)) := by
  have hinside : (m.setsOfKind kind).any (fun s => s.last?.any (lastCode < ·)) = false :=
    Bool.eq_false_iff.2 fun hany => any_beyond_iff.1 hany hwithin
  rw [← multiplicity_eq_holders] at h ⊢
  unfold checkKind
  simp only [hinside, h.find?_breakpoints]
  rfl

/-- What the check of one kind finds. -/
structure KindVerdict (m : PropertyMap) (kind : PropertyKind) (outcome : Except BuildError Unit) :
    Prop where
  passes : outcome = .ok () ↔ m.PartitionedBy kind
  outside : ∀ other, outcome = .error (.outsideCodeSpace other) ↔
    other = kind ∧ ¬ m.WithinCodeSpace kind
  miscounted : m.WithinCodeSpace kind → ∀ code, FirstMiscount (m.holders kind) code →
    outcome = .error (.partition code (m.holders kind code))

/-- The check of one kind, over any map. -/
theorem checkKind_verdict (m : PropertyMap) (kind : PropertyKind) :
    KindVerdict m kind (m.checkKind kind) := by
  refine KindVerdict.mk ?passes ?outside fun hwithin _ => checkKind_of_firstMiscount hwithin
  case passes =>
    rcases m.partitionedBy_or kind with hpartition | houtside | ⟨hwithin, code, hcode⟩
    · exact iff_of_true (checkKind_eq_ok hpartition) hpartition
    · rw [checkKind_of_not_withinCodeSpace houtside]
      exact iff_of_false nofun fun h => houtside h.bounded
    · rw [checkKind_of_firstMiscount hwithin hcode]
      exact iff_of_false nofun fun h =>
        hcode.miscounted ((partitionedBy_iff.1 h).2 code hcode.inSpace)
  case outside =>
    intro other
    rcases m.partitionedBy_or kind with hpartition | houtside | ⟨hwithin, code, hcode⟩
    · rw [checkKind_eq_ok hpartition]
      exact iff_of_false nofun fun h => h.2 hpartition.bounded
    · rw [checkKind_of_not_withinCodeSpace houtside]
      simp [houtside, eq_comm]
    · rw [checkKind_of_firstMiscount hwithin hcode]
      exact iff_of_false nofun fun h => h.2 hwithin

theorem setsOfKind_congr
    (h : ∀ name p, p.kind = kind → (n.find? name = some p ↔ m.find? name = some p)) :
    n.setsOfKind kind = m.setsOfKind kind := by
  have hentries : n.entries.filter (·.2.kind = kind) = m.entries.filter (·.2.kind = kind) := by
    apply eq_of_ascending (·.1) (n.sorted.filter _) (m.sorted.filter _)
    rintro ⟨name, p⟩
    simp only [List.mem_filter, decide_eq_true_eq, ← NameMap.find?_eq_some_iff]
    exact and_congr_left (h name p)
  rw [setsOfKind, setsOfKind, hentries]

/-- The check of a kind reads the sets of that kind only. -/
theorem checkKind_congr
    (h : ∀ name p, p.kind = kind → (n.find? name = some p ↔ m.find? name = some p)) :
    n.checkKind kind = m.checkKind kind := by
  unfold checkKind
  rw [setsOfKind_congr h]

/-! ## Both kinds -/

/-- The check gets to the general categories at once, and to the major categories if the general
categories partition the code space. It gets to no other kind. -/
def Reached (m : PropertyMap) : PropertyKind → Prop
  | .generalCategory => True
  | .majorCategory => m.PartitionedBy .generalCategory
  | .script | .posixClass => False

/-- The last kind that the check gets to decides. -/
theorem exists_reached (m : PropertyMap) : ∃ kind, m.checkPartition = m.checkKind kind ∧
    m.Reached kind ∧ ∀ other, m.Reached other → other = kind ∨ m.PartitionedBy other := by
  by_cases hgeneral : m.PartitionedBy .generalCategory
  · refine ⟨.majorCategory, ?_, hgeneral, fun other hother => ?_⟩
    · rw [checkPartition, checkKind_eq_ok hgeneral]
      rfl
    · cases other with
      | generalCategory => exact .inr hgeneral
      | majorCategory => exact .inl rfl
      | script => cases hother
      | posixClass => cases hother
  · refine ⟨.generalCategory, ?_, trivial, fun other hother => ?_⟩
    · rw [checkPartition]
      cases hcheck : m.checkKind .generalCategory with
      | error e => rfl
      | ok u => exact absurd ((m.checkKind_verdict .generalCategory).passes.1 hcheck) hgeneral
    · cases other with
      | generalCategory => exact .inl rfl
      | majorCategory => exact absurd hother hgeneral
      | script => cases hother
      | posixClass => cases hother

/-- What the partition check finds. -/
structure PartitionVerdict (m : PropertyMap) (outcome : Except BuildError Unit) : Prop where
  /-- The check passes if the categories of both kinds partition the code space, and only then. -/
  passes : outcome = .ok () ↔
    m.PartitionedBy .generalCategory ∧ m.PartitionedBy .majorCategory
  /-- If the properties of a kind that it gets to stay in the code space, but do not hold each code
  of it once, it reports the least code at fault with the number of properties that hold it. -/
  miscounted : ∀ kind, m.Reached kind → m.WithinCodeSpace kind →
    ∀ code ≤ lastCode, m.holders kind code ≠ 1 → ∃ least ≤ code,
      FirstMiscount (m.holders kind) least ∧
        outcome = .error (.partition least (m.holders kind least))
  /-- It breaks off at a kind with a code beyond the code space if it gets there, and only then. -/
  outside : ∀ kind, outcome = .error (.outsideCodeSpace kind) ↔
    m.Reached kind ∧ ∃ name code, m.Holds kind name code ∧ lastCode < code
  /-- To count the properties that hold a code is to count how often their sets list it. -/
  counted : ∀ kind code,
    ((m.setsOfKind kind).flatMap CodeSet.codes).count code = m.holders kind code
  /-- Properties of other kinds do not matter. -/
  others : ∀ n : PropertyMap, (∀ name p, p.kind = .generalCategory ∨ p.kind = .majorCategory →
    (n.find? name = some p ↔ m.find? name = some p)) → n.checkPartition = outcome

/-- The check goes through the general categories, then through the major categories, and the first
kind that is at fault decides. -/
theorem checkPartition_verdict (m : PropertyMap) : PartitionVerdict m m.checkPartition := by
  obtain ⟨kind, hcheck, hreached, hlast⟩ := m.exists_reached
  have hverdict := m.checkKind_verdict kind
  rw [← hcheck] at hverdict
  refine PartitionVerdict.mk ?passes ?miscounted ?outside m.count_codes_setsOfKind ?others
  case passes =>
    constructor
    · intro hok
      have hall : ∀ other, m.Reached other → m.PartitionedBy other := by
        intro other hother
        rcases hlast other hother with rfl | hpartition
        · exact hverdict.passes.1 hok
        · exact hpartition
      have hgeneral := hall .generalCategory trivial
      exact ⟨hgeneral, hall .majorCategory hgeneral⟩
    · rintro ⟨hgeneral, hmajor⟩
      exact checkPartition_eq_ok hgeneral hmajor
  case miscounted =>
    intro other hother hwithin code hle hne
    rcases hlast other hother with rfl | hpartition
    · obtain ⟨least, hbelow, hleast⟩ := exists_firstMiscount hle hne
      exact ⟨least, hbelow, hleast, hverdict.miscounted hwithin least hleast⟩
    · exact absurd ((partitionedBy_iff.1 hpartition).2 code hle) hne
  case outside =>
    intro other
    rw [hverdict.outside]
    constructor
    · rintro ⟨rfl, hout⟩
      simp only [WithinCodeSpace, not_forall, UInt32.not_le] at hout
      obtain ⟨name, code, hcode, hlt⟩ := hout
      exact ⟨hreached, name, code, hcode, hlt⟩
    · rintro ⟨hother, name, code, hcode, hlt⟩
      rcases hlast other hother with rfl | hpartition
      · exact ⟨rfl, fun hwithin => UInt32.not_le.2 hlt (hwithin name code hcode)⟩
      · exact absurd (hpartition.bounded name code hcode) (UInt32.not_le.2 hlt)
  case others =>
    intro n hsame
    have hgeneral : n.checkKind .generalCategory = m.checkKind .generalCategory :=
      checkKind_congr fun name p hp => hsame name p (.inl hp)
    have hmajor : n.checkKind .majorCategory = m.checkKind .majorCategory :=
      checkKind_congr fun name p hp => hsame name p (.inr hp)
    rw [checkPartition, checkPartition, hgeneral, hmajor]

end PropertyMap

end UcdTables
