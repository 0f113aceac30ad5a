import UcdTables.Class.Rule
import UcdTables.Proofs.Property.Merge

/-!
# What a class rule gives

A class has the codes that some term of its union reads and no term that is taken away reads. What
a term reads depends on what the map holds, and is stated here for any such relation, so that the
same equation can be read over the map before the class, the map after all classes and the tables.

* `ClassRule.mem_of_evaluate`: the class of a rule has the codes that the rule gives.
* `PropertyMap.addClass_eq_ok`, `PropertyMap.addClass_eq_error`: what adding one class does.
-/

namespace UcdTables

namespace ClassTerm

/-- A term reads a code, `held` being the codes that are held under names. -/
def Reads (held : PropertyKind → String → Code → Prop) (code : Code) : ClassTerm → Prop
  | property name => ∃ kind, held kind name code
  | posixClass name => held .posixClass name code
  | range r => code ∈ r
  | codes cs => code ∈ cs

/-- A term reads a class only if it is there. -/
def Resolvable (m : PropertyMap) : ClassTerm → Prop
  | posixClass name => m.Has .posixClass name
  | property _ | range _ | codes _ => True

theorem forall_resolvable_iff {m : PropertyMap} {terms : List ClassTerm} :
    (∀ term ∈ terms, term.Resolvable m) ↔
      ∀ name, .posixClass name ∈ terms → m.Has .posixClass name := by
  constructor
  · intro h name hname
    exact h (.posixClass name) hname
  · intro h term hterm
    cases term with
    | posixClass name => exact h name hterm
    | property name => trivial
    | range r => trivial
    | codes cs => trivial

end ClassTerm

namespace ClassRule

variable {rule : ClassRule} {m : PropertyMap}

/-- The terms of a rule. -/
def terms (rule : ClassRule) : List ClassTerm := rule.union ++ rule.minus

/-- A rule gives a code, `held` being the codes that are held under names. -/
def Gives (held : PropertyKind → String → Code → Prop) (rule : ClassRule) (code : Code) : Prop :=
  (∃ term ∈ rule.union, term.Reads held code) ∧ ∀ term ∈ rule.minus, ¬ term.Reads held code

theorem mem_of_resolve {term : ClassTerm} {s : CodeSet} (h : rule.resolve m term = .ok s)
    {code : Code} : code ∈ s ↔ term.Reads m.Holds code := by
  cases term with
  | property name =>
    unfold ClassTerm.Reads PropertyMap.Holds
    simp only [resolve] at h
    cases hp : m.find? name with
    | none =>
      rw [hp] at h
      obtain rfl : CodeSet.empty = s := Except.ok.inj h
      simp [hp]
    | some p =>
      rw [hp] at h
      obtain rfl : p.codes = s := Except.ok.inj h
      simp [hp, Property.mem_def]
  | posixClass name =>
    unfold ClassTerm.Reads PropertyMap.Holds
    simp only [resolve] at h
    cases hp : m.find? name with
    | none =>
      rw [hp] at h
      cases h
    | some p =>
      rw [hp] at h
      by_cases hkind : p.kind = .posixClass
      · simp only [hkind, if_true] at h
        obtain rfl : p.codes = s := Except.ok.inj h
        simp [hp, hkind, Property.mem_def]
      · simp only [hkind, if_false] at h
        cases h
  | range r =>
    obtain rfl : CodeSet.ofRanges [r] = s := Except.ok.inj h
    simp [ClassTerm.Reads]
  | codes cs =>
    obtain rfl : CodeSet.ofCodes cs = s := Except.ok.inj h
    simp [ClassTerm.Reads]

theorem exists_resolve (rule : ClassRule) {term : ClassTerm} (h : term.Resolvable m) :
    ∃ s, rule.resolve m term = .ok s := by
  cases term with
  | property name =>
    simp only [resolve]
    cases m.find? name with
    | none => exact ⟨_, rfl⟩
    | some p => exact ⟨_, rfl⟩
  | posixClass name =>
    obtain ⟨p, hp, hkind⟩ := h
    simp only [resolve, hp, hkind, if_true]
    exact ⟨_, rfl⟩
  | range r => exact ⟨_, rfl⟩
  | codes cs => exact ⟨_, rfl⟩

theorem mem_of_resolveAll {terms : List ClassTerm} {s : CodeSet}
    (h : rule.resolveAll m terms = .ok s) {code : Code} :
    code ∈ s ↔ ∃ term ∈ terms, term.Reads m.Holds code := by
  obtain ⟨sets, hsets, hunion⟩ := bind_eq_ok_iff.1 h
  obtain rfl : CodeSet.unions sets = s := Except.ok.inj hunion
  have hread := forall₂_of_mapM_eq_ok hsets
  rw [CodeSet.mem_unions]
  clear hsets hunion h
  induction hread with
  | nil => simp
  | cons hs _ ih => simp [mem_of_resolve hs, ih]

theorem exists_resolveAll (rule : ClassRule) {terms : List ClassTerm}
    (h : ∀ term ∈ terms, term.Resolvable m) : ∃ s, rule.resolveAll m terms = .ok s := by
  apply eq_ok_of_forall_ne_error
  intro e he
  rcases bind_eq_error_iff.1 he with hsets | ⟨sets, -, hunion⟩
  · obtain ⟨term, hterm, herror⟩ := exists_of_mapM_eq_error hsets
    obtain ⟨s, hs⟩ := exists_resolve rule (h term hterm)
    rw [hs] at herror
    cases herror
  · cases hunion

/-- The class of the rule by way of both lists of terms, also if nothing is taken away. -/
def evaluateInFull (rule : ClassRule) (m : PropertyMap) : Except BuildError Property := do
  let union ← rule.resolveAll m rule.union
  let minus ← rule.resolveAll m rule.minus
  pure ⟨.posixClass, union.difference minus⟩

/-- A rule that takes nothing away gives its union either way. -/
theorem evaluate_eq_evaluateInFull (rule : ClassRule) (m : PropertyMap) :
    rule.evaluate m = rule.evaluateInFull m := by
  unfold evaluate evaluateInFull
  congr 1
  funext union
  by_cases hminus : rule.minus = []
  · have hunion : union.difference (.unions []) = union := CodeSet.ext fun code => by simp
    rw [if_pos hminus, hminus]
    change pure _ = pure (Property.mk .posixClass (union.difference (.unions [])))
    rw [hunion]
  · rw [if_neg hminus]

/-- The class of a rule has the codes that the rule gives. -/
theorem mem_of_evaluate {p : Property} (h : rule.evaluate m = .ok p) :
    p.kind = .posixClass ∧ ∀ code, code ∈ p ↔ rule.Gives m.Holds code := by
  rw [evaluate_eq_evaluateInFull] at h
  obtain ⟨union, hunion, h⟩ := bind_eq_ok_iff.1 h
  obtain ⟨minus, hminus, h⟩ := bind_eq_ok_iff.1 h
  obtain rfl : Property.mk .posixClass (union.difference minus) = p := Except.ok.inj h
  refine ⟨rfl, fun code => ?_⟩
  rw [Property.mem_def, CodeSet.mem_difference, mem_of_resolveAll hunion,
    mem_of_resolveAll hminus]
  simp [Gives]

/-- A rule can be evaluated if the classes that it reads are there. -/
theorem exists_evaluate (h : ∀ term ∈ rule.terms, term.Resolvable m) :
    ∃ p, rule.evaluate m = .ok p := by
  obtain ⟨union, hunion⟩ := exists_resolveAll rule
    fun term hterm => h term (List.mem_append_left _ hterm)
  obtain ⟨minus, hminus⟩ := exists_resolveAll rule
    fun term hterm => h term (List.mem_append_right _ hterm)
  refine ⟨⟨.posixClass, union.difference minus⟩, ?_⟩
  rw [evaluate_eq_evaluateInFull, evaluateInFull, hunion, hminus]
  rfl

end ClassRule

namespace PropertyMap

variable {m grown : PropertyMap} {rule : ClassRule}

theorem insertNew_eq_ok_iff {name : String} {p : Property} :
    m.insertNew name p = .ok grown ↔ (∀ kind, ¬ m.Has kind name) ∧ grown = m.insert name p := by
  unfold insertNew
  by_cases h : m.contains name = true
  · obtain ⟨kind, hkind⟩ := contains_eq_true_iff.1 h
    rw [if_pos h]
    exact ⟨nofun, fun hnew => absurd hkind (hnew.1 kind)⟩
  · have hnew : ∀ kind, ¬ m.Has kind name := fun kind hkind =>
      h (contains_eq_true_iff.2 ⟨kind, hkind⟩)
    rw [if_neg h, Except.ok.injEq, eq_comm]
    exact (and_iff_right hnew).symm

theorem insertNew_eq_error {name : String} {p : Property} {e : BuildError}
    (h : m.insertNew name p = .error e) :
    e = .duplicateProperty name ∧ ∃ kind, m.Has kind name := by
  unfold insertNew at h
  by_cases hname : m.contains name = true
  · rw [if_pos hname, Except.error.injEq] at h
    exact ⟨h.symm, contains_eq_true_iff.1 hname⟩
  · rw [if_neg hname] at h
    cases h

/-- A class that can be evaluated is put under its name, if that is free. -/
theorem addClass_eq_ok_iff :
    m.addClass rule = .ok grown ↔
      ∃ p, rule.evaluate m = .ok p ∧ m.find? rule.name = none ∧ grown = m.insert rule.name p := by
  rw [addClass, bind_eq_ok_iff]
  simp only [insertNew_eq_ok_iff, find?_eq_none_iff]

/-- A class takes a free name, has the codes that its rule gives, and leaves all else alone. -/
theorem addClass_eq_ok (h : m.addClass rule = .ok grown) :
    (∀ kind, ¬ m.Has kind rule.name) ∧
      (∀ kind name, grown.Has kind name ↔
        m.Has kind name ∨ (kind = .posixClass ∧ name = rule.name)) ∧
      ∀ kind name code, grown.Holds kind name code ↔
        m.Holds kind name code ∨
          (kind = .posixClass ∧ name = rule.name ∧ rule.Gives m.Holds code) := by
  obtain ⟨p, hp, hfree, rfl⟩ := addClass_eq_ok_iff.1 h
  have hnew := find?_eq_none_iff.1 hfree
  obtain ⟨hkind, hcodes⟩ := ClassRule.mem_of_evaluate hp
  refine ⟨hnew, fun kind name => ?_, fun kind name code => ?_⟩
  · rw [has_insert, hkind]
    by_cases hname : name = rule.name
    · subst hname
      simp [hnew, eq_comm]
    · simp [hname]
  · rw [holds_insert, hkind, hcodes]
    by_cases hname : name = rule.name
    · subst hname
      have hnone : ¬ m.Holds kind rule.name code := fun hm => hnew kind hm.has
      simp [hnone, eq_comm]
    · simp [hname]

/-- A class is not added if its rule cannot be evaluated, or else if its name is taken. -/
theorem addClass_eq_error {e : BuildError} (h : m.addClass rule = .error e) :
    rule.evaluate m = .error e ∨ (∃ p, rule.evaluate m = .ok p) ∧
      e = .duplicateProperty rule.name ∧ ∃ kind, m.Has kind rule.name := by
  rcases bind_eq_error_iff.1 h with hevaluate | ⟨p, hp, hinsert⟩
  · exact .inl hevaluate
  · exact .inr ⟨⟨p, hp⟩, insertNew_eq_error hinsert⟩

end PropertyMap

end UcdTables
