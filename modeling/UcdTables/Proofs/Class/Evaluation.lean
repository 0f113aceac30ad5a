import UcdTables.Proofs.Class.Equation
import UcdTables.Proofs.Code.Ascending

/-!
# The evaluation of one rule

A rule can be evaluated over a map if the classes that it reads are there. Its terms are resolved
in order, those of the union before those that are taken away, and the first class that is not
there stops the evaluation. The map is only read.

* `evaluate_eq_error_iff`: which error an evaluation has, and when.
* `exists_evaluate_iff`: when a rule can be evaluated.
* `evaluate_solves`: what an evaluation gives, for any rule and any map.
-/

namespace UcdTables.ClassRule

variable {rule : ClassRule} {m : PropertyMap} {term : ClassTerm} {e : BuildError}

/-! ## One term -/

theorem resolve_eq_error_iff : rule.resolve m term = .error e ↔
    ∃ name, term = .posixClass name ∧ ¬ m.Has .posixClass name ∧
      e = .unresolvedClass rule.name name := by
  cases term with
  | property name =>
    simp only [resolve]
    cases m.find? name <;> simp
  | posixClass name =>
    unfold PropertyMap.Has
    simp only [resolve]
    cases hp : m.find? name with
    | none => simp [hp, eq_comm (a := e)]
    | some p =>
      by_cases hkind : p.kind = .posixClass
      · simp [hp, hkind]
      · simp [hp, hkind, eq_comm (a := e)]
  | range r => simp [resolve]
  | codes cs => simp [resolve]

theorem exists_resolve_iff : (∃ s, rule.resolve m term = .ok s) ↔ term.Resolvable m := by
  constructor
  · rintro ⟨s, hs⟩
    cases term with
    | posixClass name =>
      apply Classical.byContradiction
      intro hnone
      have herror : rule.resolve m (.posixClass name) = .error (.unresolvedClass rule.name name) :=
        resolve_eq_error_iff.2 ⟨name, rfl, hnone, rfl⟩
      rw [hs] at herror
      cases herror
    | property name => trivial
    | range r => trivial
    | codes cs => trivial
  · exact exists_resolve rule

/-! ## All terms -/

/-- The terms of the union are resolved first, then those that are taken away. -/
theorem evaluate_eq_error_iff_mapM :
    rule.evaluate m = .error e ↔ rule.terms.mapM (rule.resolve m) = .error e := by
  rw [evaluate_eq_evaluateInFull, evaluateInFull, terms, List.mapM_append, resolveAll, resolveAll]
  -- only the two lists can fail, what is made of their sets cannot
  cases rule.union.mapM (rule.resolve m) with
  | error e' => simp [bind, Except.bind]
  | ok union =>
    cases rule.minus.mapM (rule.resolve m) with
    | error e' => simp [bind, Except.bind, pure, Except.pure]
    | ok minus => simp [bind, Except.bind, pure, Except.pure]

/-- The first class that a rule reads and that is not there is at fault. -/
theorem evaluate_eq_error_iff : rule.evaluate m = .error e ↔
    ∃ before name after, rule.terms = before ++ .posixClass name :: after ∧
      (∀ other, .posixClass other ∈ before → m.Has .posixClass other) ∧
      ¬ m.Has .posixClass name ∧ e = .unresolvedClass rule.name name := by
  rw [evaluate_eq_error_iff_mapM, mapM_eq_error_iff]
  simp only [exists_resolve_iff, resolve_eq_error_iff, ClassTerm.forall_resolvable_iff]
  constructor
  · rintro ⟨before, _, after, hsplit, hbefore, name, rfl, hname⟩
    exact ⟨before, name, after, hsplit, hbefore, hname⟩
  · rintro ⟨before, name, after, hsplit, hbefore, hname⟩
    exact ⟨before, .posixClass name, after, hsplit, hbefore, name, rfl, hname⟩

/-- A rule can be evaluated if the classes that it reads are there, and only then. -/
theorem exists_evaluate_iff : (∃ p, rule.evaluate m = .ok p) ↔
    ∀ name, .posixClass name ∈ rule.terms → m.Has .posixClass name := by
  rw [← ClassTerm.forall_resolvable_iff]
  constructor
  · rintro ⟨p, hp⟩ term hterm
    have hnone : ∀ e, rule.terms.mapM (rule.resolve m) ≠ .error e := by
      intro e he
      rw [evaluate_eq_error_iff_mapM.2 he] at hp
      cases hp
    obtain ⟨sets, hsets⟩ := eq_ok_of_forall_ne_error hnone
    exact exists_resolve_iff.1 (exists_of_mapM_eq_ok hsets hterm)
  · exact exists_evaluate

/-- What an evaluation gives. -/
structure Evaluation (rule : ClassRule) (m : PropertyMap) (outcome : Except BuildError Property) :
    Prop where
  /-- There is a class if those that the rule reads are there, and only then. -/
  succeeds : (∃ p, outcome = .ok p) ↔
    ∀ name, .posixClass name ∈ rule.terms → m.Has .posixClass name
  /-- Otherwise the first of them that is not there is at fault, the union being read first. -/
  unresolved : ∀ e, outcome = .error e ↔
    ∃ before name after, rule.union ++ rule.minus = before ++ .posixClass name :: after ∧
      (∀ other, .posixClass other ∈ before → m.Has .posixClass other) ∧
      ¬ m.Has .posixClass name ∧ e = .unresolvedClass rule.name name
  /-- The class has the codes that some term of the union reads and no term that is taken away
  reads, in ascending order. -/
  solved : ∀ p, outcome = .ok p → p.kind = .posixClass ∧ p.codes.codes.Pairwise (· < ·) ∧
    ∀ code, code ∈ p.codes.codes ↔ rule.Gives m.Holds code
  /-- Whether the terms that are taken away are looked at makes no difference if there are none. -/
  shortened : outcome = rule.evaluateInFull m

/-- A rule gives the class of its equation over any map, or else the first class that is not there
is at fault. -/
theorem evaluate_solves (rule : ClassRule) (m : PropertyMap) :
    Evaluation rule m (rule.evaluate m) := by
  refine Evaluation.mk exists_evaluate_iff (fun _ => evaluate_eq_error_iff) ?solved
    (evaluate_eq_evaluateInFull rule m)
  case solved =>
    intro p hp
    obtain ⟨hkind, hcodes⟩ := mem_of_evaluate hp
    refine ⟨hkind, p.codes.pairwise_codes, fun code => ?_⟩
    rw [CodeSet.mem_codes, ← Property.mem_def, hcodes]

end UcdTables.ClassRule
