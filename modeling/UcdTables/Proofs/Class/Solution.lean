import UcdTables.Proofs.Property.Growth

/-!
# The classes solve their equations

The POSIX classes can be added to any map in which their names are free, and then all their
equations hold at once over the map that comes out. Otherwise the first class whose name is taken
stops them, and the classes before it are there.

* `Adds`: a map, and classes added to it.
* `adds_addClasses`: what becomes of a map to which classes in order are added.
* `addPosixClasses_solves`: the POSIX classes, for any map.
-/

namespace UcdTables.PropertyMap

open ClassRule (InOrder names)

variable {m grown : PropertyMap} {rules : List ClassRule}

/-- A map, the classes of rules added to it. -/
structure Adds (m : PropertyMap) (rules : List ClassRule) (grown : PropertyMap) : Prop where
  /-- The names of the classes were free. -/
  free : ∀ rule ∈ rules, m.find? rule.name = none
  /-- All other names keep their sets, or stay free. -/
  others : ∀ name, name ∉ names rules → grown.find? name = m.find? name
  /-- Each class is there, and its equation holds over the map with all the classes. -/
  solved : ∀ rule ∈ rules, ∃ p, grown.find? rule.name = some p ∧ p.kind = .posixClass ∧
    ∀ code, code ∈ p ↔ rule.Gives grown.Holds code

/-- Classes in order that can all be added solve their equations. -/
theorem adds_addClasses (hrules : InOrder [] rules) (h : m.addClasses rules = (grown, .ok ())) :
    Adds m rules grown := by
  refine Adds.mk ?free ?others ?solved
  case free =>
    intro rule hrule
    exact find?_eq_none_iff.2 (not_has_of_addClasses h rule.name (List.mem_map_of_mem hrule))
  case others =>
    intro name hname
    have hfind := find?_addClasses_of_not_mem m hname
    rwa [h] at hfind
  case solved =>
    intro rule hrule
    obtain ⟨p, hp, hkind⟩ := (has_addClasses h).2 (.inr ⟨rfl, List.mem_map_of_mem hrule⟩)
    refine ⟨p, hp, hkind, fun code => ?_⟩
    rw [← gives_addClasses hrules (by simp) h rule hrule code]
    constructor
    · intro hcode
      exact ⟨p, hp, hkind, hcode⟩
    · intro hright
      obtain ⟨q, hq, -, hcode⟩ := hright
      rw [hp, Option.some.injEq] at hq
      rwa [hq]

/-- Classes in order can be added if their names are free. -/
theorem addClasses_eq_ok_iff (hrules : InOrder [] rules) :
    (m.addClasses rules).2 = .ok () ↔ ∀ rule ∈ rules, m.find? rule.name = none := by
  constructor
  · intro hok
    exact (adds_addClasses hrules (Prod.ext rfl hok)).free
  · intro hfree
    have hnone : ∀ e, (m.addClasses rules).2 ≠ .error e := by
      intro e he
      obtain ⟨rule, hrule, -, kind, hkind⟩ := addClasses_eq_error hrules (by simp) he
      exact find?_eq_none_iff.1 (hfree rule hrule) kind hkind
    obtain ⟨⟨⟩, hok⟩ := eq_ok_of_forall_ne_error hnone
    exact hok

/-- What becomes of a map to which the POSIX classes are added. -/
structure AddsPosixClasses (m grown : PropertyMap) (outcome : Except BuildError Unit) : Prop where
  /-- No class is missing when another reads it. -/
  resolved : ∀ name term, outcome ≠ .error (.unresolvedClass name term)
  /-- All classes can be added if their names are free, and only then. -/
  succeeds : outcome = .ok () ↔ ∀ rule ∈ posixRules, m.find? rule.name = none
  /-- If all classes are added, all their equations hold, and nothing else changes. -/
  solved : outcome = .ok () → Adds m posixRules grown
  /-- Otherwise the first class whose name is taken is at fault, and the classes before it are
  added. -/
  stopped : ∀ e, outcome = .error e → ∃ before rule after,
    posixRules = before ++ rule :: after ∧ (∃ p, m.find? rule.name = some p) ∧
      e = .duplicateProperty rule.name ∧ Adds m before grown

/-- The POSIX classes solve their equations over any map in which their names are free, and stop at
the first name that is not. -/
theorem addPosixClasses_solves (m : PropertyMap) :
    AddsPosixClasses m m.addPosixClasses.1 m.addPosixClasses.2 := by
  have hstopped : ∀ e, m.addPosixClasses.2 = .error e → ∃ before rule after,
      posixRules = before ++ rule :: after ∧ (∃ p, m.find? rule.name = some p) ∧
        e = .duplicateProperty rule.name ∧ Adds m before m.addPosixClasses.1 := by
    intro e he
    obtain ⟨before, rule, after, hsplit, hadded, he, kind, p, hp, -⟩ :=
      addClasses_stops ClassRule.inOrder_posixRules (by simp) (Prod.ext rfl he)
    have hbefore : InOrder [] before :=
      InOrder.of_append (hsplit ▸ ClassRule.inOrder_posixRules)
    exact ⟨before, rule, after, hsplit, ⟨p, hp⟩, he, adds_addClasses hbefore hadded⟩
  refine AddsPosixClasses.mk ?resolved (addClasses_eq_ok_iff ClassRule.inOrder_posixRules)
    ?solved hstopped
  case resolved =>
    intro name term he
    obtain ⟨_, _, _, _, _, hduplicate, _⟩ := hstopped _ he
    cases hduplicate
  case solved =>
    intro hok
    exact adds_addClasses ClassRule.inOrder_posixRules (Prod.ext rfl hok)

end UcdTables.PropertyMap
