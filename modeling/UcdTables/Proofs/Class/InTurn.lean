import UcdTables.Proofs.Class.Evaluation
import UcdTables.Proofs.Property.Growth

/-!
# Classes in turn

Any list of rules, in any order and with any names, can be tried on any map. A rule of the list is
admitted if its name is still free when its turn comes and if the classes that it reads are there by
then. Both can be told from the map at the start and the names of the rules before it.

* `exists_addClass_iff`: the class of a rule can be added in its turn if the rule is admitted.
* `Fault`: why a rule is not admitted, and the error that says so.
* `addClasses_adds_or_stops`: what becomes of a map to which classes are added in turn.
-/

namespace UcdTables.PropertyMap

open ClassRule (names)

variable {m next grown : PropertyMap} {before after rules : List ClassRule} {rule : ClassRule}
  {e : BuildError}

/-- A class is in the map, or is that of a rule before. -/
def HasBy (m : PropertyMap) (before : List ClassRule) (name : String) : Prop :=
  m.Has .posixClass name ∨ name ∈ names before

/-- A rule whose class can be added to the map once those of the rules before it are added. -/
structure Admits (m : PropertyMap) (before : List ClassRule) (rule : ClassRule) : Prop where
  /-- The map has nothing under its name. -/
  free : m.find? rule.name = none
  /-- No rule before it has its name. -/
  fresh : rule.name ∉ names before
  /-- The classes that it reads are in the map, or are those of rules before it. -/
  resolved : ∀ name, .posixClass name ∈ rule.terms → m.HasBy before name

/-- Why a rule is not admitted. A class that it reads and that is not there comes before a name that
is taken. -/
inductive Fault (m : PropertyMap) (before : List ClassRule) (rule : ClassRule) : BuildError → Prop
  /-- The first class that it reads and that is not there is at fault. -/
  | unresolved {first : List ClassTerm} {name : String} {rest : List ClassTerm}
    (split : rule.terms = first ++ .posixClass name :: rest)
    (earlier : ∀ other, .posixClass other ∈ first → m.HasBy before other)
    (missing : ¬ m.HasBy before name) : Fault m before rule (.unresolvedClass rule.name name)
  /-- All classes that it reads are there, and its name is at fault. -/
  | taken (resolved : ∀ name, .posixClass name ∈ rule.terms → m.HasBy before name)
    (held : (∃ p, m.find? rule.name = some p) ∨ rule.name ∈ names before) :
    Fault m before rule (.duplicateProperty rule.name)

/-! ## One rule in its turn -/

theorem has_posixClass_iff (h : m.addClasses before = (next, .ok ())) {name : String} :
    next.Has .posixClass name ↔ m.HasBy before name := by
  rw [has_addClasses h, HasBy, and_iff_right rfl]

theorem find?_eq_none_iff_of_addClasses (h : m.addClasses before = (next, .ok ()))
    {name : String} : next.find? name = none ↔ m.find? name = none ∧ name ∉ names before := by
  simp only [find?_eq_none_iff, has_addClasses h, not_or, not_and]
  constructor
  · intro hnone
    exact ⟨fun kind => (hnone kind).1, (hnone .posixClass).2 rfl⟩
  · rintro ⟨hm, hnames⟩ kind
    exact ⟨hm kind, fun _ => hnames⟩

/-- The class of a rule can be added in its turn if the rule is admitted, and only then. -/
theorem exists_addClass_iff (h : m.addClasses before = (next, .ok ())) :
    (∃ grown, next.addClass rule = .ok grown) ↔ m.Admits before rule := by
  simp only [addClass_eq_ok_iff]
  constructor
  · rintro ⟨-, p, hp, hfree, -⟩
    obtain ⟨hm, hfresh⟩ := (find?_eq_none_iff_of_addClasses h).1 hfree
    have hthere := ClassRule.exists_evaluate_iff.1 ⟨p, hp⟩
    exact ⟨hm, hfresh, fun name hname => (has_posixClass_iff h).1 (hthere name hname)⟩
  · intro hadmits
    obtain ⟨p, hp⟩ := ClassRule.exists_evaluate_iff.2 fun name hname =>
      (has_posixClass_iff h).2 (hadmits.resolved name hname)
    have hfree := (find?_eq_none_iff_of_addClasses h).2 ⟨hadmits.free, hadmits.fresh⟩
    exact ⟨next.insert rule.name p, p, hp, hfree, rfl⟩

/-- The class of a rule that is not admitted fails with the error that says why. -/
theorem fault_of_addClass_eq_error (h : m.addClasses before = (next, .ok ()))
    (he : next.addClass rule = .error e) : m.Fault before rule e := by
  rcases addClass_eq_error he with hevaluate | ⟨hp, rfl, hheld⟩
  · obtain ⟨first, name, rest, hsplit, hearlier, hmissing, rfl⟩ :=
      ClassRule.evaluate_eq_error_iff.1 hevaluate
    exact .unresolved hsplit (fun other hother => (has_posixClass_iff h).1 (hearlier other hother))
      fun hname => hmissing ((has_posixClass_iff h).2 hname)
  · refine .taken (fun name hname => ?_) ?_
    · exact (has_posixClass_iff h).1 (ClassRule.exists_evaluate_iff.1 hp name hname)
    · obtain ⟨kind, hkind⟩ := hheld
      rcases (has_addClasses h).1 hkind with ⟨p, hp, -⟩ | ⟨-, hname⟩
      · exact .inl ⟨p, hp⟩
      · exact .inr hname

/-! ## All rules in turn -/

theorem addClasses_append_eq_ok (h : m.addClasses (before ++ after) = (grown, .ok ())) :
    ∃ next, m.addClasses before = (next, .ok ()) ∧ next.addClasses after = (grown, .ok ()) := by
  induction before generalizing m with
  | nil => exact ⟨m, rfl, h⟩
  | cons rule before ih =>
    obtain ⟨mid, hrule, hrest⟩ := addClasses_cons_eq_ok h
    obtain ⟨next, hbefore, hafter⟩ := ih hrest
    refine ⟨next, ?_, hafter⟩
    rw [addClasses, hrule]
    exact hbefore

/-- All classes can be added if each rule is admitted in its turn, and only then. -/
theorem addClasses_eq_ok_iff_admits : (m.addClasses rules).2 = .ok () ↔
    ∀ before rule after, rules = before ++ rule :: after → m.Admits before rule := by
  constructor
  · rintro hok before rule after rfl
    obtain ⟨next, hbefore, hrest⟩ := addClasses_append_eq_ok (Prod.ext rfl hok)
    obtain ⟨grown, hrule, -⟩ := addClasses_cons_eq_ok hrest
    exact (exists_addClass_iff hbefore).1 ⟨grown, hrule⟩
  · intro hadmits
    have hnone : ∀ e, (m.addClasses rules).2 ≠ .error e := by
      intro e he
      obtain ⟨before, rule, after, hsplit, hbefore, herror⟩ :=
        exists_append_of_addClasses_eq_error (Prod.ext rfl he)
      obtain ⟨grown, hrule⟩ := (exists_addClass_iff hbefore).2 (hadmits before rule after hsplit)
      rw [hrule] at herror
      cases herror
    obtain ⟨⟨⟩, hok⟩ := eq_ok_of_forall_ne_error hnone
    exact hok

/-- A map, the classes of rules added to it in turn. -/
structure AddsInTurn (m : PropertyMap) (rules : List ClassRule) (grown : PropertyMap) : Prop where
  /-- The sets of the map stay as they are. -/
  kept : ∀ name p, m.find? name = some p → grown.find? name = some p
  /-- Nothing is there but these and the classes. -/
  others : ∀ name, name ∉ names rules → grown.find? name = m.find? name
  /-- Each class is what its rule gives over the map with the classes of the rules before it. -/
  classes : ∀ before rule after, rules = before ++ rule :: after → ∃ next p,
    m.addClasses before = (next, .ok ()) ∧ rule.evaluate next = .ok p ∧
      grown.find? rule.name = some p

theorem addsInTurn_addClasses (h : m.addClasses rules = (grown, .ok ())) :
    m.AddsInTurn rules grown := by
  obtain rfl : (m.addClasses rules).1 = grown := congrArg Prod.fst h
  refine AddsInTurn.mk ?kept (fun _ => find?_addClasses_of_not_mem m) ?classes
  case kept =>
    intro name p hp
    exact find?_addClasses_of_eq_some rules hp
  case classes =>
    rintro before rule after rfl
    obtain ⟨next, hbefore, hrest⟩ := addClasses_append_eq_ok h
    obtain ⟨grown, hrule, -⟩ := addClasses_cons_eq_ok hrest
    obtain ⟨p, hp, hfree, -⟩ := addClass_eq_ok_iff.1 hrule
    exact ⟨next, p, hbefore, hp, find?_addClasses_append hbefore hp hfree⟩

/-- What becomes of a map to which the classes of rules are added in turn. -/
structure ClassesOutcome (m : PropertyMap) (rules : List ClassRule) (grown : PropertyMap)
    (outcome : Except BuildError Unit) : Prop where
  /-- All classes can be added if each rule is admitted in its turn, and only then. -/
  succeeds : outcome = .ok () ↔
    ∀ before rule after, rules = before ++ rule :: after → m.Admits before rule
  /-- If they all are, nothing else changes. -/
  added : outcome = .ok () → m.AddsInTurn rules grown
  /-- Otherwise the first rule that is not admitted is at fault, and the classes of the rules before
  it are added. -/
  stopped : ∀ e, outcome = .error e → ∃ before rule after, rules = before ++ rule :: after ∧
    (∀ front other back, before = front ++ other :: back → m.Admits front other) ∧
    m.Fault before rule e ∧ m.AddsInTurn before grown

/-- Classes are added in turn to any map, up to the first rule that is not admitted. -/
theorem addClasses_adds_or_stops (m : PropertyMap) (rules : List ClassRule) :
    ClassesOutcome m rules (m.addClasses rules).1 (m.addClasses rules).2 := by
  refine ClassesOutcome.mk addClasses_eq_ok_iff_admits ?added ?stopped
  case added =>
    intro hok
    exact addsInTurn_addClasses (Prod.ext rfl hok)
  case stopped =>
    intro e he
    obtain ⟨before, rule, after, hsplit, hbefore, herror⟩ :=
      exists_append_of_addClasses_eq_error (Prod.ext rfl he)
    have hadmitted : (m.addClasses before).2 = .ok () := congrArg Prod.snd hbefore
    exact ⟨before, rule, after, hsplit, addClasses_eq_ok_iff_admits.1 hadmitted,
      fault_of_addClass_eq_error hbefore herror, addsInTurn_addClasses hbefore⟩

/-- The second rule takes the name of the first, and reads a class that is not there. -/
example : (addClasses .empty [⟨"Digit", [.codes [0x31, 0x30]], []⟩,
    ⟨"Digit", [.posixClass "Alpha"], []⟩]).2 = .error (.unresolvedClass "Digit" "Alpha") := by
  decide +kernel

end UcdTables.PropertyMap
