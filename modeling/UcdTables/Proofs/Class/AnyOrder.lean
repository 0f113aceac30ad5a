import UcdTables.Proofs.Class.InTurn
import UcdTables.Proofs.Class.Solution

/-!
# Classes in any order

The order of the rules decides whether all classes can be added, and not what they hold. If no rule
reads the class of another as a property, then each class solves its equation over the final map, in
whatever order the classes came; and the equations have one solution.

* `inOrder_of_addClasses`: rules whose classes could all be added are in order.
* `addClasses_perm`: two orders in which all classes can be added give one map.
* `addClasses_eq_ok_iff_precedes`: in which orders they can be added.
* `addClasses_anyOrder`: both for any rules, and the orders of the POSIX classes.
-/

namespace UcdTables.PropertyMap

open ClassRule (InOrder names)

variable {m grown grown' : PropertyMap} {rules rules' before after : List ClassRule}
  {rule : ClassRule} {earlier : List String} {name : String}

/-! ## One solution -/

/-- The names of the classes of a map. -/
def classNames (m : PropertyMap) : List String :=
  (m.entries.filter (·.2.kind = .posixClass)).map (·.1)

theorem mem_classNames : name ∈ m.classNames ↔ m.Has .posixClass name := by
  simp only [classNames, Has, NameMap.find?_eq_some_iff, List.mem_map, List.mem_filter,
    decide_eq_true_eq, Prod.exists, exists_and_right, exists_eq_right]

/-- No rule reads the class of one of the rules as if it were a property from elsewhere. -/
def ReadsNoClassAsProperty (rules : List ClassRule) : Prop :=
  ∀ name ∈ names rules, ∀ rule ∈ rules, .property name ∉ rule.terms

instance (rules : List ClassRule) : Decidable (ReadsNoClassAsProperty rules) :=
  inferInstanceAs (Decidable (∀ name ∈ names rules, ∀ rule ∈ rules, _))

/-- Rules whose classes could all be added are in order. -/
theorem inOrder_of_addClasses (hearlier : ∀ name, m.Has .posixClass name → name ∈ earlier)
    (hreads : ReadsNoClassAsProperty rules) (h : m.addClasses rules = (grown, .ok ())) :
    InOrder earlier rules := by
  induction rules generalizing m earlier with
  | nil => trivial
  | cons rule rules ih =>
    obtain ⟨next, hrule, hrest⟩ := addClasses_cons_eq_ok h
    obtain ⟨-, hhas, -⟩ := addClass_eq_ok hrule
    obtain ⟨p, hp, -, -⟩ := addClass_eq_ok_iff.1 hrule
    have hadded : next.Has .posixClass rule.name := (hhas _ _).2 (.inr ⟨rfl, rfl⟩)
    refine ⟨fun hname => not_has_of_addClasses hrest _ hname _ hadded, ?_, ih ?_ ?_ hrest⟩
    · intro term hterm
      cases term with
      | property name => exact fun hname => hreads name hname rule (by simp) hterm
      | posixClass name =>
        exact hearlier name (ClassRule.exists_evaluate_iff.1 ⟨p, hp⟩ name hterm)
      | range r => trivial
      | codes cs => trivial
    · intro name hname
      rcases (hhas _ _).1 hname with hm | ⟨-, rfl⟩
      · exact List.mem_cons_of_mem _ (hearlier name hm)
      · exact List.mem_cons_self
    · intro name hname other hother
      exact hreads name (List.mem_cons_of_mem _ hname) other (List.mem_cons_of_mem _ hother)

/-- What is no class of the rules is left alone. -/
theorem holds_addClasses_of_other (h : m.addClasses rules = (grown, .ok ())) {kind : PropertyKind}
    {code : Code} (hother : kind ≠ .posixClass ∨ name ∉ names rules) :
    grown.Holds kind name code ↔ m.Holds kind name code := by
  by_cases hname : name ∈ names rules
  · have hkind := hother.resolve_right fun hnot => hnot hname
    have hfree := not_has_of_addClasses h name hname kind
    refine ⟨fun hcode => ?_, fun hcode => absurd hcode.has hfree⟩
    rcases (has_addClasses h).1 hcode.has with hm | ⟨hclass, -⟩
    · exact absurd hm hfree
    · exact absurd hclass hkind
  · exact holds_addClasses_of_not_mem h hname

/-- Two orders in which all classes can be added give one map. -/
theorem addClasses_perm (hreads : ReadsNoClassAsProperty rules) (hperm : rules'.Perm rules)
    (h : m.addClasses rules = (grown, .ok ())) (h' : m.addClasses rules' = (grown', .ok ())) :
    grown' = grown := by
  have hnames : ∀ name, name ∈ names rules' ↔ name ∈ names rules := fun name =>
    (hperm.map (·.name)).mem_iff
  have hreads' : ReadsNoClassAsProperty rules' := fun name hname rule hrule =>
    hreads name ((hnames name).1 hname) rule (hperm.subset hrule)
  have horder := inOrder_of_addClasses (fun _ => mem_classNames.2) hreads h
  have horder' := inOrder_of_addClasses (fun _ => mem_classNames.2) hreads' h'
  have hsolved := gives_addClasses horder (fun _ => mem_classNames.1) h
  have hsolved' := gives_addClasses horder' (fun _ => mem_classNames.1) h'
  have hfree : ∀ name ∈ m.classNames, name ∉ names rules := fun name hclass hname =>
    not_has_of_addClasses h name hname .posixClass (mem_classNames.1 hclass)
  apply eq_of_views
  · intro kind name
    rw [has_addClasses h, has_addClasses h', hnames]
  · refine horder.agree hfree (fun rule hrule => hsolved' rule (hperm.mem_iff.2 hrule)) hsolved ?_
    intro kind name code hother
    rw [holds_addClasses_of_other h hother, holds_addClasses_of_other h' (by rwa [hnames])]

/-! ## Orders in which all classes can be added -/

/-- Among rules of different classes, one class comes before another. -/
def Precedes (rules : List ClassRule) (name name' : String) : Prop :=
  [name, name'].Sublist (names rules)

instance (rules : List ClassRule) (name name' : String) : Decidable (Precedes rules name name') :=
  inferInstanceAs (Decidable (List.Sublist _ _))

theorem precedes_append_iff (hnodup : (names (before ++ rule :: after)).Nodup) :
    Precedes (before ++ rule :: after) name rule.name ↔ name ∈ names before := by
  have hsplit : names (before ++ rule :: after) = names before ++ rule.name :: names after := by
    simp [names]
  rw [hsplit] at hnodup
  obtain ⟨hfresh, -⟩ := List.nodup_cons.1 (List.nodup_append.1 hnodup).2.1
  rw [Precedes, hsplit]
  constructor
  · intro hsublist
    obtain ⟨front, back, heq, hfront, hback⟩ := List.sublist_append_iff.1 hsublist
    rcases List.cons_eq_append_iff.1 heq with ⟨rfl, rfl⟩ | ⟨front, rfl, -⟩
    -- if both stood from the rule on, the name of the rule would stand after it
    · exact absurd (List.singleton_sublist.1 hback.tail) hfresh
    · exact hfront.subset (by simp)
  · intro hname
    exact (List.singleton_sublist.2 hname).append (List.singleton_sublist.2 (by simp))

/-- Rules whose names are different and free, and that read only classes of one another. -/
structure SelfContained (m : PropertyMap) (rules : List ClassRule) : Prop where
  distinct : (names rules).Nodup
  free : ∀ rule ∈ rules, m.find? rule.name = none
  closed : ∀ rule ∈ rules, ∀ name, .posixClass name ∈ rule.terms → name ∈ names rules

theorem SelfContained.perm (h : SelfContained m rules) (hperm : rules'.Perm rules) :
    SelfContained m rules' := by
  have hnames : (names rules').Perm (names rules) := hperm.map ClassRule.name
  refine ⟨hnames.nodup_iff.2 h.distinct, fun rule hrule => h.free rule (hperm.subset hrule), ?_⟩
  intro rule hrule name hname
  exact hnames.mem_iff.2 (h.closed rule (hperm.subset hrule) name hname)

theorem SelfContained.fresh (h : SelfContained m (before ++ rule :: after)) :
    rule.name ∉ names before := by
  intro hname
  have hnodup := h.distinct
  rw [names, List.map_append, List.map_cons] at hnodup
  exact (List.nodup_append.1 hnodup).2.2 _ hname _ List.mem_cons_self rfl

theorem SelfContained.hasBy_iff (h : SelfContained m (before ++ rule :: after))
    (hname : .posixClass name ∈ rule.terms) :
    m.HasBy before name ↔ Precedes (before ++ rule :: after) name rule.name := by
  rw [precedes_append_iff h.distinct, HasBy, or_iff_right_iff_imp]
  intro hclass
  obtain ⟨other, hother, rfl⟩ := List.mem_map.1 (h.closed rule (by simp) name hname)
  exact absurd hclass (find?_eq_none_iff.1 (h.free other hother) _)

/-- All classes can be added if each rule comes after the classes that it reads. -/
theorem addClasses_eq_ok_iff_precedes (h : SelfContained m rules) :
    (m.addClasses rules).2 = .ok () ↔
      ∀ rule ∈ rules, ∀ name, .posixClass name ∈ rule.terms → Precedes rules name rule.name := by
  rw [addClasses_eq_ok_iff_admits]
  constructor
  · intro hadmits rule hrule name hname
    obtain ⟨before, after, rfl⟩ := List.append_of_mem hrule
    exact (h.hasBy_iff hname).1 ((hadmits before rule after rfl).resolved name hname)
  · rintro hprecedes before rule after rfl
    refine Admits.mk (h.free rule (by simp)) h.fresh fun name hname => ?_
    exact (h.hasBy_iff hname).2 (hprecedes rule (by simp) name hname)

/-- Otherwise a rule that comes before a class that it reads is at fault. -/
theorem addClasses_eq_error_of_precedes (h : SelfContained m rules) {e : BuildError}
    (he : (m.addClasses rules).2 = .error e) :
    ∃ rule ∈ rules, ∃ name, .posixClass name ∈ rule.terms ∧ ¬ Precedes rules name rule.name ∧
      e = .unresolvedClass rule.name name := by
  obtain ⟨before, rule, after, rfl, -, hfault, -⟩ := (addClasses_adds_or_stops m rules).stopped e he
  cases hfault with
  | @unresolved first name rest hsplit _ hmissing =>
    have hname : .posixClass name ∈ rule.terms := by simp [hsplit]
    exact ⟨rule, by simp, name, hname, fun hprecedes => hmissing ((h.hasBy_iff hname).2 hprecedes),
      rfl⟩
  | taken _ hheld =>
    have hfree : m.find? rule.name = none := h.free rule (by simp)
    rcases hheld with ⟨p, hp⟩ | hname
    · rw [hfree] at hp
      cases hp
    · exact absurd hname h.fresh

/-! ## The POSIX classes -/

theorem selfContained_posixRules (hfree : ∀ rule ∈ posixRules, m.find? rule.name = none) :
    SelfContained m posixRules := by
  refine ⟨by decide, hfree, fun rule hrule name hname => ?_⟩
  obtain ⟨before, after, hsplit⟩ := List.append_of_mem hrule
  obtain ⟨-, hreads⟩ := (hsplit ▸ ClassRule.inOrder_posixRules).reads_of_append
  have hbefore := (hreads name hname).resolve_left List.not_mem_nil
  simp only [hsplit, names, List.map_append, List.mem_append]
  exact .inl hbefore

/-- The classes that the POSIX classes read. -/
theorem forall_posixRules_iff {p : String → String → Prop} :
    (∀ rule ∈ posixRules, ∀ name, .posixClass name ∈ rule.terms → p name rule.name) ↔
      p "Space" "Graph" ∧ p "Graph" "Print" ∧ p "Space" "Print" := by
  simp [posixRules, ClassRule.terms]

/-- What becomes of a map to which the POSIX classes are added in an order of one's own. -/
structure PosixInAnyOrder (m : PropertyMap) (rules : List ClassRule) : Prop where
  /-- All classes can be added if `Space`, `Graph` and `Print` stand in this order. -/
  succeeds : (m.addClasses rules).2 = .ok () ↔
    Precedes rules "Space" "Graph" ∧ Precedes rules "Graph" "Print" ∧
      Precedes rules "Space" "Print"
  /-- Then the map is that of the usual order. -/
  same : (m.addClasses rules).2 = .ok () → (m.addClasses rules).1 = m.addPosixClasses.1
  /-- Otherwise a class that comes before one that it reads is at fault. -/
  unresolved : (m.addClasses rules).2 ≠ .ok () → ∃ rule ∈ rules, ∃ name,
    .posixClass name ∈ rule.terms ∧ ¬ Precedes rules name rule.name ∧
      (m.addClasses rules).2 = .error (.unresolvedClass rule.name name)

theorem posixInAnyOrder (hperm : rules.Perm posixRules)
    (hfree : ∀ rule ∈ posixRules, m.find? rule.name = none) : PosixInAnyOrder m rules := by
  have hposix := selfContained_posixRules hfree
  have hrules := hposix.perm hperm
  refine PosixInAnyOrder.mk ?succeeds ?same ?unresolved
  case succeeds =>
    rw [addClasses_eq_ok_iff_precedes hrules, ← forall_posixRules_iff]
    simp only [hperm.mem_iff]
  case same =>
    intro hok
    have husual : m.addPosixClasses.2 = .ok () :=
      (addClasses_eq_ok_iff ClassRule.inOrder_posixRules).2 hfree
    exact addClasses_perm (by decide) hperm (Prod.ext rfl husual) (Prod.ext rfl hok)
  case unresolved =>
    intro hfails
    cases he : (m.addClasses rules).2 with
    | ok => exact absurd he hfails
    | error e =>
      obtain ⟨rule, hrule, name, hname, hlate, rfl⟩ := addClasses_eq_error_of_precedes hrules he
      exact ⟨rule, hrule, name, hname, hlate, rfl⟩

/-- The order of the rules leaves no trace in the map, if no rule reads the class of another as a
property. For the POSIX classes it decides whether all of them can be added. -/
theorem addClasses_anyOrder :
    (∀ (m grown grown' : PropertyMap) (rules rules' : List ClassRule),
      ReadsNoClassAsProperty rules → rules'.Perm rules →
      m.addClasses rules = (grown, .ok ()) → m.addClasses rules' = (grown', .ok ()) →
      grown' = grown) ∧
    ∀ (m : PropertyMap) (rules : List ClassRule), rules.Perm posixRules →
      (∀ rule ∈ posixRules, m.find? rule.name = none) → PosixInAnyOrder m rules :=
  ⟨fun _ _ _ _ _ => addClasses_perm, fun _ _ => posixInAnyOrder⟩

/-- Two classes that a third reads are added in either order. Of the POSIX classes, all from `Space`
on may come before the others; but `Print` may not come first. -/
theorem addClasses_anyOrder_rotated :
    let m : PropertyMap := NameMap.empty.insert "Lu" (.ofCodes .generalCategory [0x41])
    let first : ClassRule := ⟨"Capital", [.property "Lu"], []⟩
    let second : ClassRule := ⟨"Numeral", [.range ⟨0x30, 0x39⟩], [.codes [0x30]]⟩
    let third : ClassRule := ⟨"Either", [.posixClass "Numeral", .posixClass "Capital"], []⟩
    let rotated := posixRules.drop 11 ++ posixRules.take 11
    (ReadsNoClassAsProperty [first, second, third] ∧
      [second, first, third].Perm [first, second, third] ∧
      ∃ grown, m.addClasses [first, second, third] = (grown, .ok ()) ∧
        m.addClasses [second, first, third] = (grown, .ok ())) ∧
    (∀ rule ∈ posixRules, m.find? rule.name = none) ∧
    (rotated.Perm posixRules ∧ m.addClasses rotated = (m.addPosixClasses.1, .ok ())) ∧
    posixRules.reverse.Perm posixRules ∧
      ∃ name term, (m.addClasses posixRules.reverse).2 = .error (.unresolvedClass name term) := by
  intro m first second third rotated
  obtain ⟨hsame, hposix⟩ := addClasses_anyOrder
  have hreads : ReadsNoClassAsProperty [first, second, third] := by decide
  have hswap : [second, first, third].Perm [first, second, third] := .swap first second [third]
  obtain ⟨grown, hadded⟩ : ∃ grown, m.addClasses [first, second, third] = (grown, .ok ()) :=
    ⟨_, Prod.ext rfl (by decide +kernel)⟩
  obtain ⟨grown', hadded'⟩ : ∃ grown, m.addClasses [second, first, third] = (grown, .ok ()) :=
    ⟨_, Prod.ext rfl (by decide +kernel)⟩
  obtain rfl := hsame m _ _ _ _ hreads hswap hadded hadded'
  have hfree : ∀ rule ∈ posixRules, m.find? rule.name = none := by decide
  have hrotated : rotated.Perm posixRules := List.perm_append_comm
  have hreverse : posixRules.reverse.Perm posixRules := List.reverse_perm posixRules
  have hposixRotated := hposix m rotated hrotated hfree
  have hok := hposixRotated.succeeds.2 (by decide)
  have hrotatedEq : m.addClasses rotated = (m.addPosixClasses.1, .ok ()) := by
    rw [← hposixRotated.same hok, ← hok]
  have hposixReverse := hposix m posixRules.reverse hreverse hfree
  have hlate : ¬ Precedes posixRules.reverse "Space" "Graph" := by decide
  have hfails : (m.addClasses posixRules.reverse).2 ≠ .ok () := by
    rw [Ne, hposixReverse.succeeds]
    exact fun h => hlate h.1
  obtain ⟨rule, -, name, -, -, he⟩ := hposixReverse.unresolved hfails
  exact ⟨⟨hreads, hswap, grown', hadded, hadded'⟩, hfree, ⟨hrotated, hrotatedEq⟩, hreverse,
    rule.name, name, he⟩

end UcdTables.PropertyMap
