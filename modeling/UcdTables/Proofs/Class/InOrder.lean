import UcdTables.Class.Posix
import UcdTables.Proofs.Class.Equation

/-!
# Classes one after the other

Rules are evaluated in order, each over the map with the classes before it. If each rule reads only
classes that come before it, and no property whose name a later class takes, then all the equations
hold at once over the map after the last class.

* `ClassRule.InOrder.agree`: the equations have one solution.
* `PropertyMap.gives_addClasses`: the equations hold over the final map.
* `PropertyMap.addClasses_stops`: the only failure is a name that is taken.
* `inOrder_posixRules`: the POSIX classes are in such an order.
-/

namespace UcdTables

/-- What the rule of a class may read: the classes `earlier`, and properties that none of the
classes `later` takes the name of. -/
def ClassTerm.ReadsBefore (earlier later : List String) : ClassTerm → Prop
  | property name => name ∉ later
  | posixClass name => name ∈ earlier
  | range _ | codes _ => True

instance (earlier later : List String) (term : ClassTerm) :
    Decidable (term.ReadsBefore earlier later) :=
  match term with
  | .property name => inferInstanceAs (Decidable (name ∉ later))
  | .posixClass name => inferInstanceAs (Decidable (name ∈ earlier))
  | .range _ | .codes _ => inferInstanceAs (Decidable True)

theorem ClassTerm.ReadsBefore.mono {earlier later later' : List String} {term : ClassTerm}
    (h : term.ReadsBefore earlier later) (hlater : later' ⊆ later) :
    term.ReadsBefore earlier later' := by
  cases term with
  | property name => exact fun hname => h (hlater hname)
  | posixClass name => exact h
  | range r => trivial
  | codes cs => trivial

namespace ClassRule

/-- The names of the classes of a list of rules. -/
def names (rules : List ClassRule) : List String := rules.map (·.name)

/-- Rules of different classes, each of which reads only what is there and stays as it is, the
classes `earlier` being there before the first. -/
def InOrder (earlier : List String) : List ClassRule → Prop
  | [] => True
  | rule :: rules =>
    rule.name ∉ names rules ∧
      (∀ term ∈ rule.terms, term.ReadsBefore earlier (names (rule :: rules))) ∧
      InOrder (rule.name :: earlier) rules

instance decidableInOrder (earlier : List String) (rules : List ClassRule) :
    Decidable (InOrder earlier rules) :=
  match rules with
  | [] => inferInstanceAs (Decidable True)
  | rule :: rules =>
    have := decidableInOrder (rule.name :: earlier) rules
    inferInstanceAs (Decidable (_ ∧ _ ∧ _))

/-- The rules up to any one of them are in order. -/
theorem InOrder.of_append {earlier : List String} {before after : List ClassRule}
    (h : InOrder earlier (before ++ after)) : InOrder earlier before := by
  induction before generalizing earlier with
  | nil => trivial
  | cons rule before ih =>
    obtain ⟨hname, hterms, hlater⟩ := h
    have hnames : names before ⊆ names (before ++ after) := by simp [names]
    refine ⟨fun hmem => hname (hnames hmem), fun term hterm => ?_, ih hlater⟩
    exact (hterms term hterm).mono (List.cons_subset_cons rule.name hnames)

/-- A rule in order reads classes that are there or come before it, and none of those before it has
its name. -/
theorem InOrder.reads_of_append {earlier : List String} {before after : List ClassRule}
    {rule : ClassRule} (h : InOrder earlier (before ++ rule :: after)) :
    rule.name ∉ names before ∧
      ∀ name, .posixClass name ∈ rule.terms → name ∈ earlier ∨ name ∈ names before := by
  induction before generalizing earlier with
  | nil =>
    obtain ⟨-, hterms, -⟩ := h
    exact ⟨List.not_mem_nil, fun name hname => .inl (hterms _ hname)⟩
  | cons first before ih =>
    obtain ⟨hfirst, -, hlater⟩ := h
    obtain ⟨hnew, hreads⟩ := ih hlater
    have hne : rule.name ≠ first.name := by
      intro heq
      exact hfirst (heq ▸ List.mem_map_of_mem (by simp))
    refine ⟨fun hmem => (List.mem_cons.1 hmem).elim hne hnew, fun name hname => ?_⟩
    rcases hreads name hname with hmem | hmem
    · rcases List.mem_cons.1 hmem with rfl | hmem
      · exact .inr List.mem_cons_self
      · exact .inl hmem
    · exact .inr (List.mem_cons_of_mem _ hmem)

/-- The rules of the POSIX classes are in order. -/
theorem inOrder_posixRules : InOrder [] posixRules := by decide

end ClassRule

namespace ClassRule

variable {held held' : PropertyKind → String → Code → Prop}

/-- A rule gives the same codes over two relations on which its terms read the same codes. -/
theorem gives_congr {rule : ClassRule} {code : Code}
    (h : ∀ term ∈ rule.terms, (term.Reads held code ↔ term.Reads held' code)) :
    rule.Gives held code ↔ rule.Gives held' code :=
  and_congr
    (exists_congr fun term => and_congr_right fun hterm => h term (List.mem_append_left _ hterm))
    (forall₂_congr fun term hterm => not_congr (h term (List.mem_append_right _ hterm)))

/-- The equations of rules in order have one solution: two relations that satisfy them and agree on
all that is no class of the rules agree. -/
theorem InOrder.agree {earlier : List String} {rules : List ClassRule}
    (hrules : InOrder earlier rules) (hearlier : ∀ name ∈ earlier, name ∉ names rules)
    (h : ∀ rule ∈ rules, ∀ code, held .posixClass rule.name code ↔ rule.Gives held code)
    (h' : ∀ rule ∈ rules, ∀ code, held' .posixClass rule.name code ↔ rule.Gives held' code)
    (hother : ∀ kind name code, kind ≠ .posixClass ∨ name ∉ names rules →
      (held kind name code ↔ held' kind name code)) (kind : PropertyKind) (name : String)
    (code : Code) : held kind name code ↔ held' kind name code := by
  induction rules generalizing earlier with
  | nil => exact hother kind name code (.inr (by simp [names]))
  | cons rule rules ih =>
    obtain ⟨hname, hterms, hlater⟩ := hrules
    have hreads : ∀ code, ∀ term ∈ rule.terms,
        (term.Reads held code ↔ term.Reads held' code) := by
      intro code term hterm
      have hbefore := hterms term hterm
      cases term with
      | property name => exact exists_congr fun kind => hother kind name code (.inr hbefore)
      | posixClass name => exact hother .posixClass name code (.inr (hearlier name hbefore))
      | range r => rfl
      | codes cs => rfl
    refine ih hlater ?_ (fun other hmem => h other (by simp [hmem]))
      (fun other hmem => h' other (by simp [hmem])) ?_
    · intro other hmem
      rcases List.mem_cons.1 hmem with rfl | hmem
      · exact hname
      · exact fun hnames => hearlier other hmem (List.mem_cons_of_mem _ hnames)
    · intro kind other code hcases
      by_cases hrule : kind = .posixClass ∧ other = rule.name
      · obtain ⟨rfl, rfl⟩ := hrule
        rw [h rule (by simp), h' rule (by simp)]
        exact gives_congr (hreads code)
      · apply hother kind other code
        rcases hcases with hkind | hnames
        · exact .inl hkind
        · by_cases hkind : kind = .posixClass
          · exact .inr fun hmem =>
              (List.mem_cons.1 hmem).elim (fun heq => hrule ⟨hkind, heq⟩) hnames
          · exact .inl hkind

end ClassRule

namespace PropertyMap

open ClassRule (InOrder names)

variable {m grown : PropertyMap} {rule : ClassRule} {rules : List ClassRule}
  {earlier : List String}

theorem addClasses_cons_eq_ok (h : m.addClasses (rule :: rules) = (grown, .ok ())) :
    ∃ next, m.addClass rule = .ok next ∧ next.addClasses rules = (grown, .ok ()) := by
  rw [addClasses] at h
  cases hrule : m.addClass rule with
  | error error => simp [hrule] at h
  | ok next =>
    rw [hrule] at h
    exact ⟨next, rfl, h⟩

/-- A class that is added joins the classes that are there. -/
theorem has_earlier_addClass (h : m.addClass rule = .ok grown)
    (hearlier : ∀ name ∈ earlier, m.Has .posixClass name) :
    ∀ name ∈ rule.name :: earlier, grown.Has .posixClass name := by
  obtain ⟨-, hhas, -⟩ := addClass_eq_ok h
  intro name hname
  rcases List.mem_cons.1 hname with rfl | hname
  · exact (hhas _ _).2 (.inr ⟨rfl, rfl⟩)
  · exact (hhas _ _).2 (.inl (hearlier name hname))

/-- The classes are added to the names, and nothing is taken away. -/
theorem has_addClasses (h : m.addClasses rules = (grown, .ok ())) {kind : PropertyKind}
    {name : String} :
    grown.Has kind name ↔ m.Has kind name ∨ (kind = .posixClass ∧ name ∈ names rules) := by
  induction rules generalizing m with
  | nil =>
    obtain rfl : m = grown := congrArg Prod.fst h
    simp [names]
  | cons rule rules ih =>
    obtain ⟨next, hrule, hrest⟩ := addClasses_cons_eq_ok h
    obtain ⟨-, hhas, -⟩ := addClass_eq_ok hrule
    rw [ih hrest, hhas, or_assoc]
    simp [names, ← and_or_left]

/-- The names of the classes were free. -/
theorem not_has_of_addClasses (h : m.addClasses rules = (grown, .ok ())) :
    ∀ name ∈ names rules, ∀ kind, ¬ m.Has kind name := by
  induction rules generalizing m with
  | nil => simp [names]
  | cons rule rules ih =>
    obtain ⟨next, hrule, hrest⟩ := addClasses_cons_eq_ok h
    obtain ⟨hnew, hhas, -⟩ := addClass_eq_ok hrule
    intro name hname kind hkind
    rcases List.mem_cons.1 hname with rfl | hname
    · exact hnew kind hkind
    · exact ih hrest name hname kind ((hhas kind name).2 (.inl hkind))

/-- Adding classes leaves all names alone but those of the classes. -/
theorem find?_addClasses_of_not_mem (m : PropertyMap) {name : String} (hname : name ∉ names rules) :
    (m.addClasses rules).1.find? name = m.find? name := by
  induction rules generalizing m with
  | nil => rfl
  | cons rule rules ih =>
    rw [names, List.map_cons, List.mem_cons, not_or] at hname
    rw [addClasses]
    cases hrule : m.addClass rule with
    | error error => rfl
    | ok next =>
      obtain ⟨q, -, -, rfl⟩ := addClass_eq_ok_iff.1 hrule
      exact (ih _ hname.2).trans (by rw [NameMap.find?_insert, if_neg hname.1])

theorem holds_addClasses_of_not_mem (h : m.addClasses rules = (grown, .ok ())) {name : String}
    (hname : name ∉ names rules) {kind : PropertyKind} {code : Code} :
    grown.Holds kind name code ↔ m.Holds kind name code := by
  have hfind := find?_addClasses_of_not_mem m hname
  rw [h] at hfind
  unfold Holds
  rw [hfind]

/-- What a rule in order reads is the same over the final map. -/
theorem reads_addClasses (h : m.addClasses rules = (grown, .ok ()))
    (hearlier : ∀ name ∈ earlier, m.Has .posixClass name) {term : ClassTerm}
    (hterm : term.ReadsBefore earlier (names rules)) {code : Code} :
    term.Reads grown.Holds code ↔ term.Reads m.Holds code := by
  cases term with
  | property name =>
    exact exists_congr fun kind => holds_addClasses_of_not_mem h hterm
  | posixClass name =>
    have hname : name ∉ names rules := fun hname =>
      not_has_of_addClasses h name hname .posixClass (hearlier name hterm)
    exact holds_addClasses_of_not_mem h hname
  | range r => rfl
  | codes cs => rfl

/-- Each class has the codes that its rule gives over the final map. -/
theorem gives_addClasses (hrules : InOrder earlier rules)
    (hearlier : ∀ name ∈ earlier, m.Has .posixClass name)
    (h : m.addClasses rules = (grown, .ok ())) :
    ∀ rule ∈ rules, ∀ code,
      grown.Holds .posixClass rule.name code ↔ rule.Gives grown.Holds code := by
  induction rules generalizing m earlier with
  | nil => simp
  | cons rule rules ih =>
    obtain ⟨hname, hterms, hlater⟩ := hrules
    obtain ⟨next, hrule, hrest⟩ := addClasses_cons_eq_ok h
    intro other hother code
    rcases List.mem_cons.1 hother with rfl | hother
    · obtain ⟨hnew, -, hholds⟩ := addClass_eq_ok hrule
      have hreads : ∀ term ∈ other.terms,
          (term.Reads grown.Holds code ↔ term.Reads m.Holds code) := fun term hterm =>
        reads_addClasses h hearlier (hterms term hterm)
      have hnone : ¬ m.Holds .posixClass other.name code := fun hm => hnew _ hm.has
      rw [holds_addClasses_of_not_mem hrest hname, hholds]
      simp only [hnone, true_and, false_or]
      exact (ClassRule.gives_congr hreads).symm
    · exact ih hlater (has_earlier_addClass hrule hearlier) hrest other hother code

/-- Adding classes fails at the first that cannot be added to the map with those before it. -/
theorem exists_append_of_addClasses_eq_error {e : BuildError}
    (h : m.addClasses rules = (grown, .error e)) :
    ∃ before rule after, rules = before ++ rule :: after ∧
      m.addClasses before = (grown, .ok ()) ∧ grown.addClass rule = .error e := by
  induction rules generalizing m with
  | nil => cases h
  | cons rule rules ih =>
    rw [addClasses] at h
    cases hrule : m.addClass rule with
    | error error =>
      rw [hrule] at h
      obtain ⟨rfl, herror⟩ := Prod.mk.inj h
      obtain rfl := Except.error.inj herror
      exact ⟨[], rule, rules, rfl, rfl, hrule⟩
    | ok next =>
      rw [hrule] at h
      obtain ⟨before, other, after, rfl, hadded, he⟩ := ih h
      refine ⟨rule :: before, other, after, rfl, ?_, he⟩
      rw [addClasses, hrule]
      exact hadded

/-- Adding classes in order stops only at a name that was taken before the first of them, and then
the classes before it are there. -/
theorem addClasses_stops {e : BuildError} (hrules : InOrder earlier rules)
    (hearlier : ∀ name ∈ earlier, m.Has .posixClass name)
    (h : m.addClasses rules = (grown, .error e)) :
    ∃ before rule after, rules = before ++ rule :: after ∧
      m.addClasses before = (grown, .ok ()) ∧ e = .duplicateProperty rule.name ∧
      ∃ kind, m.Has kind rule.name := by
  obtain ⟨before, rule, after, rfl, hadded, he⟩ := exists_append_of_addClasses_eq_error h
  obtain ⟨hnew, hreads⟩ := hrules.reads_of_append
  have hthere : ∀ name, .posixClass name ∈ rule.terms → grown.Has .posixClass name := by
    intro name hname
    refine (has_addClasses hadded).2 ?_
    exact (hreads name hname).imp (hearlier name) fun hmem => ⟨rfl, hmem⟩
  obtain ⟨p, hp⟩ := ClassRule.exists_evaluate (ClassTerm.forall_resolvable_iff.2 hthere)
  rcases addClass_eq_error he with hevaluate | ⟨-, rfl, kind, hkind⟩
  · rw [hp] at hevaluate
    cases hevaluate
  · have hm : m.Has kind rule.name :=
      ((has_addClasses hadded).1 hkind).resolve_right fun hclass => hnew hclass.2
    exact ⟨before, rule, after, rfl, hadded, rfl, kind, hm⟩

/-- Adding classes in order fails only at a name that was taken before the first of them. -/
theorem addClasses_eq_error {e : BuildError} (hrules : InOrder earlier rules)
    (hearlier : ∀ name ∈ earlier, m.Has .posixClass name)
    (h : (m.addClasses rules).2 = .error e) :
    ∃ rule ∈ rules, e = .duplicateProperty rule.name ∧ ∃ kind, m.Has kind rule.name := by
  obtain ⟨before, rule, after, rfl, -, he, hkind⟩ :=
    addClasses_stops hrules hearlier (Prod.ext rfl h)
  exact ⟨rule, by simp, he, hkind⟩

end PropertyMap

end UcdTables
