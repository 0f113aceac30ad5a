import UcdTables.Property.Map

/-!
# Class rules

A class is put together from other sets: the codes of some terms, less the codes of others. The
rules of a list are evaluated in order, and each class is in the map before the next rule is
evaluated.

* `ClassRule.evaluate` gives the class of one rule; the map is only read.
* `PropertyMap.addClasses` evaluates a list of rules. When one fails, the classes before it stay in
  the map; so it gives a map beside its outcome.
-/

namespace UcdTables

/-- A term of a class rule. -/
inductive ClassTerm where
  /-- The property of a name, whatever its kind; no codes if there is no such property. -/
  | property (name : String)
  /-- The class of a name, which has to be there. -/
  | posixClass (name : String)
  /-- The codes of a range. -/
  | range (range : CodeRange)
  /-- The codes of a list. -/
  | codes (codes : List Code)
  deriving DecidableEq

/-- The rule of a class: the codes of some term of `union` and of no term of `minus`. -/
structure ClassRule where
  name : String
  union : List ClassTerm
  minus : List ClassTerm
  deriving DecidableEq

/-- The property that a term reads and the map does not have. -/
def ClassTerm.absent? (m : PropertyMap) : ClassTerm → Option String
  | property name => if m.contains name then none else some name
  | posixClass _ | range _ | codes _ => none

namespace ClassRule

/-- The codes of a term of the rule. -/
def resolve (rule : ClassRule) (m : PropertyMap) : ClassTerm → Except BuildError CodeSet
  | .property name =>
    match m.find? name with
    | some p => .ok p.codes
    | none => .ok .empty
  | .posixClass name =>
    match m.find? name with
    | some p =>
      if p.kind = .posixClass then .ok p.codes else .error (.unresolvedClass rule.name name)
    | none => .error (.unresolvedClass rule.name name)
  | .range r => .ok (.ofRanges [r])
  | .codes cs => .ok (.ofCodes cs)

/-- The codes of all terms of a list. -/
def resolveAll (rule : ClassRule) (m : PropertyMap) (terms : List ClassTerm) :
    Except BuildError CodeSet := do
  let sets ← terms.mapM (rule.resolve m)
  pure (.unions sets)

/-- The class of the rule. If nothing is taken away, it is done once the union is there. -/
def evaluate (rule : ClassRule) (m : PropertyMap) : Except BuildError Property := do
  let union ← rule.resolveAll m rule.union
  if rule.minus = [] then pure ⟨.posixClass, union⟩
  else
    let minus ← rule.resolveAll m rule.minus
    pure ⟨.posixClass, union.difference minus⟩

/-- The properties that an evaluation reads and the map does not have, up to the first term that
fails. -/
def absent (rule : ClassRule) (m : PropertyMap) : List String :=
  ((rule.union ++ rule.minus).takeWhile (rule.resolve m · |>.isOk)).filterMap (·.absent? m)

end ClassRule

namespace PropertyMap

/-- The map with the class of a rule. -/
def addClass (m : PropertyMap) (rule : ClassRule) : Except BuildError PropertyMap := do
  let p ← rule.evaluate m
  m.insertNew rule.name p

/-- The map with the classes of the rules, evaluated in order up to the first that fails. -/
def addClasses (m : PropertyMap) : List ClassRule → PropertyMap × Except BuildError Unit
  | [] => (m, .ok ())
  | rule :: rules =>
    match m.addClass rule with
    | .ok grown => addClasses grown rules
    | .error error => (m, .error error)

end PropertyMap

end UcdTables
