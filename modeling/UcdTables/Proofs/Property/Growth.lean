import UcdTables.Proofs.Class.InOrder
import UcdTables.Proofs.Code.Ascending

/-!
# A map only grows

Whatever is done to a map of properties, and whether it succeeds or stops midway, names stay with
their kinds and sets lose no code. A class is computed once, and then it is a set like any other:
what is merged into the sets that it was computed from does not reach it.

* `extends_apply`, `extends_run`: one operation, and any number of them.
* `find?_run_of_eq_some`: a set is altered only by a merge that names it.
* `invariant_run`: the maps that operations lead to.
-/

namespace UcdTables

namespace PropertyMap

variable {m grown next : PropertyMap} {name : String} {p : Property}

/-- Each name of a map is in the other, with the same kind and at least the same codes. -/
def Extends (m grown : PropertyMap) : Prop :=
  ∀ name p, m.find? name = some p →
    ∃ q, grown.find? name = some q ∧ q.kind = p.kind ∧ ∀ code, code ∈ p → code ∈ q

theorem Extends.refl (m : PropertyMap) : m.Extends m := fun _ p hp => ⟨p, hp, rfl, fun _ => id⟩

theorem Extends.trans (h : m.Extends next) (h' : next.Extends grown) : m.Extends grown := by
  intro name p hp
  obtain ⟨q, hq, hkind, hcodes⟩ := h name p hp
  obtain ⟨r, hr, hkind', hcodes'⟩ := h' name q hq
  exact ⟨r, hr, hkind'.trans hkind, fun code hcode => hcodes' code (hcodes code hcode)⟩

theorem Extends.of_find?_eq (h : ∀ name p, m.find? name = some p → grown.find? name = some p) :
    m.Extends grown :=
  fun name p hp => ⟨p, h name p hp, rfl, fun _ => id⟩

/-! ## Merging -/

theorem extends_mergeEntry {e : DraftEntry} (h : m.mergeEntry e = .ok grown) :
    m.Extends grown := by
  obtain ⟨hkind, rfl⟩ := mergeEntry_eq_ok_iff.1 h
  intro name p hp
  rw [NameMap.find?_insert]
  by_cases hname : name = e.name
  · subst hname
    refine ⟨m.joined e, if_pos rfl, (hkind p.kind ⟨p, hp, rfl⟩).symm, fun code hcode => ?_⟩
    exact mem_joined.2 (.inr ⟨p, hp, hcode⟩)
  · exact ⟨p, by rw [if_neg hname, hp], rfl, fun _ => id⟩

/-- A merge takes nothing away, even if it stops midway. -/
theorem extends_mergeEntries (m : PropertyMap) (es : List DraftEntry) :
    m.Extends (m.mergeEntries es).1 := by
  induction es generalizing m with
  | nil => exact .refl m
  | cons e es ih =>
    rw [mergeEntries]
    cases he : m.mergeEntry e with
    | error error => exact .refl m
    | ok next => exact (extends_mergeEntry he).trans (ih next)

/-- A merge leaves the names alone that it does not mention. -/
theorem find?_mergeEntries_of_not_mem (m : PropertyMap) {es : List DraftEntry}
    (hname : name ∉ es.map (·.name)) : (m.mergeEntries es).1.find? name = m.find? name := by
  induction es generalizing m with
  | nil => rfl
  | cons e es ih =>
    rw [List.map_cons, List.mem_cons, not_or] at hname
    rw [mergeEntries]
    cases he : m.mergeEntry e with
    | error error => rfl
    | ok next =>
      obtain ⟨-, rfl⟩ := mergeEntry_eq_ok_iff.1 he
      rw [ih _ hname.2, NameMap.find?_insert, if_neg hname.1]

/-! ## Adding classes -/

/-- No class takes the place of a set. -/
theorem find?_addClass_of_eq_some {rule : ClassRule} (h : m.addClass rule = .ok grown)
    (hp : m.find? name = some p) : grown.find? name = some p := by
  obtain ⟨q, -, hfree, rfl⟩ := addClass_eq_ok_iff.1 h
  have hname : name ≠ rule.name := by
    rintro rfl
    rw [hfree] at hp
    cases hp
  rw [NameMap.find?_insert, if_neg hname, hp]

/-- Adding classes leaves the sets alone that are there, even if it stops midway. -/
theorem find?_addClasses_of_eq_some (rules : List ClassRule) (hp : m.find? name = some p) :
    (m.addClasses rules).1.find? name = some p := by
  induction rules generalizing m with
  | nil => exact hp
  | cons rule rules ih =>
    rw [addClasses]
    cases hrule : m.addClass rule with
    | error error => exact hp
    | ok next => exact ih (find?_addClass_of_eq_some hrule hp)

/-- Rules are evaluated over the map with the classes of the rules before them. -/
theorem addClasses_append {before : List ClassRule} (h : m.addClasses before = (next, .ok ()))
    (rules : List ClassRule) : m.addClasses (before ++ rules) = next.addClasses rules := by
  induction before generalizing m with
  | nil =>
    obtain rfl : m = next := congrArg Prod.fst h
    rfl
  | cons rule before ih =>
    obtain ⟨after, hrule, hrest⟩ := addClasses_cons_eq_ok h
    rw [List.cons_append, addClasses, hrule]
    exact ih hrest

/-- Among other rules, a class is what its rule gives over the map with the classes before it. -/
theorem find?_addClasses_append {before after : List ClassRule} {rule : ClassRule}
    (h : m.addClasses before = (next, .ok ())) (hp : rule.evaluate next = .ok p)
    (hfree : next.find? rule.name = none) :
    (m.addClasses (before ++ rule :: after)).1.find? rule.name = some p := by
  have hrule : next.addClass rule = .ok (next.insert rule.name p) :=
    addClass_eq_ok_iff.2 ⟨p, hp, hfree, rfl⟩
  rw [addClasses_append h, addClasses, hrule]
  exact find?_addClasses_of_eq_some after (by rw [NameMap.find?_insert, if_pos rfl])

/-! ## Operations one after the other -/

/-- What can be done to a map of properties. -/
inductive Operation where
  /-- The entries of a draft are merged, in any order. -/
  | merge (d : Draft) (order : List DraftEntry) (enumerates : order.Perm d.entries)
  /-- The property of a list of codes is inserted. -/
  | insert (name : String) (kind : PropertyKind) (codes : List Code)
  /-- The classes of a list of rules are added. -/
  | addClasses (rules : List ClassRule)

namespace Operation

/-- The names that an operation mentions: those of the entries, of the property, of the classes. -/
def names : Operation → List String
  | merge _ order _ => order.map (·.name)
  | insert name _ _ => [name]
  | addClasses rules => ClassRule.names rules

/-- The names that an operation merges codes into. -/
def mergedNames : Operation → List String
  | merge _ order _ => order.map (·.name)
  | insert _ _ _ | addClasses _ => []

end Operation

/-- The map after an operation, which may succeed or stop midway. -/
def apply (m : PropertyMap) : Operation → PropertyMap
  | .merge _ order _ => (m.mergeEntries order).1
  | .insert name kind codes =>
    match m.insertNew name (.ofCodes kind codes) with
    | .ok grown => grown
    | .error _ => m
  | .addClasses rules => (m.addClasses rules).1

/-- The map after operations one after the other. -/
def run (m : PropertyMap) (ops : List Operation) : PropertyMap := ops.foldl apply m

theorem find?_apply_insert (m : PropertyMap) (other : String) (kind : PropertyKind)
    (codes : List Code) :
    (m.apply (.insert other kind codes)).find? name =
      if name = other ∧ m.find? other = none then some (.ofCodes kind codes) else m.find? name := by
  rw [apply]
  cases hinsert : m.insertNew other (.ofCodes kind codes) with
  | error e =>
    obtain ⟨-, taken, hkind⟩ := insertNew_eq_error hinsert
    have hheld : ¬ m.find? other = none := fun hfree => find?_eq_none_iff.1 hfree taken hkind
    rw [if_neg (fun h => hheld h.2)]
  | ok grown =>
    obtain ⟨hfree, rfl⟩ := insertNew_eq_ok_iff.1 hinsert
    simp [NameMap.find?_insert, find?_eq_none_iff.2 hfree]

/-- A set is altered only by a merge that names it. -/
theorem find?_apply_of_eq_some {op : Operation} (hname : name ∉ op.mergedNames)
    (hp : m.find? name = some p) : (m.apply op).find? name = some p := by
  cases op with
  | merge d order _ => exact (find?_mergeEntries_of_not_mem m hname).trans hp
  | insert other kind codes =>
    have htaken : ¬ (name = other ∧ m.find? other = none) := by
      rintro ⟨rfl, hfree⟩
      rw [hfree] at hp
      cases hp
    rw [find?_apply_insert, if_neg htaken, hp]
  | addClasses rules => exact find?_addClasses_of_eq_some rules hp

/-- A name that an operation does not mention keeps its set, or stays free. -/
theorem find?_apply_of_not_mem (m : PropertyMap) {op : Operation} (hname : name ∉ op.names) :
    (m.apply op).find? name = m.find? name := by
  cases op with
  | merge d order _ => exact find?_mergeEntries_of_not_mem m hname
  | insert other kind codes =>
    have hne : name ≠ other := fun h => hname (List.mem_singleton.2 h)
    rw [find?_apply_insert, if_neg (fun h => hne h.1)]
  | addClasses rules => exact find?_addClasses_of_not_mem m hname

theorem extends_apply (m : PropertyMap) (op : Operation) : m.Extends (m.apply op) := by
  cases op with
  | merge d order _ => exact extends_mergeEntries m order
  | insert other kind codes =>
    exact .of_find?_eq fun name p hp => find?_apply_of_eq_some List.not_mem_nil hp
  | addClasses rules => exact .of_find?_eq fun name p hp => find?_addClasses_of_eq_some rules hp

/-- Operations one after the other take nothing away. -/
theorem extends_run (m : PropertyMap) (ops : List Operation) : m.Extends (m.run ops) := by
  induction ops generalizing m with
  | nil => exact .refl m
  | cons op ops ih => exact (extends_apply m op).trans (ih (m.apply op))

/-- A set stays as it is until a merge names it. -/
theorem find?_run_of_eq_some {ops : List Operation} (hname : ∀ op ∈ ops, name ∉ op.mergedNames)
    (hp : m.find? name = some p) : (m.run ops).find? name = some p := by
  induction ops generalizing m with
  | nil => exact hp
  | cons op ops ih =>
    obtain ⟨hop, hops⟩ := List.forall_mem_cons.1 hname
    exact ih hops (find?_apply_of_eq_some hop hp)

/-- What an operation does to a map, and what it leaves alone. -/
structure Step (m : PropertyMap) (op : Operation) (grown : PropertyMap) : Prop where
  /-- No name disappears, no kind changes and no set loses a code. -/
  kept : m.Extends grown
  /-- A name that is not mentioned keeps its set, or stays free. -/
  unmentioned : ∀ name, name ∉ op.names → grown.find? name = m.find? name
  /-- Only a merge alters a set, and only one that it names. -/
  unmerged : ∀ name p, name ∉ op.mergedNames → m.find? name = some p → grown.find? name = some p

/-- What holds of a map, and of what is done to it next. -/
structure Invariant (m : PropertyMap) : Prop where
  /-- The codes of each set ascend. -/
  ascending : ∀ name p, m.find? name = some p → p.codes.codes.Pairwise (· < ·)
  /-- Each operation only adds, also if it stops midway. -/
  step : ∀ op, Step m op (m.apply op)
  /-- So do any number of operations. -/
  later : ∀ ops, m.Extends (m.run ops)
  /-- Once it is added, a class stays what its rule gave over the map at that time, as long as
  no merge names the class itself. -/
  classes : ∀ before rule after next p ops, m.addClasses before = (next, .ok ()) →
    rule.evaluate next = .ok p → next.find? rule.name = none →
    (∀ op ∈ ops, rule.name ∉ op.mergedNames) →
    (run (m.apply (.addClasses (before ++ rule :: after))) ops).find? rule.name = some p

/-- The sets of a map that operations lead to ascend, and whatever is done next only adds. -/
theorem invariant_run (ops : List Operation) : Invariant (run .empty ops) := by
  -- the invariants of a set are part of its type, so nothing is asked of the way to this map
  generalize run .empty ops = m
  refine Invariant.mk (fun _ p _ => p.codes.pairwise_codes) ?step (extends_run m) ?classes
  case step =>
    intro op
    exact ⟨extends_apply m op, fun name => find?_apply_of_not_mem m,
      fun name p => find?_apply_of_eq_some⟩
  case classes =>
    intro before rule after next p ops hbefore hp hfree hops
    exact find?_run_of_eq_some hops (find?_addClasses_append hbefore hp hfree)

/-- The letters gain a code after the class of all letters is added, and the class does not. -/
theorem invariant_run_letters :
    let first := Draft.empty.push .majorCategory "L" 0x41
    let second := Draft.empty.push .majorCategory "L" 0x42
    let rule : ClassRule := ⟨"Alpha", [.property "L"], []⟩
    let m := run .empty [.merge first first.entries (.refl _)]
    let last := run (m.apply (.addClasses [rule])) [.merge second second.entries (.refl _)]
    ∃ p, rule.evaluate m = .ok p ∧ last.find? "Alpha" = some p ∧
      last.Holds .majorCategory "L" 0x42 ∧ 0x42 ∉ p := by
  intro first second rule m last
  obtain ⟨p, hp⟩ : ∃ p, rule.evaluate m = .ok p := ⟨_, rfl⟩
  have hlast : last.find? "Alpha" = some p :=
    (invariant_run _).classes [] rule [] m p _ rfl hp rfl (by decide)
  have hgrown : (m.apply (.addClasses [rule])).mergeEntries second.entries = (last, .ok ()) :=
    Prod.ext rfl (by decide +kernel)
  have hL : last.Holds .majorCategory "L" 0x42 :=
    (holds_mergeEntries hgrown).2 (.inr (by decide))
  refine ⟨p, hp, hlast, hL, fun hcode => ?_⟩
  obtain ⟨⟨term, hterm, hreads⟩, -⟩ := ((ClassRule.mem_of_evaluate hp).2 _).1 hcode
  obtain rfl := List.mem_singleton.1 hterm
  obtain ⟨kind, hkind⟩ := hreads
  have hfirst : mergeEntries .empty first.entries = (m, .ok ()) := rfl
  rcases (holds_mergeEntries hfirst).1 hkind with hempty | ⟨e, he, -, -, hmem⟩
  · exact not_has_empty _ _ hempty.has
  · obtain rfl := List.mem_singleton.1 he
    revert hmem
    decide

end PropertyMap

end UcdTables
