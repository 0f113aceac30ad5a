import UcdTables.Proofs.Class.InOrder
import UcdTables.Proofs.Code.Ascending

/-!
# Codes of the POSIX classes

A class holds codes of the code space only. Some classes hold a code whatever the other properties
hold, and the others may be empty.

* `PropertyMap.bounded_addClasses`: no class holds a code beyond the code space.
* `mem_possiblyEmptyClasses`: the name of a class that turns out empty is one of a list.
-/

namespace UcdTables

namespace ClassTerm

/-- A term that writes out codes writes out codes of the code space. -/
def Bounded : ClassTerm → Prop
  | property _ | posixClass _ => True
  | range r => r.last ≤ lastCode
  | codes cs => ∀ code ∈ cs, code ≤ lastCode

instance : DecidablePred Bounded
  | property _ | posixClass _ => inferInstanceAs (Decidable True)
  | range r => inferInstanceAs (Decidable (r.last ≤ lastCode))
  -- over the list: there are too many codes to try them all
  | codes cs => List.decidableBAll (· ≤ lastCode) cs

theorem Reads.le_lastCode {term : ClassTerm} {m : PropertyMap} {code : Code} (hterm : term.Bounded)
    (hm : m.Bounded) (h : term.Reads m.Holds code) : code ≤ lastCode := by
  cases term with
  | property name =>
    obtain ⟨kind, hcode⟩ := h
    exact hm kind name code hcode
  | posixClass name => exact hm .posixClass name code h
  | range r => exact UInt32.le_trans h.2 hterm
  | codes cs => exact hterm code h

/-- A code that a term reads whatever the map holds. -/
def certain? : ClassTerm → Option Code
  | property _ | posixClass _ => none
  | range r => if r.Inhabited then some r.first else none
  | codes cs => cs.head?

theorem reads_of_certain? {held : PropertyKind → String → Code → Prop} {term : ClassTerm}
    {code : Code} (h : term.certain? = some code) : term.Reads held code := by
  cases term with
  | property name => cases h
  | posixClass name => cases h
  | range r =>
    by_cases hr : r.Inhabited
    · simp only [certain?, hr, if_true, Option.some.injEq] at h
      subst h
      exact CodeRange.first_mem hr.toNat_le
    · simp [certain?, hr] at h
  | codes cs => exact List.mem_of_mem_head? h

end ClassTerm

/-! ## Codes that are always there -/

/-- A code that a rule gives whatever the map holds. -/
def ClassRule.certain? (rule : ClassRule) : Option Code :=
  if rule.minus = [] then rule.union.findSome? ClassTerm.certain? else none

theorem ClassRule.gives_of_certain? {held : PropertyKind → String → Code → Prop}
    {rule : ClassRule} {code : Code} (h : rule.certain? = some code) : rule.Gives held code := by
  unfold certain? at h
  by_cases hminus : rule.minus = []
  · rw [if_pos hminus] at h
    obtain ⟨term, hterm, hcode⟩ := List.exists_of_findSome?_eq_some h
    exact ⟨⟨term, hterm, ClassTerm.reads_of_certain? hcode⟩, by simp [hminus]⟩
  · rw [if_neg hminus] at h
    cases h

/-- The classes that are empty if the categories that they read are. -/
def possiblyEmptyClasses : List String :=
  ["Alnum", "Alpha", "Assigned", "Cntrl", "Digit", "Graph", "LC", "Lower", "Punct", "Upper", "Word"]

/-- The name of a POSIX class that turns out empty. -/
theorem mem_possiblyEmptyClasses {held : PropertyKind → String → Code → Prop}
    (hgives : ∀ rule ∈ posixRules, ∀ code,
      held .posixClass rule.name code ↔ rule.Gives held code)
    {rule : ClassRule} (hrule : rule ∈ posixRules)
    (hempty : ∀ code, ¬ held .posixClass rule.name code) : rule.name ∈ possiblyEmptyClasses := by
  have hcases : ∀ rule ∈ posixRules, rule.name ∈ possiblyEmptyClasses ∨
      rule.certain?.isSome = true ∨
      (.posixClass "Space" ∈ rule.union ∧ rule.minus = []) := by decide
  have hspace : ∃ rule ∈ posixRules, rule.name = "Space" ∧ rule.certain?.isSome = true := by decide
  rcases hcases rule hrule with hname | hcertain | ⟨hterm, hminus⟩
  · exact hname
  · obtain ⟨code, hcode⟩ := Option.isSome_iff_exists.1 hcertain
    exact absurd ((hgives rule hrule code).2 (ClassRule.gives_of_certain? hcode)) (hempty code)
  · obtain ⟨space, hmem, hname, hcertain⟩ := hspace
    obtain ⟨code, hcode⟩ := Option.isSome_iff_exists.1 hcertain
    have hread : held .posixClass "Space" code :=
      hname ▸ (hgives space hmem code).2 (ClassRule.gives_of_certain? hcode)
    exact absurd ((hgives rule hrule code).2 ⟨⟨_, hterm, hread⟩, by simp [hminus]⟩) (hempty code)

/-! ## Codes of the code space -/

theorem bounded_posixRules : ∀ rule ∈ posixRules, ∀ term ∈ rule.union, term.Bounded := by decide

/-- Whatever becomes of the classes, they bring no code beyond the code space. -/
theorem PropertyMap.bounded_addClasses {m : PropertyMap} {rules : List ClassRule} (hm : m.Bounded)
    (hrules : ∀ rule ∈ rules, ∀ term ∈ rule.union, term.Bounded) :
    (m.addClasses rules).1.Bounded := by
  induction rules generalizing m with
  | nil => exact hm
  | cons rule rules ih =>
    rw [addClasses]
    cases hrule : m.addClass rule with
    | error error => exact hm
    | ok next =>
      obtain ⟨-, -, hholds⟩ := addClass_eq_ok hrule
      refine ih (fun kind name code hcode => ?_) fun other hother => hrules other (by simp [hother])
      rcases (hholds kind name code).1 hcode with hcode | ⟨-, -, ⟨term, hterm, hread⟩, -⟩
      · exact hm kind name code hcode
      · exact hread.le_lastCode (hrules rule (by simp) term hterm) hm

end UcdTables
