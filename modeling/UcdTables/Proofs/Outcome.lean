import Mathlib.Data.List.Forall2

/-!
# Outcomes of steps in a row

How a computation that may fail came out, read off its steps: it gives a value if every step gives
one, and its error is the error of the first step that fails.
-/

namespace UcdTables

variable {ε α β : Type}

theorem bind_eq_ok_iff {x : Except ε α} {f : α → Except ε β} {b : β} :
    x >>= f = .ok b ↔ ∃ a, x = .ok a ∧ f a = .ok b := by
  cases x with
  | error e => simp [bind, Except.bind]
  | ok a => simp [bind, Except.bind]

theorem bind_eq_error_iff {x : Except ε α} {f : α → Except ε β} {e : ε} :
    x >>= f = .error e ↔ x = .error e ∨ ∃ a, x = .ok a ∧ f a = .error e := by
  cases x with
  | error e' => simp [bind, Except.bind]
  | ok a => simp [bind, Except.bind]

/-- What is made of a value cannot fail. -/
theorem bind_pure_eq_error_iff {x : Except ε α} {f : α → β} {e : ε} :
    (x >>= fun a => pure (f a)) = .error e ↔ x = .error e := by
  cases x with
  | error e' => simp [bind, Except.bind]
  | ok a => simp [bind, Except.bind, pure, Except.pure]

theorem eq_ok_of_forall_ne_error {x : Except ε α} (h : ∀ e, x ≠ .error e) : ∃ a, x = .ok a := by
  cases x with
  | error e => exact absurd rfl (h e)
  | ok a => exact ⟨a, rfl⟩

/-! ## A value that is left, whatever the outcome -/

/-- If the steps succeed, what they leave is their value. -/
theorem map_fst_eq_ok_iff {x : α × Except ε Unit} {a : α} :
    (x.2.map fun _ => x.1) = .ok a ↔ x = (a, .ok ()) := by
  obtain ⟨left, outcome⟩ := x
  cases outcome <;> simp [Except.map]

theorem map_fst_eq_error_iff {x : α × Except ε Unit} {e : ε} :
    (x.2.map fun _ => x.1) = .error e ↔ x.2 = .error e := by
  obtain ⟨left, outcome⟩ := x
  cases outcome <;> simp [Except.map]

/-! ## One step for each member of a list -/

/-- The values of the steps, one by one. -/
theorem forall₂_of_mapM_eq_ok {f : α → Except ε β} {as : List α} {bs : List β}
    (h : as.mapM f = .ok bs) : List.Forall₂ (fun a b => f a = .ok b) as bs := by
  induction as generalizing bs with
  | nil =>
    obtain rfl : [] = bs := Except.ok.inj h
    exact .nil
  | cons a as ih =>
    rw [List.mapM_cons] at h
    obtain ⟨b, hb, h⟩ := bind_eq_ok_iff.1 h
    obtain ⟨bs', hbs', h⟩ := bind_eq_ok_iff.1 h
    obtain rfl : b :: bs' = bs := Except.ok.inj h
    exact .cons hb (ih hbs')

/-- Steps give values if and only if each step gives its own. -/
theorem mapM_eq_ok_iff {f : α → Except ε β} {as : List α} {bs : List β} :
    as.mapM f = .ok bs ↔ List.Forall₂ (fun a b => f a = .ok b) as bs := by
  constructor
  · exact forall₂_of_mapM_eq_ok
  · intro h
    induction h with
    | nil => rfl
    | cons hb _ ih => rw [List.mapM_cons, hb, ih]; rfl

theorem exists_of_mapM_eq_ok {f : α → Except ε β} {as : List α} {bs : List β}
    (h : as.mapM f = .ok bs) {a : α} (ha : a ∈ as) : ∃ b, f a = .ok b := by
  have hsteps := forall₂_of_mapM_eq_ok h
  clear h
  induction hsteps with
  | nil => cases ha
  | cons hb _ ih =>
    rcases List.mem_cons.1 ha with rfl | ha
    · exact ⟨_, hb⟩
    · exact ih ha

/-- Steps that do not all succeed fail at the first that fails. -/
theorem exists_append_of_mapM_eq_error {f : α → Except ε β} {as : List α} {e : ε}
    (h : as.mapM f = .error e) :
    ∃ before a after, as = before ++ a :: after ∧ (∀ b ∈ before, ∃ c, f b = .ok c) ∧
      f a = .error e := by
  induction as with
  | nil => cases h
  | cons a as ih =>
    rw [List.mapM_cons] at h
    rcases bind_eq_error_iff.1 h with ha | ⟨b, hb, h⟩
    · exact ⟨[], a, as, rfl, by simp, ha⟩
    · obtain ⟨before, a', after, rfl, hbefore, he⟩ := ih (bind_pure_eq_error_iff.1 h)
      exact ⟨a :: before, a', after, rfl, List.forall_mem_cons.2 ⟨⟨b, hb⟩, hbefore⟩, he⟩

/-- Steps fail with an error if and only if it is that of the first step that fails. -/
theorem mapM_eq_error_iff {f : α → Except ε β} {as : List α} {e : ε} :
    as.mapM f = .error e ↔ ∃ before a after, as = before ++ a :: after ∧
      (∀ b ∈ before, ∃ c, f b = .ok c) ∧ f a = .error e := by
  constructor
  · exact exists_append_of_mapM_eq_error
  · rintro ⟨before, a, after, rfl, hbefore, ha⟩
    induction before with
    | nil => rw [List.nil_append, List.mapM_cons, ha]; rfl
    | cons b before ih =>
      obtain ⟨⟨c, hc⟩, hbefore⟩ := List.forall_mem_cons.1 hbefore
      rw [List.cons_append, List.mapM_cons, hc, ih hbefore]
      rfl

theorem exists_of_mapM_eq_error {f : α → Except ε β} {as : List α} {e : ε}
    (h : as.mapM f = .error e) : ∃ a ∈ as, f a = .error e := by
  obtain ⟨before, a, after, rfl, -, he⟩ := exists_append_of_mapM_eq_error h
  exact ⟨a, by simp, he⟩

end UcdTables
