/-!
# Fields and lines

A text is cut at a separator into the part before it and the part after it. Cutting again and
again gives the fields of a line and the lines of a text.

* `cut_eq_some_iff`, `cut_eq_none_iff`: the part before the cut is free of the separator, and
  nothing is lost.
* `lines`: a line ends at a line feed, and a carriage return directly before it belongs to the line
  end. What follows the last line feed is a line unless it is empty.
-/

namespace UcdTables.Text

/-- The text before the first `sep`, and the text after it where there is one. -/
def cut (sep : Char) (s : List Char) : List Char × Option (List Char) :=
  match s.dropWhile (· != sep) with
  | [] => (s, none)
  | _ :: rest => (s.takeWhile (· != sep), some rest)

@[simp] theorem cut_nil (sep : Char) : cut sep [] = ([], none) := rfl

@[simp] theorem cut_self (sep : Char) (s : List Char) : cut sep (sep :: s) = ([], some s) := by
  simp [cut]

theorem cut_cons_of_ne {sep c : Char} (h : c ≠ sep) (s : List Char) :
    cut sep (c :: s) = (c :: (cut sep s).1, (cut sep s).2) := by
  simp only [cut, List.dropWhile_cons, List.takeWhile_cons, bne_iff_ne, ne_eq, h,
    not_false_eq_true, if_true]
  split <;> rfl

theorem cut_eq_some_iff {sep : Char} {s a b : List Char} :
    cut sep s = (a, some b) ↔ s = a ++ sep :: b ∧ sep ∉ a := by
  induction s generalizing a with
  | nil => simp
  | cons c s ih =>
    by_cases h : c = sep
    · subst h
      rcases a with _ | ⟨d, a⟩
      · simp
      · simp only [cut_self, Prod.mk.injEq, List.cons_append, List.cons.injEq, List.mem_cons]
        constructor
        · rintro ⟨h, -⟩; simp at h
        · rintro ⟨⟨rfl, -⟩, h⟩; simp at h
    · rw [cut_cons_of_ne h]
      rcases a with _ | ⟨d, a⟩
      · simp [h]
      · have := @ih a
        simp only [Prod.ext_iff] at this
        simp only [Prod.mk.injEq, List.cons.injEq, List.cons_append, List.mem_cons, and_assoc, this]
        constructor
        · rintro ⟨rfl, rfl, hs⟩; exact ⟨rfl, rfl, by simp [Ne.symm h, hs]⟩
        · rintro ⟨rfl, rfl, hs⟩; exact ⟨rfl, rfl, fun hm => hs (Or.inr hm)⟩

theorem cut_eq_none_iff {sep : Char} {s a : List Char} :
    cut sep s = (a, none) ↔ s = a ∧ sep ∉ s := by
  induction s generalizing a with
  | nil => simp [eq_comm]
  | cons c s ih =>
    by_cases h : c = sep
    · subst h; simp
    · rw [cut_cons_of_ne h]
      rcases a with _ | ⟨d, a⟩
      · simp
      · have := @ih a
        simp only [Prod.ext_iff] at this
        simp [this, Ne.symm h, and_assoc]

/-- A text that is free of the separator can be told from what follows the separator. -/
theorem append_sep_inj {sep : Char} {a a' b b' : List Char} (h : sep ∉ a) (h' : sep ∉ a') :
    a ++ sep :: b = a' ++ sep :: b' ↔ a = a' ∧ b = b' := by
  constructor
  · intro heq
    have hcut : cut sep (a ++ sep :: b) = (a, some b) := cut_eq_some_iff.2 ⟨rfl, h⟩
    rw [heq, cut_eq_some_iff.2 ⟨rfl, h'⟩] at hcut
    simpa [eq_comm] using hcut
  · rintro ⟨rfl, rfl⟩
    rfl

theorem length_lt_of_cut {sep : Char} {s a b : List Char} (h : cut sep s = (a, some b)) :
    b.length < s.length := by
  obtain ⟨rfl, -⟩ := cut_eq_some_iff.1 h
  simp only [List.length_append, List.length_cons]
  omega

/-- The pieces of a text between the separators, of which there is always one more than there are
separators. -/
def fields (sep : Char) (s : List Char) : List (List Char) :=
  match _h : cut sep s with
  | (field, none) => [field]
  | (field, some rest) => field :: fields sep rest
termination_by s.length
decreasing_by exact length_lt_of_cut (by assumption)

/-- Pieces that are each followed by a separator are the fields of the text, but for the last. -/
theorem fields_flatMap {sep : Char} {pieces : List (List Char)} (h : ∀ p ∈ pieces, sep ∉ p) :
    fields sep (pieces.flatMap (· ++ [sep])) = pieces ++ [[]] := by
  induction pieces with
  | nil => simp [fields]
  | cons p pieces ih =>
    obtain ⟨hp, hpieces⟩ := List.forall_mem_cons.1 h
    have hcut : cut sep (p ++ sep :: pieces.flatMap (· ++ [sep])) =
        (p, some (pieces.flatMap (· ++ [sep]))) := cut_eq_some_iff.2 ⟨rfl, hp⟩
    have htext : (p :: pieces).flatMap (· ++ [sep]) =
        p ++ sep :: pieces.flatMap (· ++ [sep]) := by simp
    rw [htext, fields]
    split
    next hnone => simp [hcut] at hnone
    next hsome =>
      simp only [hcut, Prod.mk.injEq, Option.some.injEq] at hsome
      obtain ⟨rfl, rfl⟩ := hsome
      rw [ih hpieces, List.cons_append]

/-- The text before the first two dots in a row, and the text after them where there are such. -/
def cutDots : List Char → Option (List Char × List Char)
  | [] => none
  | '.' :: '.' :: rest => some ([], rest)
  | c :: rest => (cutDots rest).map fun (before, after) => (c :: before, after)

/-- A line without the carriage return at its end. -/
def dropReturn (line : List Char) : List Char :=
  if line.getLast? = some '\r' then line.dropLast else line

/-- The lines of a text. -/
def lines (s : List Char) : List (List Char) :=
  match _h : cut '\n' s with
  | ([], none) => []
  | (line, none) => [line]
  | (line, some rest) => dropReturn line :: lines rest
termination_by s.length
decreasing_by exact length_lt_of_cut (by assumption)

/-- The lines of a text, each with its number, the first of which is 1. -/
def numberedLines (s : List Char) : List (List Char × Nat) := (lines s).zipIdx 1

end UcdTables.Text
