import Mathlib.Data.List.TakeWhile
import UcdTables.Proofs.Text.Fields
import UcdTables.Text.Blank

/-!
# Blanks at the ends of a text

Trimming takes away what is blank at the two ends, and nothing else.

* `trim_append_of_blank`, `trim_append_of_blank_left`: blanks at an end leave no trace.
* `trim_fst_cut_append`: nor do blanks behind what stands before a separator.
* `trim_eq_self`: a text without blanks stays as it is.
* `exists_eq_trimEnd_append`: a text is what trimming leaves of it, and blanks.
-/

namespace UcdTables.Text

variable {s t : List Char}

/-- All characters of a text are blank. -/
def AllBlank (s : List Char) : Prop := ∀ c ∈ s, isBlank c = true

theorem allBlank_return : AllBlank ['\r'] := trimEnd_eq_nil_iff.1 rfl

@[simp] theorem trimEnd_nil : trimEnd [] = [] := rfl

/-- Blanks at the end leave no trace. -/
theorem trimEnd_append_of_blank (ht : AllBlank t) : trimEnd (s ++ t) = trimEnd s := by
  have hreverse : ∀ c ∈ t.reverse, isBlank c = true := fun c hc => ht c (List.mem_reverse.1 hc)
  rw [trimEnd, trimEnd, List.reverse_append, List.dropWhile_append_of_pos hreverse]

theorem trimEnd_of_blank (ht : AllBlank t) : trimEnd t = [] := trimEnd_eq_nil_iff.2 ht

theorem trim_append_of_blank (ht : AllBlank t) : trim (s ++ t) = trim s := by
  rw [trim, trim, trimStart, trimStart, List.dropWhile_append]
  split
  next hblank =>
    have hrest : AllBlank (t.dropWhile isBlank) := fun c hc =>
      ht c ((List.dropWhile_sublist isBlank).subset hc)
    rw [List.isEmpty_iff.1 hblank, trimEnd_nil, trimEnd_of_blank hrest]
  next => exact trimEnd_append_of_blank ht

/-- Blanks at the start leave no trace. -/
theorem trim_append_of_blank_left (ht : AllBlank t) : trim (t ++ s) = trim s := by
  rw [trim, trim, trimStart, trimStart, List.dropWhile_append_of_pos ht]

theorem trim_eq_self (hs : ∀ c ∈ s, isBlank c = false) : trim s = s := by
  have hkeep : ∀ {l : List Char}, (∀ c ∈ l, isBlank c = false) → l.dropWhile isBlank = l := by
    intro l hl
    cases l with
    | nil => rfl
    | cons c l => rw [List.dropWhile_cons_of_neg (by simp [hl c])]
  rw [trim, trimStart, trimEnd, hkeep hs, hkeep (by simpa using hs), List.reverse_reverse]

/-- Blanks at the end of a text leave no trace in what stands before a separator. -/
theorem trim_fst_cut_append {sep : Char} (hsep : isBlank sep = false) (s : List Char)
    (ht : AllBlank t) : trim (cut sep (s ++ t)).1 = trim (cut sep s).1 := by
  have hfree : sep ∉ t := fun hmem => by simp [ht sep hmem] at hsep
  rw [fst_cut_append]
  split
  next => rfl
  next hs =>
    rw [cut_eq_none_iff.2 ⟨rfl, hfree⟩, cut_eq_none_iff.2 ⟨rfl, hs⟩]
    exact trim_append_of_blank ht

/-- A text is what trimming its end leaves of it, and blanks. -/
theorem exists_eq_trimEnd_append (s : List Char) : ∃ t, AllBlank t ∧ s = trimEnd s ++ t := by
  refine ⟨(s.reverse.takeWhile isBlank).reverse, ?_, ?_⟩
  · intro c hc
    exact List.mem_takeWhile_imp (List.mem_reverse.1 hc)
  · rw [trimEnd, ← List.reverse_append, List.takeWhile_append_dropWhile, List.reverse_reverse]

end UcdTables.Text
