/-!
# White space

The characters of the Unicode property `White_Space`, and their removal at the two ends of a text.
A text is read as its list of characters.

* `trimEnd_eq_nil_iff`: nothing is left of a text exactly when every character is blank.
* `mem_trim_iff`: trimming leaves every character that is not blank.
-/

namespace UcdTables.Text

/-- A character of the Unicode property `White_Space`. -/
def isBlank (c : Char) : Bool :=
  let n := c.toNat
  (0x09 ≤ n && n ≤ 0x0D) || n == 0x20 || n == 0x85 || n == 0xA0 || n == 0x1680 ||
    (0x2000 ≤ n && n ≤ 0x200A) || n == 0x2028 || n == 0x2029 || n == 0x202F || n == 0x205F ||
    n == 0x3000

/-- The text without the blanks at its start. -/
def trimStart (s : List Char) : List Char := s.dropWhile isBlank

/-- The text without the blanks at its end. -/
def trimEnd (s : List Char) : List Char := (s.reverse.dropWhile isBlank).reverse

/-- The text without the blanks at its two ends. -/
def trim (s : List Char) : List Char := trimEnd (trimStart s)

private theorem dropWhile_eq_nil {p : Char → Bool} {s : List Char} :
    s.dropWhile p = [] ↔ ∀ c ∈ s, p c = true := by
  induction s with
  | nil => simp
  | cons c s ih => by_cases h : p c = true <;> simp [h, ih]

theorem trimEnd_eq_nil_iff {s : List Char} : trimEnd s = [] ↔ ∀ c ∈ s, isBlank c = true := by
  rw [trimEnd, List.reverse_eq_nil_iff, dropWhile_eq_nil]
  simp only [List.mem_reverse]

private theorem mem_dropWhile_iff {p : Char → Bool} {s : List Char} {c : Char} (hc : p c = false) :
    c ∈ s.dropWhile p ↔ c ∈ s := by
  induction s with
  | nil => rfl
  | cons d s ih =>
    by_cases hd : p d = true
    · have hne : c ≠ d := by
        rintro rfl
        exact absurd hd (by simp [hc])
      simp [hd, ih, hne]
    · simp [hd]

/-- A character that is not blank stays. -/
theorem mem_trim_iff {s : List Char} {c : Char} (hc : isBlank c = false) : c ∈ trim s ↔ c ∈ s := by
  simp only [trim, trimEnd, trimStart, List.mem_reverse, mem_dropWhile_iff hc]

end UcdTables.Text
