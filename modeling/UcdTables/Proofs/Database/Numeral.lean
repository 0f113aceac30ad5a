import Mathlib.Data.List.Forall2
import Mathlib.Data.Nat.Digits.Defs
import Mathlib.Tactic.Positivity
import Mathlib.Tactic.Ring
import UcdTables.Database.Numeral

/-!
# How a code is written

A code is written as its value in base 16. Reading keeps the value of the digits passed and stops
where it would no longer fit in 32 bits; no digit after that brings it back, so that what is read
is the value of the numeral.

* `readHex_eq_some_iff`: the words that are read are the numerals of words.
* `readCode_eq_ok_iff`: the codes that are read are the numerals of the code space.
-/

namespace UcdTables

namespace Text

variable {s cs : List Char} {acc n : Nat} {word : UInt32}

/-- The digits of a number in base 16, of either case and the most significant first. -/
def DigitsOf (cs : List Char) (n : Nat) : Prop :=
  ∃ ds, List.Forall₂ (fun c d => hexDigit? c = some d) cs ds ∧ n = Nat.ofDigits 16 ds.reverse

/-- A hexadecimal numeral: one or more digits, after one optional plus sign. -/
inductive Numeral : List Char → Nat → Prop where
  | unsigned {cs : List Char} {n : Nat} (hne : cs ≠ []) (h : DigitsOf cs n) : Numeral cs n
  | signed {cs : List Char} {n : Nat} (hne : cs ≠ []) (h : DigitsOf cs n) : Numeral ('+' :: cs) n

/-- The number of the digits `ds` after the leading digit `acc`, which may be any number. -/
private def valueFrom (acc : Nat) (ds : List Nat) : Nat := Nat.ofDigits 16 (ds.reverse ++ [acc])

private theorem valueFrom_eq (acc : Nat) (ds : List Nat) :
    valueFrom acc ds = Nat.ofDigits 16 ds.reverse + 16 ^ ds.length * acc := by
  rw [valueFrom, Nat.ofDigits_append, Nat.ofDigits_singleton, List.length_reverse]

private theorem valueFrom_cons (acc d : Nat) (ds : List Nat) :
    valueFrom acc (d :: ds) = valueFrom (16 * acc + d) ds := by
  rw [valueFrom_eq, valueFrom_eq, List.reverse_cons, Nat.ofDigits_append, Nat.ofDigits_singleton,
    List.length_reverse, List.length_cons]
  ring

private theorem le_valueFrom (acc : Nat) (ds : List Nat) : acc ≤ valueFrom acc ds := by
  rw [valueFrom_eq]
  exact Nat.le_add_left_of_le (Nat.le_mul_of_pos_left acc (by positivity))

/-- Digits are gathered to their number, if it fits in 32 bits: a value that does not fit is still
too large after the digits that follow. -/
private theorem gatherHex_eq_some_iff (hacc : acc < UInt32.size) :
    gatherHex acc cs = some n ↔ n < UInt32.size ∧
      ∃ ds, List.Forall₂ (fun c d => hexDigit? c = some d) cs ds ∧ n = valueFrom acc ds := by
  induction cs generalizing acc with
  | nil =>
    simp only [gatherHex, Option.some.injEq, List.forall₂_nil_left_iff, exists_eq_left,
      valueFrom, List.reverse_nil, List.nil_append, Nat.ofDigits_singleton]
    constructor
    · rintro rfl
      exact ⟨hacc, rfl⟩
    · rintro ⟨-, rfl⟩
      rfl
  | cons c cs ih =>
    rw [gatherHex]
    cases hdigit : hexDigit? c with
    | none => simp [List.forall₂_cons_left_iff, hdigit]
    | some d =>
      have hdigits : (∃ ds, List.Forall₂ (fun c d => hexDigit? c = some d) (c :: cs) ds ∧
          n = valueFrom acc ds) ↔
            ∃ ds, List.Forall₂ (fun c d => hexDigit? c = some d) cs ds ∧
              n = valueFrom (16 * acc + d) ds := by
        simp only [← valueFrom_cons, List.forall₂_cons_left_iff, hdigit, Option.some.injEq]
        constructor
        · rintro ⟨_, ⟨_, ds, rfl, hds, rfl⟩, hn⟩
          exact ⟨ds, hds, hn⟩
        · rintro ⟨ds, hds, hn⟩
          exact ⟨d :: ds, ⟨d, ds, rfl, hds, rfl⟩, hn⟩
      rw [hdigits, Option.bind_eq_bind, Option.bind_some]
      by_cases hsize : 16 * acc + d < UInt32.size
      · rw [if_pos hsize, ih hsize]
      · rw [if_neg hsize]
        refine iff_of_false nofun ?_
        rintro ⟨hn, ds, -, rfl⟩
        exact hsize (Nat.lt_of_le_of_lt (le_valueFrom _ ds) hn)

theorem gatherHex_zero_eq_some_iff :
    gatherHex 0 cs = some n ↔ n < UInt32.size ∧ DigitsOf cs n := by
  rw [gatherHex_eq_some_iff (by decide)]
  simp only [DigitsOf, valueFrom_eq, Nat.mul_zero, Nat.add_zero]

/-- Each character is a digit. -/
theorem DigitsOf.isSome_of_mem (h : DigitsOf cs n) {c : Char} (hc : c ∈ cs) :
    (hexDigit? c).isSome := by
  obtain ⟨ds, hds, -⟩ := h
  induction hds with
  | nil => cases hc
  | cons hdigit _ ih =>
    rcases List.mem_cons.1 hc with rfl | hc
    · rw [hdigit, Option.isSome_some]
    · exact ih hc

/-- The digits of a numeral are what is left of it without a plus sign. -/
theorem numeral_iff : Numeral s n ↔ unsigned s ≠ [] ∧ DigitsOf (unsigned s) n := by
  constructor
  · intro h
    cases h with
    | signed hne h => exact ⟨hne, h⟩
    | unsigned hne h =>
      have hsign : unsigned s = s := by
        unfold unsigned
        split
        · exact absurd (h.isSome_of_mem (List.mem_cons_self ..)) (by decide)
        · rfl
      rw [hsign]
      exact ⟨hne, h⟩
  · unfold unsigned
    split
    · rintro ⟨hne, h⟩
      exact .signed hne h
    · rintro ⟨hne, h⟩
      exact .unsigned hne h

/-- The words that are read are the numerals of words. -/
theorem readHex_eq_some_iff : readHex s = some word ↔ Numeral s word.toNat := by
  rw [numeral_iff, readHex]
  split
  next hnil => simp [hnil]
  next hne =>
    rw [Option.map_eq_some_iff, and_iff_right hne]
    constructor
    · rintro ⟨n, hgather, rfl⟩
      obtain ⟨hn, hdigits⟩ := gatherHex_zero_eq_some_iff.1 hgather
      rwa [UInt32.toNat_ofNat_of_lt' hn]
    · intro hdigits
      exact ⟨word.toNat, gatherHex_zero_eq_some_iff.2 ⟨word.toNat_lt, hdigits⟩,
        UInt32.ofNat_toNat⟩

/-- The characters of a numeral are digits and plus signs. -/
theorem Numeral.not_mem (h : Numeral s n) {c : Char} (hsign : c ≠ '+')
    (hdigit : hexDigit? c = none) : c ∉ s := by
  have hfree : ∀ {cs}, DigitsOf cs n → c ∉ cs := by
    intro cs hcs hc
    have hsome := hcs.isSome_of_mem hc
    rw [hdigit] at hsome
    cases hsome
  cases h with
  | unsigned _ h => exact hfree h
  | signed _ h => simp [hsign, hfree h]

end Text

namespace Database

variable {source : List Char} {line : Nat} {code : CodePoint}

/-- A text writes a code: it is a numeral of the code, but for blanks around it. -/
def Writes (source : List Char) (code : CodePoint) : Prop :=
  Text.Numeral (Text.trim source) code.val.toNat

/-- The codes that are read are the numerals of the code space. -/
theorem readCode_eq_ok_iff : readCode source line = .ok code ↔ Writes source code := by
  rw [Writes, ← Text.readHex_eq_some_iff, readCode]
  obtain ⟨word, hword⟩ := code
  cases hread : Text.readHex (Text.trim source) with
  | none => simp
  | some read =>
    by_cases hread' : read ≤ lastCode
    · simp [hread', Subtype.mk.injEq]
    · have hne : read ≠ word := by
        rintro rfl
        exact hread' hword
      simp [hread', hne]

/-- A text that writes a code has no dots. -/
theorem Writes.dot_not_mem (h : Writes source code) : '.' ∉ source := by
  rw [← Text.mem_trim_iff (c := '.') rfl]
  exact h.not_mem (by decide) rfl

end Database

end UcdTables
