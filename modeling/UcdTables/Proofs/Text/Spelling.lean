import UcdTables.Proofs.Database.Numeral
import UcdTables.Proofs.Text.Hex

/-!
# Numbers spelled in base 16

A number is spelled with the characters of two alphabets, where each character counts for its place
in its alphabet, the most significant first.

* `hexDigit?_eq_some_iff`: the characters that are digits.
* `spells_hexDigits`, `spellsWord_hexWord`: what is written for a number spells the number.
* `head?_hexDigits_ne`: without zeros in front.
-/

namespace UcdTables.Text

variable {case : LetterCase} {cases : List LetterCase} {c : Char} {digits : List Char} {d n : Nat}

/-- The digits of base 16, in ascending order. -/
def LetterCase.alphabet : LetterCase → List Char
  | .lower => "0123456789abcdef".toList
  | .upper => "0123456789ABCDEF".toList

/-- Both alphabets. -/
def eitherCase : List LetterCase := [.lower, .upper]

/-- Characters of some of the alphabets spell a number, the most significant first. -/
def Spells (cases : List LetterCase) (digits : List Char) (n : Nat) : Prop :=
  ∃ values, List.Forall₂ (fun c d => ∃ case ∈ cases, case.alphabet[d]? = some c) digits values ∧
    n = Nat.ofDigits 16 values.reverse

/-! ## The characters that are digits -/

theorem length_alphabet (case : LetterCase) : case.alphabet.length = 16 := by
  cases case <;> rfl

theorem alphabet_getElem? (case : LetterCase) (hd : d < 16) :
    case.alphabet[d]? = some (hexChar case d) := by
  have hall : ∀ d < 16, case.alphabet[d]? = some (hexChar case d) := by
    cases case <;> decide
  exact hall d hd

/-- The places of an alphabet are the numbers below 16. -/
theorem place_of_getElem? (h : case.alphabet[d]? = some c) : d < 16 ∧ c = hexChar case d := by
  have hd : d < 16 := length_alphabet case ▸ (List.getElem?_eq_some_iff.1 h).1
  rw [alphabet_getElem? case hd, Option.some.injEq] at h
  exact ⟨hd, h.symm⟩

private theorem toNat_lt_of_hexDigit? (h : hexDigit? c = some d) : c.toNat < 128 := by
  unfold hexDigit? at h
  split_ifs at h with hc hc hc
  all_goals
    have hle : c.toNat ≤ _ := Char.le_def.1 hc.2
    exact Nat.lt_of_le_of_lt hle (by decide)

/-- A digit is a character of one of the alphabets, and its value is its place there. -/
theorem hexDigit?_eq_some_iff :
    hexDigit? c = some d ↔ ∃ case ∈ eitherCase, case.alphabet[d]? = some c := by
  constructor
  · intro h
    have hall : ∀ n < 128, ∀ d ∈ hexDigit? (Char.ofNat n),
        ∃ case ∈ eitherCase, case.alphabet[d]? = some (Char.ofNat n) := by decide +kernel
    have hc := hall c.toNat (toNat_lt_of_hexDigit? h)
    rw [Char.ofNat_toNat] at hc
    exact hc d h
  · rintro ⟨case, -, hplace⟩
    obtain ⟨hd, rfl⟩ := place_of_getElem? hplace
    exact hexDigit?_hexChar case hd

theorem digitsOf_iff_spells : DigitsOf digits n ↔ Spells eitherCase digits n := by
  simp only [DigitsOf, Spells, hexDigit?_eq_some_iff]

theorem Spells.mem_alphabet (h : Spells cases digits n) (hc : c ∈ digits) :
    ∃ case ∈ cases, c ∈ case.alphabet := by
  obtain ⟨values, hvalues, -⟩ := h
  induction hvalues with
  | nil => cases hc
  | cons hplace _ ih =>
    rcases List.mem_cons.1 hc with rfl | hc
    · obtain ⟨case, hcase, hplace⟩ := hplace
      exact ⟨case, hcase, List.mem_of_getElem? hplace⟩
    · exact ih hc

/-! ## What is written for a number -/

theorem Spells.mono {cases' : List LetterCase} (h : Spells cases digits n) (hsub : cases ⊆ cases') :
    Spells cases' digits n := by
  obtain ⟨values, hvalues, hn⟩ := h
  refine ⟨values, hvalues.imp ?_, hn⟩
  rintro c d ⟨case, hcase, hplace⟩
  exact ⟨case, hsub hcase, hplace⟩

/-- A digit more is the least significant. -/
theorem Spells.concat (h : Spells cases digits n) (hcase : case ∈ cases) (hd : d < 16) :
    Spells cases (digits ++ [hexChar case d]) (16 * n + d) := by
  obtain ⟨values, hvalues, rfl⟩ := h
  refine ⟨values ++ [d], ?_, ?_⟩
  · exact List.rel_append hvalues (.cons ⟨case, hcase, alphabet_getElem? case hd⟩ .nil)
  · rw [List.reverse_concat, Nat.ofDigits_cons, Nat.add_comm]

/-- Zeros in front do not count. -/
theorem Spells.zeros (h : Spells cases digits n) (hcases : cases ≠ []) (zeros : Nat) :
    Spells cases (List.replicate zeros '0' ++ digits) n := by
  obtain ⟨case, hcase⟩ := List.exists_mem_of_ne_nil cases hcases
  induction zeros with
  | zero => exact h
  | succ zeros ih =>
    obtain ⟨values, hvalues, rfl⟩ := ih
    have hzero : case.alphabet[0]? = some '0' := by cases case <;> rfl
    refine ⟨0 :: values, ?_, ?_⟩
    · rw [List.replicate_succ, List.cons_append]
      exact .cons ⟨case, hcase, hzero⟩ hvalues
    · rw [Nat.ofDigits_reverse_cons, Nat.mul_zero, Nat.add_zero]

theorem spells_nil (cases : List LetterCase) : Spells cases [] 0 := ⟨[], .nil, rfl⟩

theorem spells_hexDigits (case : LetterCase) (n : Nat) : Spells [case] (hexDigits case n) n := by
  fun_induction hexDigits case n with
  | case1 n hsmall =>
    simpa using (spells_nil [case]).concat (List.mem_singleton_self case) hsmall
  | case2 n hlarge ih =>
    have hlast := ih.concat (List.mem_singleton_self case) (Nat.mod_lt n (by decide : 0 < 16))
    rwa [Nat.div_add_mod] at hlast

theorem hexDigits_ne_nil (case : LetterCase) (n : Nat) : hexDigits case n ≠ [] := by
  unfold hexDigits
  split_ifs <;> simp

/-- A number other than zero is written without zeros in front. -/
theorem head?_hexDigits_ne (hn : n ≠ 0) : (hexDigits case n).head? ≠ some '0' := by
  fun_induction hexDigits case n with
  | case1 n hsmall =>
    have hall : ∀ d < 16, d ≠ 0 → [hexChar case d].head? ≠ some '0' := by
      cases case <;> decide
    exact hall n hsmall hn
  | case2 n hlarge ih =>
    have hhead := ih (by omega)
    rwa [List.head?_append_of_ne_nil _ (hexDigits_ne_nil case _)]

/-- Digits of one alphabet spell a number, at least four of them, and without a zero in front if
there are more. -/
structure SpellsWord (case : LetterCase) (digits : List Char) (n : Nat) : Prop where
  four_le : 4 ≤ digits.length
  spells : Spells [case] digits n
  head : 4 < digits.length → digits.head? ≠ some '0'

theorem spellsWord_hexWord (case : LetterCase) (n : Nat) : SpellsWord case (hexWord case n) n := by
  have hlength : (hexWord case n).length = max 4 (hexDigits case n).length := List.length_leftpad
  refine SpellsWord.mk (by omega) ((spells_hexDigits case n).zeros (by simp) _) ?head
  intro hlong
  have hfull : 4 - (hexDigits case n).length = 0 := by omega
  rw [hexWord, List.leftpad, hfull, List.replicate_zero, List.nil_append]
  apply head?_hexDigits_ne
  rintro rfl
  have hone : (hexDigits case 0).length = 1 := by simp [hexDigits]
  omega

end UcdTables.Text
