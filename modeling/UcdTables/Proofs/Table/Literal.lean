import Mathlib.Data.Nat.Digits.Lemmas
import UcdTables.Proofs.Database.CodeNumeral
import UcdTables.Proofs.Table.Text

/-!
# Codes in the tables

A code is written as a numeral of at least four digits, without zeros in front of any further
digits. A number has one such numeral. It has as many digits as the number, but at least four.

* `SpellsWord.length_eq`: the number of digits.
* `SpellsWord.unique`: a number has one numeral.
* `Code.literal_writesCodes`: what is written for each code, and how it is read back.
-/

namespace UcdTables

namespace Text

variable {case : LetterCase} {digits digits' : List Char} {n : Nat}

/-- The characters of one alphabet that spell a number are told from their places in it. -/
theorem Spells.exists_places (h : Spells [case] digits n) :
    ∃ places : List Nat, digits = places.map (hexChar case) ∧ (∀ d ∈ places, d < 16) ∧
      n = Nat.ofDigits 16 places.reverse := by
  obtain ⟨places, hplaces, hn⟩ := h
  have hdigits : digits = places.map (hexChar case) ∧ ∀ d ∈ places, d < 16 := by
    clear hn
    induction hplaces with
    | nil => simp
    | cons hplace _ ih =>
      obtain ⟨_, hcase, hplace⟩ := hplace
      obtain rfl := List.mem_singleton.1 hcase
      obtain ⟨hd, rfl⟩ := place_of_getElem? hplace
      exact ⟨by rw [List.map_cons, ← ih.1], List.forall_mem_cons.2 ⟨hd, ih.2⟩⟩
  exact ⟨places, hdigits.1, hdigits.2, hn⟩

/-- A numeral has four digits or as many as its number, if these are more. -/
theorem SpellsWord.length_eq (h : SpellsWord case digits n) :
    digits.length = max 4 (Nat.digits 16 n).length := by
  obtain ⟨places, rfl, hplaces, rfl⟩ := h.spells.exists_places
  have hfour := h.four_le
  have hhead := h.head
  rw [List.length_map] at hfour hhead ⊢
  have hreverse : ∀ d ∈ places.reverse, d < 16 := by simpa using hplaces
  rcases Nat.eq_or_lt_of_le hfour with hshort | hlong
  · have hlt : Nat.ofDigits 16 places.reverse < 16 ^ 4 := by
      have := Nat.ofDigits_lt_base_pow_length (by decide) hreverse
      rwa [List.length_reverse, ← hshort] at this
    have hle := (Nat.digits_length_le_iff (by decide) _).2 hlt
    omega
  · -- no zero stands in front, so the digits of the number are those of the numeral
    have hlast : ∀ hne : places.reverse ≠ [], places.reverse.getLast hne ≠ 0 := by
      intro hne hzero
      cases places with
      | nil => exact hne rfl
      | cons d places =>
        obtain rfl : d = 0 := by simpa using hzero
        have hdigit : hexChar case 0 = '0' := by cases case <;> rfl
        exact hhead hlong (by rw [List.map_cons, hdigit, List.head?_cons])
    rw [Nat.digits_ofDigits 16 (by decide) _ hreverse hlast, List.length_reverse]
    omega

/-- A number has one numeral. -/
theorem SpellsWord.unique (h : SpellsWord case digits n) (h' : SpellsWord case digits' n) :
    digits = digits' := by
  have hlength : digits.length = digits'.length := h.length_eq.trans h'.length_eq.symm
  obtain ⟨places, rfl, hplaces, hn⟩ := h.spells.exists_places
  obtain ⟨places', rfl, hplaces', hn'⟩ := h'.spells.exists_places
  have hreverse : places.reverse = places'.reverse := by
    apply Nat.ofDigits_inj_of_len_eq (by decide : 1 < 16)
    · simpa using hlength
    · simpa using hplaces
    · simpa using hplaces'
    · exact hn.symm.trans hn'
  rw [List.reverse_injective hreverse]

end Text

namespace Code

/-- How codes are written in the tables. -/
structure WritesCodes (write : Code → String) : Prop where
  /-- A code is written as `0x` and lower-case digits that spell it, at least four of them, and
  without a zero in front if there are more. -/
  numeral : ∀ code, ∃ digits, write code = "0x" ++ String.ofList digits ∧
    Text.SpellsWord .lower digits code.toNat
  /-- There is no other such text. -/
  unique : ∀ code digits, Text.SpellsWord .lower digits code.toNat →
    write code = "0x" ++ String.ofList digits
  /-- Different codes are written differently. -/
  distinct : ∀ code code', code ≠ code' → write code ≠ write code'
  /-- The texts of the codes up to `0xFFFF` are equally long. -/
  short : ∀ code, code ≤ 0xFFFF → (write code).length = 6
  /-- Those of the other codes have all digits of the code. -/
  long : ∀ code, 0xFFFF < code →
    (write code).length = 2 + (Nat.digits 16 code.toNat).length
  /-- A code of the code space is read back from what is written after `0x`. -/
  readBack : ∀ (code : CodePoint) line,
    Database.readCode ((write code).toList.drop 2) line = .ok code

theorem length_literal (code : Code) :
    code.literal.length = 2 + max 4 (Nat.digits 16 code.toNat).length := by
  rw [← String.length_toList, toList_literal, List.length_cons, List.length_cons,
    (Text.spellsWord_hexWord .lower code.toNat).length_eq]
  omega

/-- What is written for each code, and how it is read back. -/
theorem literal_writesCodes : WritesCodes literal := by
  refine WritesCodes.mk (fun code => ⟨_, rfl, Text.spellsWord_hexWord .lower code.toNat⟩) ?unique
    ?distinct ?short ?long ?readBack
  case unique =>
    intro code digits hdigits
    rw [literal, (Text.spellsWord_hexWord .lower code.toNat).unique hdigits]
  case distinct =>
    intro code code' hne heq
    exact hne (literal_inj.1 heq)
  case short =>
    intro code hcode
    have hlt : code.toNat < 16 ^ 4 := Nat.lt_succ_of_le (UInt32.le_iff_toNat_le.1 hcode)
    have hdigits := (Nat.digits_length_le_iff (by decide) _).2 hlt
    rw [length_literal]
    omega
  case long =>
    intro code hcode
    have hdigits : 4 < (Nat.digits 16 code.toNat).length :=
      (Nat.lt_digits_length_iff (by decide) _).2 (UInt32.lt_iff_toNat_lt.1 hcode)
    rw [length_literal]
    omega
  case readBack =>
    intro code line
    have hspells := (Text.spellsWord_hexWord .lower code.val.toNat).spells
    have heither : Text.Spells Text.eitherCase _ _ := hspells.mono (by decide)
    rw [toList_literal, Database.readCode_eq_ok_iff, Database.Writes]
    change Text.Numeral (Text.trim (Text.hexWord .lower code.val.toNat)) code.val.toNat
    rw [hspells.trim_eq]
    exact .unsigned (Text.hexWord_ne_nil .lower _) (Text.digitsOf_iff_spells.2 heither)

end Code

end UcdTables
