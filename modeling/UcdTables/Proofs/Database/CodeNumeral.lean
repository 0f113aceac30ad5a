import UcdTables.Proofs.Text.Blank
import UcdTables.Proofs.Text.Spelling

/-!
# The codes that texts write

What becomes of every text that stands where a code is expected. The numerals are told from the
digits that they are made of and from the number that these spell, however many they are: only
numerals of codes are accepted, and what does not fit in a word is not taken for one that does.

* `readHex_eq_none_iff`: the texts that are no numerals of words.
* `readCode_eq_error_iff`: the two errors.
* `readCode_verdict`: what becomes of every text, and the texts that a code is read back from.
-/

namespace UcdTables

namespace Text

variable {s : List Char} {n : Nat}

/-- One optional plus sign and the digits of a number, of either case. -/
def SignedDigits (s : List Char) (n : Nat) : Prop :=
  ∃ sign digits, s = sign ++ digits ∧ (sign = [] ∨ sign = ['+']) ∧ digits ≠ [] ∧
    Spells eitherCase digits n

theorem numeral_iff_signedDigits : Numeral s n ↔ SignedDigits s n := by
  constructor
  · intro h
    cases h with
    | unsigned hne h => exact ⟨[], s, rfl, .inl rfl, hne, digitsOf_iff_spells.1 h⟩
    | @signed digits _ hne h => exact ⟨['+'], digits, rfl, .inr rfl, hne, digitsOf_iff_spells.1 h⟩
  · rintro ⟨sign, digits, rfl, rfl | rfl, hne, h⟩
    · exact .unsigned hne (digitsOf_iff_spells.2 h)
    · exact .signed hne (digitsOf_iff_spells.2 h)

/-- No digit is blank. -/
theorem Spells.trim_eq {cases : List LetterCase} (h : Spells cases s n) : trim s = s := by
  apply trim_eq_self
  intro c hc
  obtain ⟨case, -, hmem⟩ := h.mem_alphabet hc
  have hall : case.alphabet.all (!isBlank ·) = true := by cases case <;> decide
  simpa using List.all_eq_true.1 hall c hmem

/-- A text that is not read is no numeral of a word. -/
theorem readHex_eq_none_iff : readHex s = none ↔ ∀ n, Numeral s n → UInt32.size ≤ n := by
  constructor
  · intro hnone n hn
    apply Nat.le_of_not_lt
    intro hsize
    have hread : readHex s = some (UInt32.ofNat n) := by
      rw [readHex_eq_some_iff, UInt32.toNat_ofNat_of_lt' hsize]
      exact hn
    rw [hnone] at hread
    cases hread
  · intro hlarge
    cases hread : readHex s with
    | none => rfl
    | some word =>
      have hle := hlarge _ (readHex_eq_some_iff.1 hread)
      exact absurd word.toNat_lt (Nat.not_lt.2 hle)

end Text

namespace Database

variable {source : List Char} {line : Nat} {code : CodePoint} {e : BuildError}

/-- A text that is refused is a numeral of a word beyond the code space, or no numeral of a
word. -/
theorem readCode_eq_error_iff : readCode source line = .error e ↔
    (∃ word : Code, Text.Numeral (Text.trim source) word.toNat ∧ lastCode < word ∧
      e = .malformedRecord line (.outOfRange word)) ∨
    ((∀ n, Text.Numeral (Text.trim source) n → UInt32.size ≤ n) ∧
      e = .malformedRecord line (.badCode (String.ofList (Text.trim source)))) := by
  rw [readCode]
  simp only [← Text.readHex_eq_some_iff, ← Text.readHex_eq_none_iff]
  cases hread : Text.readHex (Text.trim source) with
  | none => simp [eq_comm]
  | some word =>
    by_cases hword : word ≤ lastCode
    · simp [hword, UInt32.not_lt.2 hword]
    · simp [hword, UInt32.not_le.1 hword, eq_comm]

private theorem exists_word {n : Nat} (h : n ≤ 0xFFFFFFFF) : ∃ word : Code, word.toNat = n :=
  ⟨UInt32.ofNat n, UInt32.toNat_ofNat_of_lt' (Nat.lt_succ_of_le h)⟩

/-- The numerals of codes, words and larger numbers tell what becomes of a text. -/
structure ReadsCodes (read : List Char → Nat → Except BuildError CodePoint) : Prop where
  /-- The numerals of codes are read, and nothing else is. -/
  accepted : ∀ source line n, (∃ code, read source line = .ok code ∧ code.val.toNat = n) ↔
    Text.SignedDigits (Text.trim source) n ∧ n ≤ 0x10FFFF
  /-- The numerals of words beyond the code space are out of range. -/
  outOfRange : ∀ source line n,
    (∃ word, read source line = .error (.malformedRecord line (.outOfRange word)) ∧
      word.toNat = n) ↔
        Text.SignedDigits (Text.trim source) n ∧ 0x10FFFF < n ∧ n ≤ 0xFFFFFFFF
  /-- Any other text is refused as it stands, without the blanks around it. -/
  badCode : ∀ source line,
    read source line = .error (.malformedRecord line (.badCode (String.ofList (Text.trim source)))) ↔
      ∀ n, Text.SignedDigits (Text.trim source) n → 0xFFFFFFFF < n
  /-- The wording of the errors: a word is named with upper-case digits, at least four. -/
  wording : ∀ line,
    (∀ text, BuildError.message (.malformedRecord line (.badCode text)) =
      "line " ++ toString line ++ ": malformed record: " ++ ("bad codepoint '" ++ text ++ "'")) ∧
    ∀ word, ∃ digits, Text.SpellsWord .upper digits word.toNat ∧
      BuildError.message (.malformedRecord line (.outOfRange word)) =
        "line " ++ toString line ++ ": malformed record: " ++
          ("codepoint U+" ++ String.ofList digits ++ " is out of range")
  /-- A code is read back from its digits, with any zeros in front and any blanks around. -/
  readBack : ∀ (code : CodePoint) line zeros digits before after, digits ≠ [] →
    Text.Spells Text.eitherCase digits code.val.toNat → Text.AllBlank before → Text.AllBlank after →
      read (before ++ (List.replicate zeros '0' ++ digits) ++ after) line = .ok code
  /-- Such digits are those that are written for the code, in either case. -/
  written : ∀ case (code : CodePoint), Text.hexDigits case code.val.toNat ≠ [] ∧
    Text.Spells Text.eitherCase (Text.hexDigits case code.val.toNat) code.val.toNat

/-- What becomes of every text, and the texts that a code is read back from. -/
theorem readCode_verdict : ReadsCodes readCode := by
  refine ReadsCodes.mk ?accepted ?outOfRange ?badCode ?wording ?readBack ?written
  case accepted =>
    intro source line n
    rw [← Text.numeral_iff_signedDigits]
    constructor
    · rintro ⟨code, hread, rfl⟩
      exact ⟨readCode_eq_ok_iff.1 hread, UInt32.le_iff_toNat_le.1 code.property⟩
    · rintro ⟨hn, hle⟩
      obtain ⟨word, rfl⟩ := exists_word (n := n) (by omega)
      exact ⟨⟨word, UInt32.le_iff_toNat_le.2 hle⟩, readCode_eq_ok_iff.2 hn, rfl⟩
  case outOfRange =>
    intro source line n
    rw [← Text.numeral_iff_signedDigits]
    constructor
    · rintro ⟨word, hread, rfl⟩
      rcases readCode_eq_error_iff.1 hread with ⟨word', hn, hlt, heq⟩ | ⟨-, heq⟩
      · cases heq
        exact ⟨hn, UInt32.lt_iff_toNat_lt.1 hlt, Nat.le_of_lt_succ word.toNat_lt⟩
      · cases heq
    · rintro ⟨hn, hlt, hle⟩
      obtain ⟨word, rfl⟩ := exists_word hle
      exact ⟨word, readCode_eq_error_iff.2 (.inl ⟨word, hn, UInt32.lt_iff_toNat_lt.2 hlt, rfl⟩), rfl⟩
  case badCode =>
    intro source line
    simp only [← Text.numeral_iff_signedDigits]
    constructor
    · intro hread
      rcases readCode_eq_error_iff.1 hread with ⟨word, -, -, heq⟩ | ⟨hlarge, -⟩
      · cases heq
      · exact hlarge
    · intro hlarge
      exact readCode_eq_error_iff.2 (.inr ⟨hlarge, rfl⟩)
  case wording =>
    intro line
    refine ⟨fun text => rfl, fun word => ⟨_, Text.spellsWord_hexWord .upper word.toNat, ?_⟩⟩
    have hlabel : "codepoint " ++ word.label =
        "codepoint U+" ++ String.ofList (Text.hexWord .upper word.toNat) := by
      rw [Code.label, ← String.append_assoc]
      rfl
    change "line " ++ toString line ++ ": malformed record: " ++
      ("codepoint " ++ word.label ++ " is out of range") = _
    rw [hlabel]
  case readBack =>
    intro code line zeros digits before after hne hdigits hbefore hafter
    have hzeros := hdigits.zeros (by decide) zeros
    rw [readCode_eq_ok_iff, Writes, Text.trim_append_of_blank hafter,
      Text.trim_append_of_blank_left hbefore, hzeros.trim_eq]
    exact .unsigned (by simp [hne]) (Text.digitsOf_iff_spells.2 hzeros)
  case written =>
    intro case code
    refine ⟨Text.hexDigits_ne_nil case _, (Text.spells_hexDigits case _).mono ?_⟩
    cases case <;> decide

/-- A value that does not fit in a word does not wrap into the code space. -/
example : readCode "100000041".toList 7 = .error (.malformedRecord 7 (.badCode "100000041")) := by
  decide +kernel

end Database

end UcdTables
