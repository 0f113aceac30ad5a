import UcdTables.Text.Hex

/-!
# Hexadecimal numerals are read back

What is written for a word, in either case and with zeros in front, is read as that word. So two
words never look the same, and a numeral has no characters but its digits.

* `hexDigit?_of_mem_hexWord`: the characters of a numeral are digits.
* `readHex_hexWord`: the numeral of a word is read as the word.
-/

namespace UcdTables.Text

variable {case : LetterCase} {n acc : Nat}

theorem hexDigit?_hexChar (case : LetterCase) {digit : Nat} (h : digit < 16) :
    hexDigit? (hexChar case digit) = some digit := by
  have hall : ∀ digit < 16, hexDigit? (hexChar case digit) = some digit := by
    cases case <;> decide
  exact hall digit h

theorem gatherHex_append (acc : Nat) (cs ds : List Char) :
    gatherHex acc (cs ++ ds) = (gatherHex acc cs).bind fun next => gatherHex next ds := by
  induction cs generalizing acc with
  | nil => rfl
  | cons c cs ih =>
    rw [List.cons_append, gatherHex, gatherHex]
    cases hexDigit? c with
    | none => rfl
    | some digit =>
      by_cases hsize : 16 * acc + digit < UInt32.size
      · simpa [hsize] using ih _
      · simp [hsize]

/-- One digit more is read after the others. -/
theorem gatherHex_hexChar (case : LetterCase) {digit : Nat} (hdigit : digit < 16)
    (hsize : 16 * acc + digit < UInt32.size) :
    gatherHex acc [hexChar case digit] = some (16 * acc + digit) := by
  simp [gatherHex, hexDigit?_hexChar case hdigit, hsize]

theorem gatherHex_hexDigits (case : LetterCase) (hn : n < UInt32.size) :
    gatherHex 0 (hexDigits case n) = some n := by
  fun_induction hexDigits case n with
  | case1 n hsmall =>
    rw [gatherHex_hexChar case hsmall (by omega)]
    simp
  | case2 n hlarge ih =>
    rw [gatherHex_append, ih (by omega), Option.bind_some,
      gatherHex_hexChar case (by omega) (by omega), Nat.div_add_mod]

/-- Zeros in front do not count. -/
theorem gatherHex_replicate_zero (count : Nat) :
    gatherHex 0 (List.replicate count '0') = some 0 := by
  induction count with
  | zero => rfl
  | succ count ih =>
    rw [List.replicate_succ, gatherHex]
    exact ih

theorem gatherHex_hexWord (case : LetterCase) (hn : n < UInt32.size) :
    gatherHex 0 (hexWord case n) = some n := by
  rw [hexWord, List.leftpad, gatherHex_append, gatherHex_replicate_zero, Option.bind_some,
    gatherHex_hexDigits case hn]

theorem hexDigit?_of_mem_hexDigits {c : Char} (h : c ∈ hexDigits case n) :
    ∃ digit, hexDigit? c = some digit := by
  fun_induction hexDigits case n with
  | case1 n hsmall =>
    obtain rfl := List.mem_singleton.1 h
    exact ⟨n, hexDigit?_hexChar case hsmall⟩
  | case2 n hlarge ih =>
    rcases List.mem_append.1 h with hc | hc
    · exact ih hc
    · obtain rfl := List.mem_singleton.1 hc
      exact ⟨n % 16, hexDigit?_hexChar case (by omega)⟩

/-- The characters of a numeral are digits. -/
theorem hexDigit?_of_mem_hexWord {c : Char} (h : c ∈ hexWord case n) :
    ∃ digit, hexDigit? c = some digit := by
  rcases List.mem_append.1 h with hzero | hc
  · obtain rfl := List.eq_of_mem_replicate hzero
    exact ⟨0, rfl⟩
  · exact hexDigit?_of_mem_hexDigits hc

theorem not_mem_hexWord {c : Char} (h : hexDigit? c = none) : c ∉ hexWord case n := by
  intro hc
  obtain ⟨digit, hdigit⟩ := hexDigit?_of_mem_hexWord hc
  rw [h] at hdigit
  cases hdigit

theorem hexWord_ne_nil (case : LetterCase) (n : Nat) : hexWord case n ≠ [] := by
  intro hnil
  have hlength : (hexWord case n).length = max 4 (hexDigits case n).length :=
    List.length_leftpad
  rw [hnil, List.length_nil] at hlength
  omega

/-- The numeral of a word is read as the word. -/
theorem readHex_hexWord (case : LetterCase) (word : UInt32) :
    readHex (hexWord case word.toNat) = some word := by
  have hgather := gatherHex_hexWord case word.toNat_lt
  have hsign : '+' ∉ hexWord case word.toNat := not_mem_hexWord rfl
  have hne := hexWord_ne_nil case word.toNat
  generalize hexWord case word.toNat = digits at hgather hsign hne
  have hunsigned : unsigned digits = digits := by
    unfold unsigned
    split
    · simp at hsign
    · rfl
  rw [readHex, hunsigned]
  split
  · contradiction
  · rw [hgather, Option.map_some, UInt32.ofNat_toNat]

theorem hexWord_inj {word word' : UInt32} :
    hexWord case word.toNat = hexWord case word'.toNat ↔ word = word' := by
  constructor
  · intro h
    have hread := congrArg readHex h
    rwa [readHex_hexWord, readHex_hexWord, Option.some.injEq] at hread
  · rintro rfl
    rfl

end UcdTables.Text
