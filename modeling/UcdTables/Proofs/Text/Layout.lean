import UcdTables.Proofs.Text.Contents

/-!
# The layout of a text

Changes of a text that leave what its lines hold as it is: the ends of the lines are written in
another way, lines that hold nothing are put in, and texts that count for nothing are put at the
ends of lines. Such changes say what becomes of the numbers of the lines.

* `Relaid`: any such changes, one after the other.
* `lines_withReturns`: carriage returns before line feeds change no line.
* `contents_relaid`: what the lines of a relaid text hold, under their new numbers.
-/

namespace UcdTables.Text

variable {content : List Char → List Char} {Idle : List Char → Prop}
  {s s' raw line tail : List Char} {f : Nat → Nat}

/-! ## The ends of the lines -/

/-- Puts a carriage return before each line feed that has none before it. The text follows the
character `previous`, if any. -/
def withReturns (previous : Option Char) : List Char → List Char
  | [] => []
  | c :: s =>
    if c = '\n' ∧ previous ≠ some '\r' then '\r' :: c :: withReturns (some c) s
    else c :: withReturns (some c) s

/-- A text without line feeds stays as it is. -/
theorem withReturns_append (hfree : '\n' ∉ raw) (previous : Option Char) (s : List Char) :
    withReturns previous (raw ++ s) = raw ++ withReturns (raw.getLast?.or previous) s := by
  induction raw generalizing previous with
  | nil => rfl
  | cons c raw ih =>
    obtain ⟨hc, hraw⟩ := not_or.1 (List.mem_cons.not.1 hfree)
    rw [List.cons_append, withReturns, if_neg fun h => hc h.1.symm, ih hraw, List.getLast?_cons]
    cases raw.getLast? <;> rfl

theorem dropReturn_concat (raw : List Char) : dropReturn (raw ++ ['\r']) = raw := by
  simp [dropReturn]

/-- A line ends in the same place with a carriage return before its line feed. -/
theorem lines_withReturns (previous : Option Char) (s : List Char) :
    lines (withReturns previous s) = lines s := by
  fun_induction lines s generalizing previous with
  | case1 s hcut =>
    obtain ⟨rfl, -⟩ := cut_eq_none_iff.1 hcut
    exact lines_of_not_mem List.not_mem_nil
  | case2 s raw hne hcut =>
    obtain ⟨rfl, hfree⟩ := cut_eq_none_iff.1 hcut
    have hkept := withReturns_append hfree previous []
    simp only [List.append_nil, withReturns] at hkept
    rw [hkept, lines_of_not_mem hfree, if_neg (by simpa using hne)]
  | case3 s raw rest hcut ih =>
    obtain ⟨rfl, hfree⟩ := cut_eq_some_iff.1 hcut
    rw [withReturns_append hfree, withReturns]
    split
    next hbare =>
      -- the line had no carriage return, and the one that it gets is not part of it
      have hkept : dropReturn raw = raw := if_neg fun hlast => hbare.2 (by rw [hlast]; rfl)
      have hfree' : '\n' ∉ raw ++ ['\r'] := by simp [hfree]
      have happend : raw ++ '\r' :: '\n' :: withReturns (some '\n') rest =
          (raw ++ ['\r']) ++ '\n' :: withReturns (some '\n') rest := by simp
      rw [happend, lines_append_cons hfree', dropReturn_concat, ih, hkept]
    next => rw [lines_append_cons hfree, ih]

theorem contents_withReturns (content : List Char → List Char) (s : List Char) :
    contents content (withReturns none s) = contents content s := by
  rw [contents, contents, numberedLines, numberedLines, lines_withReturns]

/-! ## Lines that hold nothing -/

/-- The numbers of the lines when a line is put in after the first `count` lines. -/
def movedBelow (count number : Nat) : Nat := if number ≤ count then number else number + 1

/-- A line is put into a text, and the lines of the text get other numbers. -/
inductive LineInserted (Idle : List Char → Prop) : List Char → List Char → (Nat → Nat) → Prop where
  /-- It stands where a line started. -/
  | above {before after line : List Char} (hstart : StartsLine before) (hidle : Idle line)
      (hfree : '\n' ∉ line) : LineInserted Idle (before ++ after) (before ++ (line ++ '\n' :: after))
        (movedBelow (before.count '\n'))
  /-- It ends the text, where a line would start. -/
  | last {s line : List Char} (hstart : StartsLine s) (hidle : Idle line) (hfree : '\n' ∉ line) :
      LineInserted Idle s (s ++ line) id
  /-- It ends the text, after the line that ended the text before, which gets a line feed. -/
  | below {s line : List Char} (hidle : Idle line) (hfree : '\n' ∉ line) :
      LineInserted Idle s (s ++ '\n' :: line) id

/-- As many lines end before a place where a line starts as there are line feeds. -/
theorem LineAt.number_le {number : Nat} (h : LineAt s line number)
    (hstart : StartsLine s) : number ≤ s.count '\n' := by
  obtain ⟨before, rest, rfl, -, hline, rfl⟩ := h
  have hmem : '\n' ∈ rest := by
    cases hline with
    | ended => simp
    | last _ hne =>
      rcases hstart with hnil | hlast
      · exact absurd (List.append_eq_nil_iff.1 hnil).2 hne
      · rw [List.getLast?_append_of_ne_nil _ hne] at hlast
        exact List.mem_of_getLast? hlast
  have hcount := List.count_pos_iff.2 hmem
  rw [List.count_append]
  omega

/-- A text that makes no difference at the end of a line. -/
def Idles (content : List Char → List Char) (tail : List Char) : Prop :=
  ∀ line, content (line ++ tail) = content line

/-- A line that is itself such a text holds nothing. -/
theorem Idles.eq_nil (hcontent : ContentRule content) (h : Idles content line) :
    content line = [] := (h []).trans hcontent.nil

theorem contents_of_idles (hcontent : ContentRule content) (h : Idles content line)
    (hfree : '\n' ∉ line) : contents content line = [] := by
  rw [contents_of_not_mem hcontent hfree]
  simp [heldBy, h.eq_nil hcontent]

/-- The lines above the new line keep their numbers. -/
theorem renumber_movedBelow {before : List Char} (hstart : StartsLine before) :
    renumber (movedBelow (before.count '\n')) (contents content before) =
      contents content before := by
  rw [← renumber_id (contents content before), renumber_renumber]
  refine renumber_congr fun c hc => ?_
  obtain ⟨-, _, hat, -⟩ := mem_contents_iff.1 hc
  exact if_pos (hat.number_le hstart)

/-- The lines below the new line have their numbers moved by one. -/
theorem renumber_movedBelow_add (count : Nat) (after : List Char) :
    renumber (movedBelow count ∘ (· + count)) (contents content after) =
      renumber ((· + count) ∘ (· + 1)) (contents content after) := by
  refine renumber_congr fun c hc => ?_
  obtain ⟨-, _, ⟨_, _, _, _, _, hnumber⟩, -⟩ := mem_contents_iff.1 hc
  simp only [Function.comp_apply, movedBelow]
  split <;> omega

/-- A line that holds nothing leaves no trace but in the numbers of the lines below it. -/
theorem contents_lineInserted (hcontent : ContentRule content)
    (hidle : ∀ line, Idle line → Idles content line) (h : LineInserted Idle s s' f) :
    contents content s' = renumber f (contents content s) := by
  cases h with
  | @above before after line hstart hline hfree =>
    rw [contents_append hcontent hstart, contents_append hcontent hstart,
      contents_line_append hcontent hfree, contents_of_idles hcontent (hidle _ hline) hfree,
      List.nil_append, renumber_append, renumber_movedBelow hstart, renumber_renumber,
      renumber_renumber, renumber_movedBelow_add]
  | last hstart hline hfree =>
    rw [contents_append hcontent hstart, contents_of_idles hcontent (hidle _ hline) hfree,
      renumber_nil, List.append_nil, renumber_id]
  | below hline hfree =>
    rw [contents_append_cons hcontent, contents_of_idles hcontent (hidle _ hline) hfree,
      renumber_nil, List.append_nil, renumber_id]

/-! ## Texts that count for nothing -/

/-- A place where a line ends: the end of the text, or before a line feed and the carriage return
before it. -/
def EndsLine (after : List Char) : Prop :=
  after = [] ∨ ∃ rest, after = '\n' :: rest ∨ after = '\r' :: '\n' :: rest

/-- A text is put at the end of a line. -/
inductive TailAdded (Idle : List Char → Prop) : List Char → List Char → Prop where
  | intro {before after tail : List Char} (hend : EndsLine after) (hidle : Idle tail)
      (hfree : '\n' ∉ tail) : TailAdded Idle (before ++ after) (before ++ tail ++ after)

/-- What makes no difference at the end of a line makes none at the end of the text. -/
theorem contents_append_tail (hcontent : ContentRule content) (hidle : Idles content tail)
    (hfree : '\n' ∉ tail) (s : List Char) :
    contents content (s ++ tail) = contents content s := by
  have hlast : ∀ {raw}, '\n' ∉ raw → contents content (raw ++ tail) = contents content raw := by
    intro raw hraw
    rw [contents_of_not_mem hcontent (by simp [hraw, hfree]), contents_of_not_mem hcontent hraw]
    simp only [heldBy, List.map_cons, List.map_nil, hidle raw]
  fun_induction lines s with
  | case1 s hcut =>
    obtain ⟨rfl, hraw⟩ := cut_eq_none_iff.1 hcut
    exact hlast hraw
  | case2 s raw _ hcut =>
    obtain ⟨rfl, hraw⟩ := cut_eq_none_iff.1 hcut
    exact hlast hraw
  | case3 s raw rest hcut ih =>
    obtain ⟨rfl, hraw⟩ := cut_eq_some_iff.1 hcut
    rw [List.append_assoc, List.cons_append, contents_line_append hcontent hraw, ih,
      contents_line_append hcontent hraw]

/-- What makes no difference at the end of a line makes none before a line feed. -/
theorem contents_append_tail_cons (hcontent : ContentRule content) (hidle : Idles content tail)
    (hfree : '\n' ∉ tail) (s rest : List Char) :
    contents content (s ++ tail ++ '\n' :: rest) = contents content (s ++ '\n' :: rest) := by
  have hcount : (s ++ tail).count '\n' = s.count '\n' := by
    rw [List.count_append, List.count_eq_zero_of_not_mem hfree, Nat.add_zero]
  rw [contents_append_cons hcontent, contents_append_cons hcontent, hcount,
    contents_append_tail hcontent hidle hfree]

theorem contents_tailAdded (hcontent : ContentRule content)
    (hidle : ∀ tail, Idle tail → Idles content tail) (h : TailAdded Idle s s') :
    contents content s' = contents content s := by
  obtain @⟨before, after, tail, hend, htail, hfree⟩ := h
  have htail := hidle tail htail
  rcases hend with rfl | ⟨rest, rfl | rfl⟩
  · rw [List.append_nil, List.append_nil]
    exact contents_append_tail hcontent htail hfree before
  · exact contents_append_tail_cons hcontent htail hfree before rest
  · -- the carriage return may be taken for a part of the tail
    have hlone : '\n' ∉ ['\r'] := by decide
    have hreturn : Idles content (tail ++ ['\r']) := by
      intro line
      rw [← List.append_assoc, hcontent.append_return, htail]
    have hwith := contents_append_tail_cons hcontent hreturn (by simp [hfree]) before rest
    have hwithout := contents_append_tail_cons hcontent hcontent.append_return hlone before rest
    simpa using hwith.trans hwithout.symm

/-! ## Changes one after the other -/

/-- A text is relaid by changes one after the other, each to what the one before it left. Lines and
tails that are put in are `Idle`. The lines of the text get other numbers. -/
inductive Relaid (Idle : List Char → Prop) :
    List Char → List Char → (Nat → Nat) → Prop where
  /-- Nothing is changed. -/
  | refl (s : List Char) : Relaid Idle s s id
  /-- Each line feed gets a carriage return. -/
  | returns {s s' : List Char} {f : Nat → Nat} (h : Relaid Idle s s' f) :
      Relaid Idle s (withReturns none s') f
  /-- A line is put in. -/
  | line {s s' s'' : List Char} {f g : Nat → Nat} (h : Relaid Idle s s' f)
      (hline : LineInserted Idle s' s'' g) : Relaid Idle s s'' (g ∘ f)
  /-- A line gets a tail. -/
  | tail {s s' s'' : List Char} {f : Nat → Nat} (h : Relaid Idle s s' f)
      (htail : TailAdded Idle s' s'') : Relaid Idle s s'' f

/-- A relaid text holds the same, under the new numbers. -/
theorem contents_relaid (hcontent : ContentRule content)
    (hidle : ∀ tail, Idle tail → Idles content tail) (h : Relaid Idle s s' f) :
    contents content s' = renumber f (contents content s) := by
  induction h with
  | refl => exact (renumber_id _).symm
  | returns _ ih => rw [contents_withReturns, ih]
  | line _ hline ih => rw [contents_lineInserted hcontent hidle hline, ih, renumber_renumber]
  | tail _ htail ih => rw [contents_tailAdded hcontent hidle htail, ih]

end UcdTables.Text
