import Mathlib.Data.List.Infix
import UcdTables.Text.Fields

/-!
# Fields and lines, told from the text

Where a field or a line stands in a text, without reading the text from its start.

* `upTo_iff`: what stands before the first separator.
* `fields_append_cons`: the fields of a text, from the first on.
* `cutDots_eq_some_iff`, `cutDots_eq_none_iff`: what stands around the first two dots in a row.
* `mem_numberedLines_iff`: a line, and its number as one more than the line feeds before it.
-/

namespace UcdTables.Text

variable {sep : Char} {s part before rest line : List Char} {number : Nat}

/-! ## What stands before a separator -/

/-- What stands before the first separator of a text, or the text where it has none. -/
def UpTo (sep : Char) (s part : List Char) : Prop :=
  sep ∉ part ∧ (s = part ∨ ∃ rest, s = part ++ sep :: rest)

theorem upTo_iff : UpTo sep s part ↔ (cut sep s).1 = part := by
  constructor
  · rintro ⟨hfree, rfl | ⟨rest, rfl⟩⟩
    · rw [cut_eq_none_iff.2 ⟨rfl, hfree⟩]
    · rw [cut_eq_some_iff.2 ⟨rfl, hfree⟩]
  · intro hpart
    rcases hcut : cut sep s with ⟨part', _ | rest⟩
    · obtain rfl : part' = part := by simpa [hcut] using hpart
      obtain ⟨rfl, hfree⟩ := cut_eq_none_iff.1 hcut
      exact ⟨hfree, .inl rfl⟩
    · obtain rfl : part' = part := by simpa [hcut] using hpart
      obtain ⟨hs, hfree⟩ := cut_eq_some_iff.1 hcut
      exact ⟨hfree, .inr ⟨rest, hs⟩⟩

/-- A text is cut at a separator with none before it. -/
theorem cut_append_cons (hfree : sep ∉ part) (rest : List Char) :
    cut sep (part ++ sep :: rest) = (part, some rest) :=
  cut_eq_some_iff.2 ⟨rfl, hfree⟩

/-- A text has no separator, one, or more. -/
theorem exists_separators (sep : Char) (s : List Char) :
    sep ∉ s ∨ (∃ first last, s = first ++ sep :: last ∧ sep ∉ first ∧ sep ∉ last) ∨
      ∃ first second rest, s = first ++ sep :: (second ++ sep :: rest) ∧ sep ∉ first ∧
        sep ∉ second := by
  rcases hcut : cut sep s with ⟨first, _ | after⟩
  · exact .inl (cut_eq_none_iff.1 hcut).2
  obtain ⟨rfl, hfirst⟩ := cut_eq_some_iff.1 hcut
  rcases hcut' : cut sep after with ⟨second, _ | rest⟩
  · exact .inr (.inl ⟨first, after, rfl, hfirst, (cut_eq_none_iff.1 hcut').2⟩)
  · obtain ⟨rfl, hsecond⟩ := cut_eq_some_iff.1 hcut'
    exact .inr (.inr ⟨first, second, rest, rfl, hfirst, hsecond⟩)

/-- What stands before the first separator of two texts that are put together. -/
theorem fst_cut_append (s t : List Char) :
    (cut sep (s ++ t)).1 = if sep ∈ s then (cut sep s).1 else s ++ (cut sep t).1 := by
  rcases hcut : cut sep s with ⟨part, _ | rest⟩
  · obtain ⟨rfl, hfree⟩ := cut_eq_none_iff.1 hcut
    rw [if_neg hfree, ← upTo_iff]
    obtain ⟨hfree', ht⟩ := upTo_iff.2 (rfl : (cut sep t).1 = _)
    refine ⟨by simp [hfree, hfree'], ?_⟩
    rcases ht with ht | ⟨rest, ht⟩
    · exact .inl (congrArg (s ++ ·) ht)
    · exact .inr ⟨rest, by rw [List.append_assoc, ← ht]⟩
  · obtain ⟨rfl, hfree⟩ := cut_eq_some_iff.1 hcut
    rw [if_pos (by simp), List.append_assoc, List.cons_append, cut_append_cons hfree]

/-! ## Fields -/

/-- A text without a separator is one field. -/
theorem fields_of_not_mem (hfree : sep ∉ s) : fields sep s = [s] := by
  have hcut : cut sep s = (s, none) := cut_eq_none_iff.2 ⟨rfl, hfree⟩
  rw [fields]
  split
  next hnone => rw [← (Prod.mk.inj (hcut.symm.trans hnone)).1]
  next hsome => cases (Prod.mk.inj (hcut.symm.trans hsome)).2

/-- What stands before the first separator is the first field. -/
theorem fields_append_cons (hfree : sep ∉ part) (rest : List Char) :
    fields sep (part ++ sep :: rest) = part :: fields sep rest := by
  have hcut := cut_append_cons hfree rest
  rw [fields]
  split
  next hnone => cases (Prod.mk.inj (hcut.symm.trans hnone)).2
  next hsome =>
    obtain ⟨rfl, hrest⟩ := Prod.mk.inj (hcut.symm.trans hsome)
    obtain rfl := Option.some.inj hrest
    rfl

/-- The first field ends at the first separator, whatever follows. -/
theorem exists_fields_eq_cons (sep : Char) (s : List Char) :
    ∃ more, fields sep s = (cut sep s).1 :: more := by
  rcases hcut : cut sep s with ⟨part, _ | rest⟩
  · obtain ⟨rfl, hfree⟩ := cut_eq_none_iff.1 hcut
    exact ⟨[], fields_of_not_mem hfree⟩
  · obtain ⟨rfl, hfree⟩ := cut_eq_some_iff.1 hcut
    exact ⟨_, fields_append_cons hfree rest⟩

/-! ## Two dots in a row -/

private theorem not_prefix_of_dots {c : Char} (hdots : ∀ after, c = '.' → s = '.' :: after → False) :
    ¬ ['.', '.'] <+: c :: s := by
  rintro ⟨after, h⟩
  obtain ⟨rfl, rfl⟩ := List.cons.inj h
  exact hdots after rfl rfl

theorem cutDots_eq_none_iff : cutDots s = none ↔ ¬ ['.', '.'] <:+: s := by
  fun_induction cutDots s with
  | case1 => simp
  | case2 rest =>
    simp only [reduceCtorEq, false_iff, not_not]
    exact ⟨[], rest, rfl⟩
  | case3 c rest hdots ih =>
    rw [Option.map_eq_none_iff, ih, List.infix_cons_iff, or_iff_right (not_prefix_of_dots hdots)]

/-- Two dots at the start of a text that goes on with two dots are told from the first of these. -/
private theorem dots_prefix_iff (c : Char) (before rest : List Char) :
    ['.', '.'] <+: c :: (before ++ ['.']) ↔ ['.', '.'] <+: c :: (before ++ '.' :: '.' :: rest) := by
  cases before with
  | nil => simp [List.cons_prefix_cons]
  | cons d before => simp [List.cons_prefix_cons]

theorem cutDots_eq_some_iff :
    cutDots s = some (before, rest) ↔
      s = before ++ '.' :: '.' :: rest ∧ ¬ ['.', '.'] <:+: before ++ ['.'] := by
  fun_induction cutDots s generalizing before with
  | case1 => simp
  | case2 rest' =>
    cases before with
    | nil =>
      have hshort : ¬ ['.', '.'] <:+: ['.'] := fun h => absurd h.length_le (by decide)
      simp [hshort, eq_comm]
    | cons c before =>
      simp only [Option.some.injEq, Prod.mk.injEq, List.nil_eq, reduceCtorEq, false_and,
        false_iff, not_and, not_not]
      intro hs
      refine List.IsPrefix.isInfix ((dots_prefix_iff c before rest).2 ?_)
      rw [← List.cons_append, ← hs]
      exact ⟨rest', rfl⟩
  | case3 c rest' hdots ih =>
    have hstart := not_prefix_of_dots hdots
    cases before with
    | nil =>
      simp only [Option.map_eq_some_iff, Prod.mk.injEq, reduceCtorEq, false_and, and_false,
        exists_false, false_iff, not_and]
      intro hs
      exact absurd ⟨rest, hs.symm⟩ hstart
    | cons d before =>
      simp only [Option.map_eq_some_iff, Prod.exists, Prod.mk.injEq, List.cons.injEq,
        List.cons_append, List.infix_cons_iff]
      constructor
      · rintro ⟨_, _, hcut, ⟨rfl, rfl⟩, rfl⟩
        obtain ⟨rfl, hfree⟩ := ih.1 hcut
        rw [dots_prefix_iff]
        exact ⟨⟨rfl, rfl⟩, not_or.2 ⟨hstart, hfree⟩⟩
      · rintro ⟨⟨rfl, rfl⟩, hfree⟩
        exact ⟨before, rest, ih.2 ⟨rfl, (not_or.1 hfree).2⟩, ⟨rfl, rfl⟩, rfl⟩

/-! ## Lines -/

/-- A place where a line starts: the start of the text, or behind a line feed. -/
def StartsLine (before : List Char) : Prop := before = [] ∨ before.getLast? = some '\n'

/-- The line at the start of a text. A line feed ends it, and a carriage return directly before
the line feed is not part of it; a line that the text ends is not empty. -/
inductive FirstLine : List Char → List Char → Prop where
  | ended {raw after : List Char} (hfree : '\n' ∉ raw) :
      FirstLine (raw ++ '\n' :: after) (dropReturn raw)
  | last {raw : List Char} (hfree : '\n' ∉ raw) (hne : raw ≠ []) : FirstLine raw raw

/-- A line of a text, with its number: one more than the line feeds before it. -/
def LineAt (s line : List Char) (number : Nat) : Prop :=
  ∃ before rest, s = before ++ rest ∧ StartsLine before ∧ FirstLine rest line ∧
    number = before.count '\n' + 1

theorem startsLine_append_cons : StartsLine (part ++ '\n' :: before) ↔ StartsLine before := by
  cases before using List.reverseRecOn with
  | nil => simp [StartsLine]
  | append_singleton before c => simp [StartsLine, List.getLast?_append, List.getLast?_cons]

/-- A line starts at the start of the text, or somewhere after the first line feed. -/
theorem StartsLine.eq_nil_or (h : StartsLine before) :
    before = [] ∨ ∃ raw after, before = raw ++ '\n' :: after ∧ '\n' ∉ raw ∧ StartsLine after := by
  rcases h with rfl | hlast
  · exact .inl rfl
  · right
    rcases hcut : cut '\n' before with ⟨raw, _ | after⟩
    · obtain ⟨rfl, hfree⟩ := cut_eq_none_iff.1 hcut
      exact absurd (List.mem_of_getLast? hlast) hfree
    · obtain ⟨rfl, hfree⟩ := cut_eq_some_iff.1 hcut
      exact ⟨raw, after, rfl, hfree, startsLine_append_cons.1 (.inr hlast)⟩

theorem firstLine_iff (hfree : '\n' ∉ s) : FirstLine s line ↔ s ≠ [] ∧ line = s := by
  constructor
  · intro h
    cases h with
    | ended => simp at hfree
    | last _ hne => exact ⟨hne, rfl⟩
  · rintro ⟨hne, rfl⟩
    exact .last hfree hne

theorem firstLine_append_cons (hfree : '\n' ∉ part) :
    FirstLine (part ++ '\n' :: rest) line ↔ line = dropReturn part := by
  constructor
  · intro h
    generalize hs : part ++ '\n' :: rest = s at h
    cases h with
    | ended hfree' => rw [((append_sep_inj hfree hfree').1 hs).1]
    | last hfree' => simp [← hs] at hfree'
  · rintro rfl
    exact .ended hfree

/-- A text without a line feed has one line, unless it is empty. -/
theorem lineAt_iff (hfree : '\n' ∉ s) : LineAt s line number ↔ s ≠ [] ∧ line = s ∧ number = 1 := by
  constructor
  · rintro ⟨before, rest, rfl, hstart, hline, rfl⟩
    rcases hstart.eq_nil_or with rfl | ⟨raw, after, rfl, -, -⟩
    · obtain ⟨hne, rfl⟩ := (firstLine_iff hfree).1 hline
      exact ⟨hne, rfl, rfl⟩
    · simp at hfree
  · rintro ⟨hne, rfl, rfl⟩
    exact ⟨[], line, rfl, .inl rfl, .last hfree hne, rfl⟩

/-- A text with a line feed has a line before it, and the lines of what follows it. -/
theorem lineAt_append_cons (hfree : '\n' ∉ part) :
    LineAt (part ++ '\n' :: rest) line number ↔
      (line = dropReturn part ∧ number = 1) ∨ ∃ n, LineAt rest line n ∧ number = n + 1 := by
  constructor
  · rintro ⟨before, rest', hs, hstart, hline, rfl⟩
    rcases hstart.eq_nil_or with rfl | ⟨raw, after, rfl, hraw, hafter⟩
    · obtain rfl : part ++ '\n' :: rest = rest' := hs
      exact .inl ⟨(firstLine_append_cons hfree).1 hline, rfl⟩
    · rw [List.append_assoc, List.cons_append] at hs
      obtain ⟨rfl, rfl⟩ := (append_sep_inj hfree hraw).1 hs
      refine .inr ⟨_, ⟨after, rest', rfl, hafter, hline, rfl⟩, ?_⟩
      simp [List.count_eq_zero_of_not_mem hraw]
  · rintro (⟨rfl, rfl⟩ | ⟨n, ⟨before, rest', rfl, hstart, hline, rfl⟩, rfl⟩)
    · exact ⟨[], _, rfl, .inl rfl, .ended hfree, rfl⟩
    · refine ⟨part ++ '\n' :: before, rest', by simp, startsLine_append_cons.2 hstart, hline, ?_⟩
      simp [List.count_eq_zero_of_not_mem hfree]

/-- A text without a line feed is one line, unless it is empty. -/
theorem lines_of_not_mem (hfree : '\n' ∉ s) : lines s = if s = [] then [] else [s] := by
  have hcut : cut '\n' s = (s, none) := cut_eq_none_iff.2 ⟨rfl, hfree⟩
  rw [lines]
  split
  next hnil => rw [if_pos (Prod.mk.inj (hcut.symm.trans hnil)).1]
  next line hline hnone =>
    obtain rfl := (Prod.mk.inj (hcut.symm.trans hnone)).1
    rw [if_neg (by simpa using hline)]
  next hsome => cases (Prod.mk.inj (hcut.symm.trans hsome)).2

/-- A line feed ends a line, and the lines of what follows come after it. -/
theorem lines_append_cons (hfree : '\n' ∉ part) (rest : List Char) :
    lines (part ++ '\n' :: rest) = dropReturn part :: lines rest := by
  have hcut := cut_append_cons hfree rest
  rw [lines]
  split
  next hnil => cases (Prod.mk.inj (hcut.symm.trans hnil)).2
  next hnone => cases (Prod.mk.inj (hcut.symm.trans hnone)).2
  next hsome =>
    obtain ⟨rfl, hrest⟩ := Prod.mk.inj (hcut.symm.trans hsome)
    obtain rfl := Option.some.inj hrest
    rfl

theorem mem_zipIdx_lines_iff {k : Nat} :
    (line, number) ∈ (lines s).zipIdx k ↔ ∃ n, LineAt s line n ∧ number + 1 = n + k := by
  fun_induction lines s generalizing k with
  | case1 s hcut =>
    obtain ⟨rfl, hfree⟩ := cut_eq_none_iff.1 hcut
    simp [lineAt_iff hfree]
  | case2 s raw hne hcut =>
    obtain ⟨rfl, hfree⟩ := cut_eq_none_iff.1 hcut
    have hne : s ≠ [] := by simpa using hne
    simp [lineAt_iff hfree, hne, and_assoc, Nat.add_comm]
  | case3 s raw rest hcut ih =>
    obtain ⟨rfl, hfree⟩ := cut_eq_some_iff.1 hcut
    rw [List.zipIdx_cons, List.mem_cons, ih]
    simp only [Prod.mk.injEq, lineAt_append_cons hfree]
    constructor
    · rintro (⟨rfl, rfl⟩ | ⟨n, hline, hn⟩)
      · exact ⟨1, .inl ⟨rfl, rfl⟩, Nat.add_comm ..⟩
      · exact ⟨n + 1, .inr ⟨n, hline, rfl⟩, by omega⟩
    · rintro ⟨_, ⟨rfl, rfl⟩ | ⟨n, hline, rfl⟩, hn⟩
      · exact .inl ⟨rfl, by omega⟩
      · exact .inr ⟨n, hline, by omega⟩

/-- The lines of a text and their numbers. -/
theorem mem_numberedLines_iff : (line, number) ∈ numberedLines s ↔ LineAt s line number := by
  simp [numberedLines, mem_zipIdx_lines_iff]

/-- The numbers of the lines ascend. -/
theorem pairwise_numberedLines (s : List Char) : (numberedLines s).Pairwise (·.2 < ·.2) := by
  rw [← List.pairwise_map (f := Prod.snd), numberedLines, List.zipIdx_map_snd]
  exact List.pairwise_lt_range'

end UcdTables.Text
