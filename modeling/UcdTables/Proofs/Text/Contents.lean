import UcdTables.Proofs.Text.Fields

/-!
# What the lines of a text hold

A database holds something on some of its lines and nothing on the others. Which it is depends on
the line alone, and not on the carriage return that may stand at its end. So what a text holds can
be told from its parts, wherever a line feed divides it.

* `ContentRule`: a rule that says what a line holds.
* `contents_append_cons`: the contents of a text are those of the two parts around a line feed.
* `contents_append`: a text may be cut wherever a line starts.
-/

namespace UcdTables.Text

variable {content : List Char → List Char} {s t raw part : List Char}

/-- A rule that says what a line holds, for lines with or without the carriage return at the
end. -/
structure ContentRule (content : List Char → List Char) : Prop where
  nil : content [] = []
  append_return : ∀ line, content (line ++ ['\r']) = content line

/-- What numbered lines hold, with the same numbers. A line that holds nothing is left out. -/
def heldBy (content : List Char → List Char) (ls : List (List Char × Nat)) :
    List (List Char × Nat) :=
  (ls.map fun (line, number) => (content line, number)).filter (·.1 ≠ [])

/-- What the lines of a text hold, each with its number. -/
def contents (content : List Char → List Char) (s : List Char) : List (List Char × Nat) :=
  heldBy content (numberedLines s)

/-! ## Other numbers -/

/-- Texts with other numbers. -/
def renumber (f : Nat → Nat) (cs : List (List Char × Nat)) : List (List Char × Nat) :=
  cs.map (Prod.map id f)

@[simp] theorem renumber_nil (f : Nat → Nat) : renumber f [] = [] := rfl

@[simp] theorem renumber_append (f : Nat → Nat) (cs ds : List (List Char × Nat)) :
    renumber f (cs ++ ds) = renumber f cs ++ renumber f ds := List.map_append

@[simp] theorem renumber_renumber (f g : Nat → Nat) (cs : List (List Char × Nat)) :
    renumber g (renumber f cs) = renumber (g ∘ f) cs := by
  simp [renumber, Prod.map_comp_map]

@[simp] theorem renumber_id (cs : List (List Char × Nat)) : renumber id cs = cs := by
  simp [renumber]

theorem renumber_congr {f g : Nat → Nat} {cs : List (List Char × Nat)}
    (h : ∀ c ∈ cs, f c.2 = g c.2) : renumber f cs = renumber g cs :=
  List.map_congr_left fun c hc => Prod.ext rfl (h c hc)

/-! ## One line -/

theorem heldBy_cons (content : List Char → List Char) (line : List Char) (number : Nat)
    (ls : List (List Char × Nat)) : heldBy content ((line, number) :: ls) =
      heldBy content [(line, number)] ++ heldBy content ls := by
  by_cases hheld : content line = []
  · simp [heldBy, hheld]
  · simp [heldBy, hheld]

theorem heldBy_renumber (content : List Char → List Char) (f : Nat → Nat)
    (ls : List (List Char × Nat)) : heldBy content (renumber f ls) = renumber f (heldBy content ls) := by
  simp only [heldBy, renumber, List.map_map, List.filter_map]
  rfl

theorem numberedLines_append_cons (hfree : '\n' ∉ raw) (t : List Char) :
    numberedLines (raw ++ '\n' :: t) =
      (dropReturn raw, 1) :: renumber (· + 1) (numberedLines t) := by
  rw [numberedLines, lines_append_cons hfree, List.zipIdx_cons, List.zipIdx_succ]
  rfl

theorem ContentRule.dropReturn (hcontent : ContentRule content) (raw : List Char) :
    content (dropReturn raw) = content raw := by
  unfold Text.dropReturn
  split
  next hlast =>
    obtain ⟨line, rfl⟩ := List.getLast?_eq_some_iff.1 hlast
    rw [List.dropLast_concat, hcontent.append_return]
  next => rfl

theorem contents_nil (content : List Char → List Char) : contents content [] = [] := by
  rw [contents, numberedLines, lines_of_not_mem List.not_mem_nil]
  rfl

/-- What a text without a line feed holds. -/
theorem contents_of_not_mem (hcontent : ContentRule content) (hfree : '\n' ∉ raw) :
    contents content raw = heldBy content [(raw, 1)] := by
  by_cases hraw : raw = []
  · subst hraw
    simp [contents_nil, heldBy, hcontent.nil]
  · rw [contents, numberedLines, lines_of_not_mem hfree, if_neg hraw]
    rfl

/-- What follows the first line feed has its numbers moved by one. -/
theorem contents_line_append (hcontent : ContentRule content) (hfree : '\n' ∉ raw)
    (t : List Char) : contents content (raw ++ '\n' :: t) =
      contents content raw ++ renumber (· + 1) (contents content t) := by
  have hline : heldBy content [(Text.dropReturn raw, 1)] = heldBy content [(raw, 1)] := by
    simp only [heldBy, List.map_cons, List.map_nil, hcontent.dropReturn]
  rw [contents_of_not_mem hcontent hfree, contents, numberedLines_append_cons hfree, heldBy_cons,
    heldBy_renumber, hline, contents]

/-- What a text holds stands on its lines. -/
theorem mem_contents_iff {text : List Char} {number : Nat} :
    (text, number) ∈ contents content s ↔
      text ≠ [] ∧ ∃ line, LineAt s line number ∧ content line = text := by
  rw [contents, heldBy, List.mem_filter, List.mem_map, and_comm, decide_eq_true_eq]
  apply and_congr_right
  intro _
  constructor
  · rintro ⟨⟨line, _⟩, hline, heq⟩
    obtain ⟨hheld, rfl⟩ := Prod.mk.inj heq
    exact ⟨line, mem_numberedLines_iff.1 hline, hheld⟩
  · rintro ⟨line, hline, rfl⟩
    exact ⟨(line, number), mem_numberedLines_iff.2 hline, rfl⟩

/-! ## Cutting at a line feed -/

/-- The contents of a text are those of the two parts around a line feed. -/
theorem contents_append_cons (hcontent : ContentRule content) (s t : List Char) :
    contents content (s ++ '\n' :: t) =
      contents content s ++ renumber (· + (s.count '\n' + 1)) (contents content t) := by
  -- the recursion of the lines takes one line feed after the other
  fun_induction lines s with
  | case1 s hcut =>
    obtain ⟨rfl, hfree⟩ := cut_eq_none_iff.1 hcut
    exact contents_line_append hcontent hfree t
  | case2 s raw _ hcut =>
    obtain ⟨rfl, hfree⟩ := cut_eq_none_iff.1 hcut
    rw [contents_line_append hcontent hfree, List.count_eq_zero_of_not_mem hfree]
  | case3 s raw rest hcut ih =>
    obtain ⟨rfl, hfree⟩ := cut_eq_some_iff.1 hcut
    have hcount : (raw ++ '\n' :: rest).count '\n' = rest.count '\n' + 1 := by
      simp [List.count_eq_zero_of_not_mem hfree]
    rw [List.append_assoc, List.cons_append, contents_line_append hcontent hfree, ih,
      contents_line_append hcontent hfree, renumber_append, renumber_renumber, hcount,
      List.append_assoc]
    rfl

/-- A text may be cut wherever a line starts. -/
theorem contents_append (hcontent : ContentRule content) (hstart : StartsLine s) (t : List Char) :
    contents content (s ++ t) =
      contents content s ++ renumber (· + s.count '\n') (contents content t) := by
  rcases hstart with rfl | hlast
  · rw [contents_nil, List.nil_append, List.nil_append]
    exact (renumber_id _).symm
  · obtain ⟨before, rfl⟩ := List.getLast?_eq_some_iff.1 hlast
    have hbefore : contents content (before ++ ['\n']) = contents content before := by
      rw [contents_append_cons hcontent, contents_nil, renumber_nil, List.append_nil]
    rw [List.append_assoc, List.singleton_append, contents_append_cons hcontent, hbefore,
      List.count_append]
    rfl

end UcdTables.Text
