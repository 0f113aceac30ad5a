import UcdTables.Files.Tree
import UcdTables.Proofs.Outcome

/-!
# Writing a file

A file is written at the place that its path names. The text that was written is read back at this
path, and nothing else in the tree is changed: not the other nodes, and not the places that other
paths name.

* `write_eq_ok_iff`: what a write does.
* `placeOf_put_iff`: the places that paths name, after a write.
* `readText_of_placeOf`, `readText_put`: a text that was written is read back.
-/

namespace UcdTables.FileTree

variable {t : FileTree} {p q here there : Place}

/-- The place that the text of a path names for a file to be written. -/
def placeOf (t : FileTree) (path : String) : Except FileFailure Place := Path.ofText path >>= t.target

/-! ## The nodes after a write -/

private theorem lookup_filter_ne (nodes : List (Place × FileNode)) (h : q ≠ p) :
    (nodes.filter (·.1 ≠ p)).lookup q = nodes.lookup q := by
  induction nodes with
  | nil => rfl
  | cons e nodes ih =>
    obtain ⟨place, node⟩ := e
    by_cases hplace : place = p
    · have hother : (q == place) = false := beq_eq_false_iff_ne.2 (hplace ▸ h)
      rw [List.filter_cons_of_neg (by simp [hplace]), ih, List.lookup_cons, hother]
    · simp only [List.filter_cons, hplace, ne_eq, not_false_eq_true, decide_true, if_true,
        List.lookup_cons, ih]

/-- What stands at a place after a node was put at another place or the same. -/
theorem node?_put (hp : p ≠ []) (node : FileNode) :
    (t.put p node).node? q = if q = p then some node else t.node? q := by
  unfold node? put
  by_cases hq : q = p
  · subst hq
    simp [hp]
  · have hne : (q == p) = false := beq_eq_false_iff_ne.2 hq
    rw [List.lookup_cons, hne, lookup_filter_ne t.nodes hq, if_neg hq]

/-- A place where a file may be put: not the root, and no directory. -/
structure Free (t : FileTree) (p : Place) : Prop where
  ne_nil : p ≠ []
  isDirectory_eq_false : t.isDirectory p = false

namespace Free

theorem isDirectory_put (h : t.Free p) (contents : ByteArray) :
    (t.put p (.file contents)).isDirectory q = t.isDirectory q := by
  unfold isDirectory
  rw [node?_put h.ne_nil]
  by_cases hq : q = p
  · subst hq
    rw [if_pos rfl]
    exact h.isDirectory_eq_false.symm
  · rw [if_neg hq]

/-- Where a file may be put, one may be put after another file was put. -/
theorem put (h : t.Free p) (hq : t.Free q) (contents : ByteArray) :
    (t.put p (.file contents)).Free q :=
  ⟨hq.ne_nil, by rw [h.isDirectory_put]; exact hq.isDirectory_eq_false⟩

end Free

/-! ## The places that paths name -/

theorem step_eq_ok_iff {name : String} :
    t.step here name = .ok there ↔
      (name = "." ∧ there = here) ∨ (name = ".." ∧ there = here.dropLast) ∨
        (name ≠ "." ∧ name ≠ ".." ∧ name.utf8ByteSize ≤ Path.maxNameBytes ∧
          (t.node? (here ++ [name])).isSome = true ∧ there = here ++ [name]) := by
  unfold step
  split
  next hdot => grind
  next hdot =>
    split
    next hdots => grind
    next hdots =>
      split
      next hlong => grind
      next hshort =>
        split
        next hsome => grind
        next hnone => grind

theorem walk_cons_eq_ok_iff {name : String} {names : List String} :
    t.walk here (name :: names) = .ok there ↔
      t.isDirectory here = true ∧
        ∃ next, t.step here name = .ok next ∧ t.walk next names = .ok there := by
  rw [walk]
  cases hdirectory : t.isDirectory here with
  | false => simp
  | true => simp only [if_true, bind_eq_ok_iff, true_and]

theorem walk_concat_eq_ok_iff {names : List String} {name : String} :
    t.walk here (names ++ [name]) = .ok there ↔
      ∃ parent, t.walk here names = .ok parent ∧ t.isDirectory parent = true ∧
        t.step parent name = .ok there := by
  induction names generalizing here with
  | nil =>
    rw [List.nil_append, walk_cons_eq_ok_iff]
    simp [walk]
  | cons first names ih =>
    simp only [List.cons_append, walk_cons_eq_ok_iff, ih]
    constructor
    · intro hleft
      obtain ⟨hhere, next, hnext, parent, hparent, hlast⟩ := hleft
      exact ⟨parent, ⟨hhere, next, hnext, hparent⟩, hlast⟩
    · intro hright
      obtain ⟨parent, ⟨hhere, next, hnext, hparent⟩, hlast⟩ := hright
      exact ⟨hhere, next, hnext, parent, hparent, hlast⟩

/-- Where a path leads, it leads after a file was put somewhere. -/
theorem walk_put (h : t.Free p) (contents : ByteArray) {names : List String}
    (hwalk : t.walk here names = .ok there) :
    (t.put p (.file contents)).walk here names = .ok there := by
  induction names generalizing here with
  | nil => exact hwalk
  | cons name names ih =>
    obtain ⟨hhere, next, hstep, hrest⟩ := walk_cons_eq_ok_iff.1 hwalk
    refine walk_cons_eq_ok_iff.2 ⟨by rw [h.isDirectory_put]; exact hhere, next, ?_, ih hrest⟩
    refine step_eq_ok_iff.2 ((step_eq_ok_iff.1 hstep).imp_right (Or.imp_right ?_))
    rintro ⟨hdot, hdots, hshort, hsome, rfl⟩
    refine ⟨hdot, hdots, hshort, ?_, rfl⟩
    rw [node?_put h.ne_nil]
    split
    next => rfl
    next => exact hsome

/-- A path does not lead to more directories after a file was put somewhere. -/
theorem walk_of_walk_put (h : t.Free p) {contents : ByteArray} {names : List String}
    (hwalk : (t.put p (.file contents)).walk here names = .ok there)
    (hthere : t.isDirectory there = true) : t.walk here names = .ok there := by
  induction names generalizing here with
  | nil => exact hwalk
  | cons name names ih =>
    obtain ⟨hhere, next, hstep, hrest⟩ := walk_cons_eq_ok_iff.1 hwalk
    rw [h.isDirectory_put] at hhere
    -- the name cannot lead to the new file, as a file has no names below it
    have hne : next ≠ p := by
      rintro rfl
      cases names with
      | nil =>
        obtain rfl : next = there := Except.ok.inj hrest
        simp [h.isDirectory_eq_false] at hthere
      | cons _ _ =>
        have hnext := (walk_cons_eq_ok_iff.1 hrest).1
        rw [h.isDirectory_put, h.isDirectory_eq_false] at hnext
        cases hnext
    refine walk_cons_eq_ok_iff.2 ⟨hhere, next, ?_, ih hrest⟩
    refine step_eq_ok_iff.2 ((step_eq_ok_iff.1 hstep).imp_right (Or.imp_right ?_))
    rintro ⟨hdot, hdots, hshort, hsome, rfl⟩
    rw [node?_put h.ne_nil, if_neg hne] at hsome
    exact ⟨hdot, hdots, hshort, hsome, rfl⟩

/-- A path names a place for a file if all its names but the last lead to a directory, and the last
is a name of its own under which no directory stands. -/
theorem target_eq_ok_iff {path : Path} :
    t.target path = .ok p ↔
      ∃ names parent name, path.names = names ++ [name] ∧ path.slashEnds = false ∧
        t.walk (t.start path) names = .ok parent ∧ t.isDirectory parent = true ∧
        name ≠ "." ∧ name ≠ ".." ∧ name.utf8ByteSize ≤ Path.maxNameBytes ∧
        t.isDirectory (parent ++ [name]) = false ∧ p = parent ++ [name] := by
  unfold target
  constructor
  · intro h
    cases hlast : path.names.getLast? with
    | none =>
      rw [hlast] at h
      cases h
    | some name =>
      obtain ⟨names, hnames⟩ := List.getLast?_eq_some_iff.1 hlast
      rw [hlast] at h
      obtain ⟨parent, hwalk, h⟩ := bind_eq_ok_iff.1 h
      rw [hnames, List.dropLast_concat] at hwalk
      cases hparent : t.isDirectory parent with
      | false =>
        rw [hparent] at h
        cases h
      | true =>
        simp only [hparent, Bool.not_true, Bool.false_eq_true, if_false] at h
        split at h
        next => cases h
        next hname =>
          obtain ⟨⟨hslash, hdot⟩, hdots⟩ :
              (path.slashEnds = false ∧ name ≠ ".") ∧ name ≠ ".." := by simpa using hname
          split at h
          next => cases h
          next hshort =>
            split at h
            next => cases h
            next hfree =>
              obtain rfl : parent ++ [name] = p := Except.ok.inj h
              exact ⟨names, parent, name, hnames, hslash, hwalk, hparent, hdot, hdots,
                Nat.not_lt.1 hshort, by simpa using hfree, rfl⟩
  · intro hright
    obtain ⟨names, parent, name, hnames, hslash, hwalk, hparent, hdot, hdots, hshort, hfree, rfl⟩ := hright
    rw [hnames, List.getLast?_concat, List.dropLast_concat]
    refine bind_eq_ok_iff.2 ⟨parent, hwalk, ?_⟩
    simp [hparent, hslash, hdot, hdots, hfree, Nat.not_lt.2 hshort, pure, Except.pure]

/-- The place that a path names for a file is free. -/
theorem free_of_target {path : Path} (h : t.target path = .ok p) : t.Free p := by
  obtain ⟨names, parent, name, -, -, -, -, -, -, -, hfree, rfl⟩ := target_eq_ok_iff.1 h
  exact ⟨by simp, hfree⟩

/-- After a file was put somewhere, a path names the place that it named before. -/
theorem target_put_iff (h : t.Free p) {contents : ByteArray} {path : Path} :
    (t.put p (.file contents)).target path = .ok q ↔ t.target path = .ok q := by
  rw [target_eq_ok_iff, target_eq_ok_iff]
  simp only [h.isDirectory_put]
  constructor
  · intro hleft
    obtain ⟨names, parent, name, hnames, hslash, hwalk, hparent, hrest⟩ := hleft
    exact ⟨names, parent, name, hnames, hslash, walk_of_walk_put h hwalk hparent, hparent, hrest⟩
  · intro hright
    obtain ⟨names, parent, name, hnames, hslash, hwalk, hparent, hrest⟩ := hright
    exact ⟨names, parent, name, hnames, hslash, walk_put h contents hwalk, hparent, hrest⟩

theorem free_of_placeOf {path : String} (h : t.placeOf path = .ok p) : t.Free p := by
  obtain ⟨parsed, -, htarget⟩ := bind_eq_ok_iff.1 h
  exact free_of_target htarget

theorem placeOf_put_iff (h : t.Free p) {contents : ByteArray} {path : String} :
    (t.put p (.file contents)).placeOf path = .ok q ↔ t.placeOf path = .ok q := by
  unfold placeOf
  rw [bind_eq_ok_iff, bind_eq_ok_iff]
  exact exists_congr fun parsed => and_congr_right fun _ => target_put_iff h

/-! ## Writing and reading -/

/-- A write puts the text at the place that the path names. -/
theorem write_eq_ok_iff {path text : String} {changed : FileTree} :
    t.write path text = .ok changed ↔
      ∃ p, t.placeOf path = .ok p ∧ changed = t.put p (.file text.toUTF8) := by
  unfold write placeOf
  cases Path.ofText path with
  | error reason => simp [bind, Except.bind]
  | ok parsed =>
    cases htarget : t.target parsed with
    | error reason => simp [bind, Except.bind, htarget]
    | ok p => simp [bind, Except.bind, htarget, pure, Except.pure, eq_comm]

theorem write_eq_error_iff {path text : String} {reason : FileFailure} :
    t.write path text = .error reason ↔ t.placeOf path = .error reason := by
  unfold write placeOf
  cases Path.ofText path with
  | error reason => simp [bind, Except.bind]
  | ok parsed =>
    cases htarget : t.target parsed with
    | error reason => simp [bind, Except.bind, htarget]
    | ok p => simp [bind, Except.bind, htarget, pure, Except.pure]

private theorem fromUTF8?_toUTF8 (text : String) : String.fromUTF8? text.toUTF8 = some text :=
  dif_pos text.isValidUTF8

/-- The text of the file at a place is read at the paths that name the place. -/
theorem readText_of_placeOf {path text : String} (h : t.placeOf path = .ok p)
    (hnode : t.node? p = some (.file text.toUTF8)) : t.readText path = .ok text := by
  obtain ⟨parsed, hparsed, htarget⟩ := bind_eq_ok_iff.1 h
  obtain ⟨names, parent, name, hnames, hslash, hwalk, hparent, hdot, hdots, hshort, -, rfl⟩ :=
    target_eq_ok_iff.1 htarget
  have hplace : t.walk (t.start parsed) parsed.names = .ok (parent ++ [name]) := by
    rw [hnames, walk_concat_eq_ok_iff]
    refine ⟨parent, hwalk, hparent, step_eq_ok_iff.2 (.inr (.inr ?_))⟩
    exact ⟨hdot, hdots, hshort, by rw [hnode]; rfl, rfl⟩
  have hread : t.read path = .ok text.toUTF8 := by
    refine bind_eq_ok_iff.2 ⟨parsed, hparsed, bind_eq_ok_iff.2 ⟨_, hplace, ?_⟩⟩
    rw [hnode]
    simp [hslash, pure, Except.pure]
  refine bind_eq_ok_iff.2 ⟨_, hread, ?_⟩
  rw [fromUTF8?_toUTF8]
  rfl

/-- A text that was written is read back. -/
theorem readText_put {path : String} (h : t.placeOf path = .ok p) (text : String) :
    (t.put p (.file text.toUTF8)).readText path = .ok text := by
  have hfree := free_of_placeOf h
  apply readText_of_placeOf ((placeOf_put_iff hfree).2 h)
  rw [node?_put hfree.ne_nil, if_pos rfl]

end UcdTables.FileTree
