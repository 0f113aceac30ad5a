import Mathlib.Data.List.Induction
import Mathlib.Data.List.TakeWhile
import UcdTables.Proofs.Code.Listed

/-!
# Taking codes away in one pass

The codes that one ascending list has and another does not are found in one pass over both lists.
Before a code of the first list is decided, the codes of the second that lie below it are dropped.
They are never needed again, as they lie below all codes to come. A code that is equal is not
dropped: it lies below the next code and is dropped then.

Of ranges, the same is done with whole ranges at a time. On ranges of one code each the two are one.

* `Pass.Invariant.step`, `Pass.invariant_run_start`: what a pass knows after one more code, and
  after any number of them.
* `CodeRange.subtract_map_single`: ranges of one code each.
* `CodeSet.difference_inOnePass`: the difference of two sets, code by code.
-/

namespace UcdTables

variable {cs ms passed : List Code} {code : Code}

/-- Whether an ascending list has a code is seen at the first of its codes that is not below. -/
theorem mem_iff_head?_dropWhile (hms : ms.Pairwise (· < ·)) :
    code ∈ ms ↔ (ms.dropWhile (· < code)).head? = some code := by
  induction ms with
  | nil => simp
  | cons m ms ih =>
    obtain ⟨hlater, hms⟩ := List.pairwise_cons.1 hms
    by_cases hlt : m < code
    · have hne : code ≠ m := (Std.ne_of_lt hlt).symm
      rw [List.dropWhile_cons_of_pos (by simpa using hlt), ← ih hms]
      simp [hne]
    · rw [List.dropWhile_cons_of_neg (by simpa using hlt), List.head?_cons, Option.some.injEq]
      constructor
      · intro hmem
        rcases List.mem_cons.1 hmem with rfl | hmem
        · rfl
        · exact absurd (hlater code hmem) hlt
      · rintro rfl
        exact List.mem_cons_self

/-! ## The pass -/

/-- A pass over two lists of codes: what is kept of the first so far, and what is still ahead of
the second. -/
structure Pass where
  kept : List Code
  ahead : List Code
  deriving DecidableEq

namespace Pass

variable {p : Pass}

/-- The pass before the first code. -/
def start (ms : List Code) : Pass := ⟨[], ms⟩

/-- Decides a code of the first list: codes ahead that lie below it are dropped, and it is kept
unless it is the next code ahead. -/
def step (p : Pass) (code : Code) : Pass :=
  let ahead := p.ahead.dropWhile (· < code)
  ⟨if ahead.head? = some code then p.kept else p.kept ++ [code], ahead⟩

/-- Decides the codes of a list one after the other. -/
def run (p : Pass) (cs : List Code) : Pass := cs.foldl step p

theorem run_append (p : Pass) (cs ds : List Code) : p.run (cs ++ ds) = (p.run cs).run ds :=
  List.foldl_append

/-- What is ahead only gets shorter, from its front. -/
theorem ahead_run_suffix (p : Pass) (cs : List Code) : (p.run cs).ahead <:+ p.ahead := by
  induction cs generalizing p with
  | nil => exact List.suffix_rfl
  | cons code cs ih => exact (ih (p.step code)).trans (List.dropWhile_suffix _)

/-- What a pass knows after the codes `passed` of the first list. -/
structure Invariant (ms passed : List Code) (p : Pass) : Prop where
  /-- Those that the second list does not have are kept. -/
  kept : p.kept = passed.filter (· ∉ ms)
  /-- What is no longer ahead lies below one of them. -/
  dropped : ∃ dropped, ms = dropped ++ p.ahead ∧ ∀ d ∈ dropped, ∃ c ∈ passed, d < c

theorem invariant_start (ms : List Code) : Invariant ms [] (start ms) :=
  ⟨rfl, [], rfl, by simp⟩

/-- What is dropped already lies below the code, so that it is enough to look ahead. -/
theorem Invariant.mem_iff (h : Invariant ms passed p) (hms : ms.Pairwise (· < ·))
    (hcode : ∀ c ∈ passed, c < code) :
    code ∈ ms ↔ (p.ahead.dropWhile (· < code)).head? = some code := by
  obtain ⟨dropped, rfl, hdropped⟩ := h.dropped
  have hnot : code ∉ dropped := by
    intro hmem
    obtain ⟨c, hc, hlt⟩ := hdropped code hmem
    exact UInt32.lt_asymm hlt (hcode c hc)
  rw [← mem_iff_head?_dropWhile (List.pairwise_append.1 hms).2.1, List.mem_append,
    or_iff_right hnot]

theorem Invariant.step (h : Invariant ms passed p) (hms : ms.Pairwise (· < ·))
    (hcode : ∀ c ∈ passed, c < code) : Invariant ms (passed ++ [code]) (p.step code) := by
  have hmem := h.mem_iff hms hcode
  refine Invariant.mk ?kept ?dropped
  case kept =>
    rw [Pass.step, List.filter_append, ← h.kept]
    by_cases hahead : (p.ahead.dropWhile (· < code)).head? = some code
    · simp [hahead, hmem.2 hahead]
    · simp [hahead, mt hmem.1 hahead]
  case dropped =>
    obtain ⟨dropped, heq, hdropped⟩ := h.dropped
    refine ⟨dropped ++ p.ahead.takeWhile (· < code), ?_, fun d hd => ?_⟩
    · rw [Pass.step, List.append_assoc, List.takeWhile_append_dropWhile, heq]
    · rcases List.mem_append.1 hd with hd | hd
      · obtain ⟨c, hc, hlt⟩ := hdropped d hd
        exact ⟨c, List.mem_append_left _ hc, hlt⟩
      · exact ⟨code, by simp, by simpa using List.mem_takeWhile_imp hd⟩

theorem invariant_run_start (hcs : cs.Pairwise (· < ·)) (hms : ms.Pairwise (· < ·)) :
    Invariant ms cs ((start ms).run cs) := by
  induction cs using List.reverseRecOn with
  | nil => exact invariant_start ms
  | append_singleton cs code ih =>
    obtain ⟨hcs, -, hbelow⟩ := List.pairwise_append.1 hcs
    rw [run_append]
    exact (ih hcs).step hms fun c hc => hbelow c hc code (by simp)

end Pass

/-! ## Ranges of one code each -/

namespace CodeRange

variable {m : Code}

/-- Of two ranges of one code each, the lower one is decided; an equal code of the second list is
not dropped yet. -/
theorem subtract_single_cons (c m : Code) (rs ss : List CodeRange) :
    subtract (single c :: rs) (single m :: ss) =
      if m < c then subtract (single c :: rs) ss
      else if c < m then single c :: subtract rs (single m :: ss)
      else subtract rs (single m :: ss) := by
  rw [subtract]
  change (if m < c then _ else if c < m then _ else if m < c then _ else _) = _
  by_cases hdrop : m < c
  · rw [if_pos hdrop, if_pos hdrop]
  · have hbelow : (single c).below (single m).first = if c < m then [⟨c, m - 1⟩] else [] := rfl
    rw [if_neg hdrop, if_neg hdrop, if_neg hdrop, hbelow]
    by_cases hkeep : c < m
    · rw [if_pos hkeep, if_pos hkeep]
    · rw [if_neg hkeep, if_neg hkeep, if_neg hkeep, List.nil_append]

/-- What lies below all codes of a list can be dropped. -/
theorem filter_not_mem_cons (h : ∀ code ∈ cs, m < code) :
    cs.filter (· ∉ m :: ms) = cs.filter (· ∉ ms) := by
  apply List.filter_congr
  intro code hcode
  have hne : code ≠ m := (Std.ne_of_lt (h code hcode)).symm
  simp [hne]

/-- Of ranges of one code each, those are left whose code the second list does not have. -/
theorem subtract_map_single (hcs : cs.Pairwise (· < ·)) (hms : ms.Pairwise (· < ·)) :
    subtract (cs.map single) (ms.map single) = (cs.filter (· ∉ ms)).map single := by
  induction cs generalizing ms with
  | nil => simp [subtract]
  | cons c cs ih =>
    obtain ⟨hc, hcs'⟩ := List.pairwise_cons.1 hcs
    induction ms with
    | nil => simp [subtract]
    | cons m ms ihm =>
      obtain ⟨hm, hms'⟩ := List.pairwise_cons.1 hms
      have hrest := ih hcs' hms
      rw [List.map_cons] at hrest
      rw [List.map_cons, List.map_cons, subtract_single_cons]
      by_cases hdrop : m < c
      · have hbelow : ∀ code ∈ c :: cs, m < code :=
          List.forall_mem_cons.2 ⟨hdrop, fun code hcode => Std.lt_trans hdrop (hc code hcode)⟩
        rw [if_pos hdrop, filter_not_mem_cons hbelow]
        exact ihm hms'
      · rw [if_neg hdrop, hrest]
        by_cases hkeep : c < m
        · have hnot : c ∉ m :: ms := by
            intro hmem
            rcases List.mem_cons.1 hmem with rfl | hmem
            · exact Std.lt_irrefl hkeep
            · exact UInt32.lt_asymm hkeep (hm c hmem)
          rw [if_pos hkeep, List.filter_cons_of_pos (by simpa using hnot), List.map_cons]
        · obtain rfl : c = m := UInt32.le_antisymm (UInt32.not_lt.1 hdrop) (UInt32.not_lt.1 hkeep)
          rw [if_neg hkeep, List.filter_cons_of_neg (by simp)]

end CodeRange

/-! ## The difference of two sets -/

/-- The codes of one ascending list that another does not have, found in one pass. -/
structure InOnePass (cs ms left : List Code) : Prop where
  /-- They are the codes of the first list that do not occur in the second. -/
  eq_filter : left = cs.filter (· ∉ ms)
  /-- They stand in the order of the first list. -/
  sublist : left.Sublist cs
  /-- They ascend. -/
  ascending : left.Pairwise (· < ·)
  /-- A pass over both lists keeps them. -/
  kept : ((Pass.start ms).run cs).kept = left
  /-- So does taking away ranges of one code each. -/
  ranges : CodeRange.subtract (cs.map .single) (ms.map .single) = left.map .single
  /-- At any time, the codes that the pass has dropped lie below all codes to come. -/
  dropped : ∀ before after, cs = before ++ after → ∃ dropped,
    ms = dropped ++ ((Pass.start ms).run before).ahead ∧ ∀ d ∈ dropped, ∀ code ∈ after, d < code
  /-- From any time on, no code comes back that was dropped before. -/
  forwards : ∀ before middle after, cs = before ++ middle ++ after →
    ((Pass.start ms).run (before ++ middle)).ahead <:+ ((Pass.start ms).run before).ahead

/-- The difference of the sets of two ascending lists has the codes that one pass finds. -/
theorem CodeSet.difference_inOnePass (hcs : cs.Pairwise (· < ·)) (hms : ms.Pairwise (· < ·)) :
    InOnePass cs ms ((ofCodes cs).difference (ofCodes ms)).codes := by
  have hleft : ((ofCodes cs).difference (ofCodes ms)).codes = cs.filter (· ∉ ms) := by
    apply codes_eq_of_ascending (hcs.filter _)
    intro code
    simp
  rw [hleft]
  refine InOnePass.mk rfl List.filter_sublist (hcs.filter _) (Pass.invariant_run_start hcs hms).kept
    (CodeRange.subtract_map_single hcs hms) ?dropped ?forwards
  case dropped =>
    rintro before after rfl
    obtain ⟨hbefore, -, hbelow⟩ := List.pairwise_append.1 hcs
    obtain ⟨dropped, heq, hdropped⟩ := (Pass.invariant_run_start hbefore hms).dropped
    refine ⟨dropped, heq, fun d hd code hcode => ?_⟩
    obtain ⟨c, hc, hlt⟩ := hdropped d hd
    exact Std.lt_trans hlt (hbelow c hc code hcode)
  case forwards =>
    rintro before middle after -
    rw [Pass.run_append]
    exact Pass.ahead_run_suffix _ middle

/-- Codes are taken away at both ends and in the middle, and one that is not there. -/
theorem CodeSet.difference_inOnePass_holes :
    let cs : List Code := [0, 1, 2, 3, 4, 5, 6, 7, 8, 9]
    let ms : List Code := [0, 4, 6, 7, 9, 12]
    cs.Pairwise (· < ·) ∧ ms.Pairwise (· < ·) ∧ InOnePass cs ms [1, 2, 3, 5, 8] := by
  intro cs ms
  have hcs : cs.Pairwise (· < ·) := by decide
  have hms : ms.Pairwise (· < ·) := by decide
  have h := difference_inOnePass hcs hms
  have hleft : cs.filter (· ∉ ms) = [1, 2, 3, 5, 8] := by decide
  rw [h.eq_filter, hleft] at h
  exact ⟨hcs, hms, h⟩

end UcdTables
