import Mathlib.Data.List.Induction
import UcdTables.Proofs.NameMap
import UcdTables.Table.Statistics

/-!
# Statistics record the calls

Statistics are made by calls, each of which asks for a block or counts a table in one. What is left
of the calls is one block for each label, numbered in the order in which the labels came up; and in
it the number of the tables counted, and for each name the description that was given last.

The numbers tell the blocks apart. So the text of the statistics is the same in whatever order the
blocks and their entries are kept.

* `Records.apply`, `records_run`: one call, and any number of them.
* `Records.text_eq`: the text of any enumeration.
* `account_run`: what statistics say of the calls that made them.
-/

namespace UcdTables.Statistics

/-- What can be asked of statistics. -/
inductive Call where
  /-- That there is a block of a label. -/
  | ensure (label : String)
  /-- That a table is counted in the block of a label. -/
  | add (label name description : String)

namespace Call

/-- The label that a call goes to. -/
def label : Call → String
  | ensure label => label
  | add label _ _ => label

/-- Whether a call counts a table. -/
def counts : Call → Bool
  | ensure _ => false
  | add _ _ _ => true

/-- The name and the description that a call gives under a label, if it does so. -/
def entry? (label : String) : Call → Option (String × String)
  | ensure _ => none
  | add key name description => if key = label then some (name, description) else none

end Call

/-- The statistics after a call. -/
def apply (s : Statistics) : Call → Statistics
  | .ensure label => s.ensure label
  | .add label name description => s.add label name description

/-- The statistics after calls one after the other. -/
def run (calls : List Call) : Statistics := calls.foldl apply empty

/-- The names and descriptions that calls give under a label, in order. -/
def given (calls : List Call) (label : String) : List (String × String) :=
  calls.filterMap (Call.entry? label)

/-- The description that calls give last under a label for a name. -/
def lastGiven (calls : List Call) (label name : String) : Option String :=
  ((given calls label).findRev? (·.1 = name)).map (·.2)

/-- What statistics keep of the calls that made them. -/
structure Records (calls : List Call) (s : Statistics) : Prop where
  /-- The blocks stand in the order in which their labels came up. -/
  labels : s.blocks.map (·.label) = (calls.map Call.label).eraseDups
  /-- No label has two blocks. -/
  distinct : (s.blocks.map (·.label)).Nodup
  /-- The blocks are numbered in that order, from 1 on. -/
  orders : s.blocks.map (·.order) = List.range' 1 s.blocks.length
  /-- A block counts the tables of its label. -/
  count : ∀ b ∈ s.blocks, b.count = (given calls b.label).length
  /-- For each name, a block has the description that was given last. -/
  entries : ∀ b ∈ s.blocks, ∀ name, b.entries.find? name = lastGiven calls b.label name
  /-- All blocks together count all tables. -/
  total : s.total = calls.countP Call.counts

variable {s : Statistics} {calls : List Call} {label name description : String}

/-! ## Calls -/

theorem label_mem_of_mem_given {e : String × String} (h : e ∈ given calls label) :
    label ∈ calls.map Call.label := by
  obtain ⟨call, hcall, he⟩ := List.mem_filterMap.1 h
  cases call with
  | ensure _ => cases he
  | add key name description =>
    by_cases hkey : key = label
    · exact List.mem_map.2 ⟨_, hcall, hkey⟩
    · simp [Call.entry?, hkey] at he

theorem given_eq_nil (h : label ∉ calls.map Call.label) : given calls label = [] :=
  List.eq_nil_iff_forall_not_mem.2 fun _ he => h (label_mem_of_mem_given he)

@[simp] theorem given_concat_ensure (calls : List Call) (key label : String) :
    given (calls ++ [.ensure key]) label = given calls label := by
  simp [given, Call.entry?]

theorem given_concat_add (calls : List Call) (key name description label : String) :
    given (calls ++ [.add key name description]) label =
      given calls label ++ if key = label then [(name, description)] else [] := by
  by_cases hkey : key = label
  · simp [given, Call.entry?, hkey]
  · simp [given, Call.entry?, hkey]

@[simp] theorem lastGiven_concat_ensure (calls : List Call) (key label name : String) :
    lastGiven (calls ++ [.ensure key]) label name = lastGiven calls label name := by
  rw [lastGiven, given_concat_ensure, lastGiven]

theorem lastGiven_concat_add (calls : List Call) (key name description label other : String) :
    lastGiven (calls ++ [.add key name description]) label other =
      if key = label ∧ other = name then some description else lastGiven calls label other := by
  rw [lastGiven, given_concat_add, lastGiven]
  by_cases hkey : key = label
  · by_cases hname : other = name
    · simp [hkey, hname]
    · simp [hkey, hname, Ne.symm hname]
  · simp [hkey]

theorem run_append (calls more : List Call) : run (calls ++ more) = more.foldl apply (run calls) :=
  List.foldl_append

/-! ## A block for a label -/

theorem ensure_of_mem (h : label ∈ s.blocks.map (·.label)) : s.ensure label = s := by
  have hany : s.blocks.any (·.label = label) = true := by simpa using h
  rw [ensure, if_pos hany]

theorem ensure_of_not_mem (h : label ∉ s.blocks.map (·.label)) :
    s.ensure label = ⟨s.blocks ++ [⟨label, s.nextOrder, 0, .empty⟩]⟩ := by
  have hany : ¬ s.blocks.any (·.label = label) = true := by simpa using h
  rw [ensure, if_neg hany]

theorem label_mem_ensure (s : Statistics) (label : String) :
    label ∈ (s.ensure label).blocks.map (·.label) := by
  by_cases h : label ∈ s.blocks.map (·.label)
  · rwa [ensure_of_mem h]
  · simp [ensure_of_not_mem h]

theorem foldl_max_range' (n : Nat) : (List.range' 1 n).foldl max 0 = n := by
  induction n with
  | zero => rfl
  | succ n ih =>
    rw [List.range'_1_concat, List.foldl_append, ih]
    simp only [List.foldl_cons, List.foldl_nil]
    omega

/-- Blocks that are numbered from 1 on have as many numbers as there are blocks. -/
theorem nextOrder_eq (h : s.blocks.map (·.order) = List.range' 1 s.blocks.length) :
    s.nextOrder = s.blocks.length + 1 := by
  rw [nextOrder, h, foldl_max_range']

theorem Records.mem_labels_iff (h : Records calls s) :
    label ∈ s.blocks.map (·.label) ↔ label ∈ calls.map Call.label := by
  rw [h.labels, List.mem_eraseDups]

theorem eraseDups_concat_of_mem {as : List String} {a : String} (h : a ∈ as) :
    (as ++ [a]).eraseDups = as.eraseDups := by
  simp [List.eraseDups_append, List.cons_removeAll, h]

theorem eraseDups_concat_of_not_mem {as : List String} {a : String} (h : a ∉ as) :
    (as ++ [a]).eraseDups = as.eraseDups ++ [a] := by
  simp [List.eraseDups_append, List.cons_removeAll, List.eraseDups_cons, h]

/-- A new label gets the next number, and an old one keeps its own. -/
theorem Records.ensure (h : Records calls s) (label : String) :
    Records (calls ++ [.ensure label]) (s.ensure label) := by
  have hcounts : (calls ++ [Call.ensure label]).countP Call.counts = calls.countP Call.counts := by
    simp [Call.counts]
  by_cases hold : label ∈ s.blocks.map (·.label)
  · have hcalled := h.mem_labels_iff.1 hold
    rw [ensure_of_mem hold]
    refine Records.mk ?_ h.distinct h.orders (by simpa using h.count) (by simpa using h.entries)
      (hcounts ▸ h.total)
    rw [List.map_append, List.map_singleton, Call.label, eraseDups_concat_of_mem hcalled, h.labels]
  · have hcalled : label ∉ calls.map Call.label := fun hmem => hold (h.mem_labels_iff.2 hmem)
    rw [ensure_of_not_mem hold]
    refine Records.mk ?labels ?distinct ?orders ?count ?entries ?total
    case labels =>
      rw [List.map_append, List.map_append, List.map_singleton, List.map_singleton, Call.label,
        eraseDups_concat_of_not_mem hcalled, h.labels]
    case distinct =>
      rw [List.map_append, List.map_singleton, List.nodup_append]
      refine ⟨h.distinct, List.nodup_singleton _, fun a ha b hb => ?_⟩
      obtain rfl := List.mem_singleton.1 hb
      exact fun hab => hold (hab ▸ ha)
    case orders =>
      simp only [List.map_append, h.orders, List.map_singleton, nextOrder_eq h.orders,
        List.length_append, List.length_singleton, List.range'_1_concat, Nat.add_comm 1]
    case count =>
      intro b hb
      rcases List.mem_append.1 hb with hb | hb
      · rw [given_concat_ensure, h.count b hb]
      · obtain rfl := List.mem_singleton.1 hb
        rw [given_concat_ensure, given_eq_nil hcalled]
        rfl
    case entries =>
      intro b hb name
      rcases List.mem_append.1 hb with hb | hb
      · rw [lastGiven_concat_ensure, h.entries b hb]
      · obtain rfl := List.mem_singleton.1 hb
        rw [lastGiven_concat_ensure, lastGiven, given_eq_nil hcalled]
        rfl
    case total =>
      rw [hcounts, ← h.total]
      simp [Statistics.total]

/-! ## A table counted in a block -/

/-- The block with a table counted, if it has the label. -/
def countIn (label name description : String) (b : StatisticsBlock) : StatisticsBlock :=
  if b.label = label then b.add name description else b

theorem add_eq (s : Statistics) (label name description : String) :
    s.add label name description =
      ⟨(s.ensure label).blocks.map (countIn label name description)⟩ := rfl

theorem countIn_of_ne {b : StatisticsBlock} (h : b.label ≠ label) :
    countIn label name description b = b := if_neg h

@[simp] theorem label_countIn (b : StatisticsBlock) :
    (countIn label name description b).label = b.label := by
  unfold countIn
  split <;> rfl

@[simp] theorem order_countIn (b : StatisticsBlock) :
    (countIn label name description b).order = b.order := by
  unfold countIn
  split <;> rfl

theorem map_countIn_of_not_mem {bs : List StatisticsBlock} (h : label ∉ bs.map (·.label)) :
    bs.map (countIn label name description) = bs := by
  have hsame : ∀ b ∈ bs, countIn label name description b = b := fun b hb =>
    countIn_of_ne fun hlabel => h (List.mem_map.2 ⟨b, hb, hlabel⟩)
  rw [List.map_congr_left hsame, List.map_id']

/-- A table is counted once. -/
theorem total_map_countIn {bs : List StatisticsBlock} (hdistinct : (bs.map (·.label)).Nodup)
    (hmem : label ∈ bs.map (·.label)) :
    total ⟨bs.map (countIn label name description)⟩ = total ⟨bs⟩ + 1 := by
  have hcons : ∀ (b : StatisticsBlock) (bs : List StatisticsBlock),
      total ⟨b :: bs⟩ = b.count + total ⟨bs⟩ := fun _ _ => rfl
  induction bs with
  | nil => cases hmem
  | cons b bs ih =>
    rw [List.map_cons, List.nodup_cons] at hdistinct
    rw [List.map_cons, hcons, hcons]
    by_cases hb : b.label = label
    · have hcount : (b.add name description).count = b.count + 1 := rfl
      rw [map_countIn_of_not_mem (hb ▸ hdistinct.1), countIn, if_pos hb, hcount]
      omega
    · have hrest : label ∈ bs.map (·.label) := by
        simpa [Ne.symm hb] using hmem
      rw [ih hdistinct.2 hrest, countIn_of_ne hb]
      omega

/-- A table is counted in the block of its label, and described there. -/
theorem Records.add (h : Records calls s) (label name description : String) :
    Records (calls ++ [.add label name description]) (s.add label name description) := by
  have hensured := h.ensure label
  have hlabels : ((s.ensure label).blocks.map (countIn label name description)).map (·.label) =
      (s.ensure label).blocks.map (·.label) := by
    simp [Function.comp_def]
  rw [add_eq]
  refine Records.mk ?labels ?distinct ?orders ?count ?entries ?total
  case labels =>
    rw [hlabels, hensured.labels]
    simp [Call.label]
  case distinct =>
    rw [hlabels]
    exact hensured.distinct
  case orders =>
    rw [List.length_map, ← hensured.orders]
    simp [Function.comp_def]
  case count =>
    intro c hc
    obtain ⟨b, hb, rfl⟩ := List.mem_map.1 hc
    have hcount := hensured.count b hb
    rw [given_concat_ensure] at hcount
    rw [label_countIn, given_concat_add, List.length_append, ← hcount]
    by_cases hlabel : b.label = label
    · simp [countIn, StatisticsBlock.add, hlabel]
    · simp [countIn, hlabel, Ne.symm hlabel]
  case entries =>
    intro c hc other
    obtain ⟨b, hb, rfl⟩ := List.mem_map.1 hc
    have hentries := hensured.entries b hb other
    rw [lastGiven_concat_ensure] at hentries
    rw [label_countIn, lastGiven_concat_add, ← hentries]
    by_cases hlabel : b.label = label
    · simp [countIn, StatisticsBlock.add, hlabel, NameMap.find?_insert]
    · simp [countIn, hlabel, Ne.symm hlabel]
  case total =>
    rw [total_map_countIn hensured.distinct (label_mem_ensure s label), hensured.total]
    simp [Call.counts]

/-! ## Calls one after the other -/

theorem Records.apply (h : Records calls s) (call : Call) :
    Records (calls ++ [call]) (s.apply call) := by
  cases call with
  | ensure label => exact h.ensure label
  | add label name description => exact h.add label name description

theorem records_run (calls : List Call) : Records calls (run calls) := by
  induction calls using List.reverseRecOn with
  | nil => exact ⟨rfl, .nil, rfl, nofun, nofun, rfl⟩
  | append_singleton calls call ih =>
    rw [run_append]
    exact ih.apply call

/-! ## Names and numbers -/

theorem mem_given_of_lastGiven (h : lastGiven calls label name = some description) :
    (name, description) ∈ given calls label := by
  rw [lastGiven, List.findRev?_eq_find?_reverse, Option.map_eq_some_iff] at h
  obtain ⟨⟨other, _⟩, hfound, rfl⟩ := h
  obtain rfl : other = name := by simpa using List.find?_some hfound
  exact List.mem_reverse.1 (List.mem_of_find?_eq_some hfound)

theorem exists_lastGiven_iff :
    (∃ description, lastGiven calls label name = some description) ↔
      name ∈ (given calls label).map (·.1) := by
  constructor
  · rintro ⟨description, h⟩
    exact List.mem_map.2 ⟨_, mem_given_of_lastGiven h, rfl⟩
  · intro hname
    obtain ⟨e, he, rfl⟩ := List.mem_map.1 hname
    rw [lastGiven, List.findRev?_eq_find?_reverse]
    cases hfound : (given calls label).reverse.find? (·.1 = e.1) with
    | none => simpa using List.find?_eq_none.1 hfound e (by simpa using he)
    | some last => exact ⟨last.2, rfl⟩

/-- If no name comes twice, what is given for a name is what is given last. -/
theorem lastGiven_eq_some (hdistinct : ((given calls label).map (·.1)).Nodup)
    (h : (name, description) ∈ given calls label) :
    lastGiven calls label name = some description := by
  obtain ⟨last, hlast⟩ := exists_lastGiven_iff.2 (List.mem_map.2 ⟨_, h, rfl⟩)
  have hsame := List.inj_on_of_nodup_map hdistinct (mem_given_of_lastGiven hlast) h rfl
  rw [hlast, (Prod.mk.inj hsame).2]

/-- A block has one entry for each name, however often tables of the name are counted. -/
theorem Records.size_entries (h : Records calls s) {b : StatisticsBlock} (hb : b ∈ s.blocks) :
    b.entries.size ≤ b.count ∧
      (b.entries.size = b.count ↔ ((given calls b.label).map (·.1)).Nodup) := by
  have hnames : ∀ name, name ∈ b.entries.names ↔ name ∈ (given calls b.label).map (·.1) := by
    intro name
    rw [NameMap.mem_names_iff, h.entries b hb, exists_lastGiven_iff]
  rw [h.count b hb, ← List.length_map (·.1)]
  exact NameMap.size_le_of_names hnames

/-- A call leaves the blocks that are there with their numbers. -/
theorem exists_block_apply {b : StatisticsBlock} (hb : b ∈ s.blocks) (call : Call) :
    ∃ c ∈ (s.apply call).blocks, c.label = b.label ∧ c.order = b.order := by
  have hensured : ∀ label, b ∈ (s.ensure label).blocks := by
    intro label
    by_cases h : label ∈ s.blocks.map (·.label)
    · rwa [ensure_of_mem h]
    · simp [ensure_of_not_mem h, hb]
  cases call with
  | ensure label => exact ⟨b, hensured label, rfl, rfl⟩
  | add label name description =>
    refine ⟨countIn label name description b, ?_, label_countIn b, order_countIn b⟩
    exact List.mem_map_of_mem (hensured label)

theorem exists_block_foldl_apply {b : StatisticsBlock} (hb : b ∈ s.blocks) (more : List Call) :
    ∃ c ∈ (more.foldl apply s).blocks, c.label = b.label ∧ c.order = b.order := by
  induction more generalizing s b with
  | nil => exact ⟨b, hb, rfl, rfl⟩
  | cons call more ih =>
    obtain ⟨c, hc, hlabel, horder⟩ := exists_block_apply hb call
    obtain ⟨d, hd, hlabel', horder'⟩ := ih hc
    exact ⟨d, hd, hlabel'.trans hlabel, horder'.trans horder⟩

/-! ## The text -/

/-- Blocks in some order, each beside its entries in some order. -/
abbrev Enumeration := List (StatisticsBlock × List (String × String))

namespace Enumeration

/-- All blocks of statistics are there with all their entries. -/
structure Enumerates (l : Enumeration) (s : Statistics) : Prop where
  blocks : (l.map (·.1)).Perm s.blocks
  entries : ∀ e ∈ l, e.2.Perm e.1.entries.entries

/-- The text of an enumeration: the blocks are put in the order of their numbers, and the entries
of each in the order of their names. -/
def text (l : Enumeration) : String :=
  let sorted := l.mergeSort (·.1.order ≤ ·.1.order)
  String.join (sorted.map (·.1.header)) ++ "\n" ++
    String.join (sorted.map fun (b, entries) =>
      let named := entries.mergeSort (·.1 ≤ ·.1)
      b.header ++ "\n" ++
        String.join (named.map fun (name, description) =>
          StatisticsBlock.entryLine name description) ++ "\n")

end Enumeration

theorem Records.pairwise_order (h : Records calls s) :
    s.blocks.Pairwise fun b c => b.order < c.order := by
  have hpairwise : (s.blocks.map (·.order)).Pairwise (· < ·) := by
    rw [h.orders]
    exact List.pairwise_lt_range' 1
  exact List.pairwise_map.1 hpairwise

theorem pairwise_mergeSort_key {α β : Type} [LE β] [DecidableLE β] [Std.IsLinearOrder β]
    (key : α → β) (as : List α) :
    (as.mergeSort (key · ≤ key ·)).Pairwise fun a b => key a ≤ key b := by
  have hsorted : (as.mergeSort (key · ≤ key ·)).Pairwise fun a b => decide (key a ≤ key b) := by
    apply List.pairwise_mergeSort
    · intro a b c hab hbc
      simp only [decide_eq_true_eq] at hab hbc ⊢
      exact Std.le_trans hab hbc
    · intro a b
      simpa using Std.le_total
  simpa using hsorted

/-- A list that is put in ascending order of keys, if there is but one way to do so. -/
theorem mergeSort_key_eq {α β : Type} [LE β] [LT β] [DecidableLE β] [Std.LawfulOrderLT β]
    [Std.IsLinearOrder β] {key : α → β} {as bs : List α} (hperm : as.Perm bs)
    (hbs : bs.Pairwise fun a b => key a < key b) : as.mergeSort (key · ≤ key ·) = bs :=
  eq_of_perm_of_ascending key ((List.mergeSort_perm as _).trans hperm)
    (pairwise_mergeSort_key key as) hbs

/-- The blocks are kept in the order of their numbers. -/
theorem Records.inOrder_eq (h : Records calls s) : s.inOrder = s.blocks :=
  mergeSort_key_eq (.refl _) h.pairwise_order

/-- The order in which blocks and entries are kept leaves no trace in the text. -/
theorem Records.text_eq (h : Records calls s) {l : Enumeration} (hl : l.Enumerates s) :
    l.text = s.text := by
  have hblocks : (l.mergeSort (·.1.order ≤ ·.1.order)).map (·.1) = s.blocks := by
    apply eq_of_perm_of_ascending (·.order) _ _ h.pairwise_order
    · exact ((List.mergeSort_perm l _).map _).trans hl.blocks
    · exact List.pairwise_map.2 (pairwise_mergeSort_key (fun e => e.1.order) l)
  have hentries : ∀ e ∈ l, e.2.mergeSort (·.1 ≤ ·.1) = e.1.entries.entries := fun e he =>
    mergeSort_key_eq (hl.entries e he) e.1.entries.sorted
  rw [Statistics.text, h.inOrder_eq, ← hblocks, List.map_map, List.map_map, Enumeration.text]
  congr 2
  apply List.map_congr_left
  intro e he
  simp only [hentries e (List.mem_mergeSort.1 he)]
  rfl

/-! ## Statistics after any calls -/

/-- What statistics say of the calls that made them. -/
structure Account (calls : List Call) (s : Statistics) : Prop extends Records calls s where
  /-- A block has no more entries than tables, and as many only if no name came twice. -/
  names : ∀ b ∈ s.blocks, b.entries.size ≤ b.count ∧
    (b.entries.size = b.count ↔ ((given calls b.label).map (·.1)).Nodup)
  /-- Whatever is called next, each block stays, with its number. -/
  kept : ∀ more : List Call, ∀ b ∈ s.blocks, ∃ c ∈ (run (calls ++ more)).blocks,
    c.label = b.label ∧ c.order = b.order
  /-- The text has a line for each block, and then the blocks with that line and a line for each
  entry, in the order of their numbers. -/
  text : s.text =
    String.join (s.blocks.map fun b =>
        toString b.order ++ ". " ++ b.label ++ " (" ++ toString b.count ++ ")\n") ++ "\n" ++
      String.join (s.blocks.map fun b =>
        toString b.order ++ ". " ++ b.label ++ " (" ++ toString b.count ++ ")\n" ++ "\n" ++
          String.join (b.entries.entries.map fun (name, description) =>
            name ++ " - " ++ description ++ "\n") ++ "\n")
  /-- It does not depend on the order in which the blocks and their entries are kept. -/
  anyOrder : ∀ l : Enumeration, l.Enumerates s → l.text = s.text

/-- Any calls one after the other leave statistics that record them, and the text of which is the
same in whatever order the blocks and their entries are kept. -/
theorem account_run (calls : List Call) : Account calls (run calls) := by
  have h := records_run calls
  refine Account.mk h (fun _ => h.size_entries) ?kept ?text (fun _ => h.text_eq)
  case kept =>
    intro more b hb
    rw [run_append]
    exact exists_block_foldl_apply hb more
  case text =>
    rw [Statistics.text, h.inOrder_eq]
    rfl

end UcdTables.Statistics
