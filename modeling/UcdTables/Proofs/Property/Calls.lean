import UcdTables.Proofs.Code.Listed
import UcdTables.Proofs.Property.MergeOutcome

/-!
# Drafts gather what they are given

A draft is made by calls, each of which adds codes under a name. Calls of different names may come
in any order. What is left of them is, for each name, the codes of all calls of the name one after
the other, and the kind that the first of them gave.

* `Draft.entry?_run_of_find?`: what is gathered under one name, for any number of calls.
* `Draft.size_run`: the number of names.
* `Draft.gathers_run`: what a draft says of the calls that made it, and so does the map that it is
  merged into.
-/

namespace UcdTables

namespace Draft

/-- What can be asked of a draft. -/
inductive Call where
  /-- That a code is added. -/
  | push (kind : PropertyKind) (name : String) (code : Code)
  /-- That the codes of ranges are added, one range after the other. Any list of codes is that of
  ranges of one code each. -/
  | extend (kind : PropertyKind) (name : String) (ranges : List CodeRange)

namespace Call

/-- The kind that a call gives. -/
def kind : Call → PropertyKind
  | push kind _ _ => kind
  | extend kind _ _ => kind

/-- The name that a call goes to. -/
def name : Call → String
  | push _ name _ => name
  | extend _ name _ => name

/-- The codes that a call adds, in order. -/
def codes : Call → List Code
  | push _ _ code => [code]
  | extend _ _ ranges => ranges.flatMap CodeRange.codes

/-- A call as a mention of its name. -/
def mention : Call → Mention
  | push kind name code => ⟨kind, name, [.single code]⟩
  | extend kind name ranges => ⟨kind, name, ranges⟩

@[simp] theorem mention_name (call : Call) : call.mention.name = call.name := by
  cases call <;> rfl

@[simp] theorem mention_kind (call : Call) : call.mention.kind = call.kind := by
  cases call <;> rfl

@[simp] theorem codes_mention (call : Call) :
    call.mention.ranges.flatMap CodeRange.codes = call.codes := by
  cases call <;> simp [mention, codes]

end Call

/-- The draft after a call. -/
def apply (d : Draft) : Call → Draft
  | .push kind name code => d.push kind name code
  | .extend kind name ranges => d.extend kind name ranges

/-- The draft after calls one after the other. -/
def run (calls : List Call) : Draft := calls.foldl apply empty

/-- The codes that calls give under a name, in order. -/
def given (calls : List Call) (name : String) : List Code :=
  (calls.filter (·.name = name)).flatMap Call.codes

variable {calls : List Call} {call : Call} {name : String}

theorem run_eq_ofMentions (calls : List Call) :
    run calls = ofMentions (calls.map Call.mention) := by
  have hstep : apply = fun d call => d.mention call.mention := by
    funext d call
    cases call <;> rfl
  rw [run, ofMentions, List.foldl_map, hstep]

/-! ## What is gathered under a name -/

theorem entry?_run_eq_none_iff :
    entry? (run calls) name = none ↔ ∀ call ∈ calls, call.name ≠ name := by
  rw [run_eq_ofMentions, entry?_ofMentions]
  simp

/-- The entry of a name has the kind of the first call, and the codes of all calls. -/
theorem entry?_run_of_find? (h : calls.find? (·.name = name) = some call) :
    ∃ e, entry? (run calls) name = some e ∧ e.kind = call.kind ∧ e.codes = given calls name := by
  have hfind : (calls.map Call.mention).find? (·.name = name) = some call.mention := by
    rw [List.find?_map]
    simp only [Function.comp_def, Call.mention_name, h, Option.map_some]
  rw [run_eq_ofMentions, entry?_ofMentions, hfind]
  refine ⟨_, rfl, call.mention_kind, ?_⟩
  rw [DraftEntry.codes, List.toList_toArray, Mention.flatMap_codes_gathered]
  simp [given, List.filter_map, List.flatMap_map, Function.comp_def]

theorem get?_run_eq_none_iff :
    (run calls).get? name = none ↔ ∀ call ∈ calls, call.name ≠ name := by
  rw [get?, Option.map_eq_none_iff, entry?_run_eq_none_iff]

theorem get?_run_of_exists (h : ∃ call ∈ calls, call.name = name) :
    (run calls).get? name = some (given calls name) := by
  obtain ⟨call, hfind⟩ : ∃ call, calls.find? (·.name = name) = some call :=
    Option.isSome_iff_exists.1 (by simpa using h)
  obtain ⟨e, he, -, hcodes⟩ := entry?_run_of_find? hfind
  rw [get?, he, Option.map_some, hcodes]

/-! ## The names -/

theorem mem_names_run_iff :
    name ∈ (run calls).entries.map (·.name) ↔ name ∈ calls.map Call.name := by
  have hentry : name ∈ (run calls).entries.map (·.name) ↔ entry? (run calls) name ≠ none := by
    unfold entry?
    simp
  rw [hentry, Ne, entry?_run_eq_none_iff]
  simp

/-- Each name is counted once. -/
theorem size_run (calls : List Call) :
    (run calls).size = (calls.map Call.name).dedup.length := by
  have hperm : ((run calls).entries.map (·.name)).Perm (calls.map Call.name).dedup := by
    rw [List.perm_ext_iff_of_nodup (run calls).distinct (List.nodup_dedup _)]
    intro name
    rw [mem_names_run_iff, List.mem_dedup]
  rw [size, ← List.length_map (·.name), hperm.length_eq]

/-! ## The map -/

open PropertyMap in
/-- A draft can be merged into the empty map, whatever the order of its entries. Each entry becomes
the property of its codes. -/
theorem exists_mergeEntries_empty (d : Draft) :
    ∃ m, (∀ order : List DraftEntry, order.Perm d.entries →
        mergeEntries .empty order = (m, .ok ())) ∧
      (∀ e ∈ d.entries, m.find? e.name = some (.ofCodes e.kind e.codes)) ∧
      ∀ name, name ∉ d.entries.map (·.name) → m.find? name = none := by
  have honeKind : OneKind .empty d.entries := oneKind_of_agree d.distinct (by simp)
  obtain ⟨m, hm⟩ := exists_mergeEntries honeKind
  have hjoins := joins_mergeEntries d.distinct hm
  refine ⟨m, fun order horder => mergeEntries_congr honeKind hm (.of_perm horder.symm),
    fun e he => ?_, hjoins.others⟩
  obtain ⟨⟨kind, codes⟩, hp, rfl, -, hcodes⟩ := hjoins.joined e he
  have hset : codes = .ofCodes e.codes := by
    apply CodeSet.ext
    intro code
    rw [← CodeSet.mem_codes, hcodes code, CodeSet.mem_ofCodes]
    simp
  rw [hp, hset]
  rfl

/-- What a draft has gathered from the calls that made it. -/
structure Gathers (calls : List Call) (d : Draft) : Prop where
  /-- There is nothing under a name that no call goes to. -/
  absent : ∀ name, d.get? name = none ↔ ∀ call ∈ calls, call.name ≠ name
  /-- Under any other name there are the codes of all calls that go to it, in order and with
  repeats, whatever kinds they give; if these calls have no codes, then none. -/
  gathered : ∀ name, (∃ call ∈ calls, call.name = name) → d.get? name = some (given calls name)
  /-- Each name is counted once. -/
  size_eq : d.size = (calls.map Call.name).dedup.length
  /-- Merged into the empty map, in any order, the names are those of the calls. Each has the kind
  that the first call of the name gave, and the set of its codes. -/
  merged : ∃ m, (∀ order : List DraftEntry, order.Perm d.entries →
      PropertyMap.mergeEntries .empty order = (m, .ok ())) ∧
    (∀ name, m.find? name = none ↔ ∀ call ∈ calls, call.name ≠ name) ∧
    ∀ before call after, calls = before ++ call :: after →
      (∀ earlier ∈ before, earlier.name ≠ call.name) →
      m.find? call.name = some (.ofCodes call.kind (given calls call.name))

/-- Any calls one after the other leave a draft that has gathered what they gave. -/
theorem gathers_run (calls : List Call) : Gathers calls (run calls) := by
  refine Gathers.mk (fun _ => get?_run_eq_none_iff) (fun _ => get?_run_of_exists) (size_run calls)
    ?merged
  obtain ⟨m, hmerge, hheld, hfree⟩ := exists_mergeEntries_empty (run calls)
  refine ⟨m, hmerge, fun name => ?_, ?_⟩
  · have hname : (∀ call ∈ calls, call.name ≠ name) ↔
        name ∉ (run calls).entries.map (·.name) := by
      rw [mem_names_run_iff]
      simp
    rw [hname]
    refine ⟨fun hnone hmem => ?_, hfree name⟩
    obtain ⟨e, he, rfl⟩ := List.mem_map.1 hmem
    rw [hheld e he] at hnone
    cases hnone
  · rintro before call after rfl hfirst
    have hcall : (before ++ call :: after).find? (·.name = call.name) = some call := by
      have hbefore : before.find? (·.name = call.name) = none := by simpa using hfirst
      rw [List.find?_append, hbefore]
      simp
    obtain ⟨e, hentry, hkind, hcodes⟩ := entry?_run_of_find? hcall
    obtain ⟨he, hname⟩ := entry?_eq_some_iff.1 hentry
    rw [← hkind, ← hcodes, ← hname, hheld e he]

/-- Calls of one name may give different kinds, and repeat codes; a call without codes makes a
name. -/
example :
    let calls : List Call := [.extend .script "Thai" [], .push .script "Greek" 0x3B2,
      .extend .posixClass "Greek" [⟨0x3B1, 0x3B2⟩, ⟨0x3B9, 0x3B8⟩]]
    (run calls).get? "Thai" = some [] ∧ (run calls).get? "Greek" = some [0x3B2, 0x3B1, 0x3B2] ∧
      (run calls).size = 2 := by decide

end Draft

end UcdTables
