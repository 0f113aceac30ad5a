import UcdTables.Code.Canonical
import UcdTables.Property.Kind

/-!
# Drafts of properties

A draft gathers codes under names. They come in any order and as often as they like, and are kept
as they came, in ranges. A name has the kind that it was first mentioned with.

* `Draft.extend` adds ranges of codes under a name.
* `Draft.get?` gives the codes gathered under a name.
-/

namespace UcdTables

/-- What is gathered under one name. -/
structure DraftEntry where
  name : String
  kind : PropertyKind
  ranges : Array CodeRange

namespace DraftEntry

/-- The codes in the order in which they came. -/
def codes (e : DraftEntry) : List Code := e.ranges.toList.flatMap CodeRange.codes

/-- The number of codes, with repeats. -/
def count (e : DraftEntry) : Nat := CodeRange.totalSize e.ranges.toList

/-- The codes in the order in which they came, as ranges; a code that directly follows the one
before it is in the same range. -/
def runs (e : DraftEntry) : List CodeRange := CodeRange.joinAdjacent e.ranges.toList

end DraftEntry

/-- What is gathered so far, in the order in which the names were first mentioned. -/
structure Draft where
  entries : List DraftEntry
  distinct : (entries.map (·.name)).Nodup

namespace Draft

/-- The draft that mentions no name. -/
def empty : Draft := ⟨[], .nil⟩

/-- Adds ranges to the entry of a name, or else a new entry at the end. -/
def extendEntries (kind : PropertyKind) (name : String) (ranges : List CodeRange) :
    List DraftEntry → List DraftEntry
  | [] => [⟨name, kind, ranges.toArray⟩]
  | e :: es =>
    if e.name = name then { e with ranges := e.ranges ++ ranges } :: es
    else e :: extendEntries kind name ranges es

theorem map_name_extendEntries (kind : PropertyKind) (name : String) (ranges : List CodeRange)
    (es : List DraftEntry) :
    (extendEntries kind name ranges es).map (·.name) =
      if name ∈ es.map (·.name) then es.map (·.name) else es.map (·.name) ++ [name] := by
  induction es with
  | nil => rfl
  | cons e es ih =>
    rw [extendEntries]
    split
    next h => simp [h]
    next h =>
      have : name ≠ e.name := Ne.symm h
      simp only [List.map_cons, ih, List.mem_cons, this, false_or]
      split <;> rfl

theorem distinct_extendEntries (kind : PropertyKind) (name : String) (ranges : List CodeRange)
    {es : List DraftEntry} (h : (es.map (·.name)).Nodup) :
    ((extendEntries kind name ranges es).map (·.name)).Nodup := by
  rw [map_name_extendEntries]
  split
  next => exact h
  next hname =>
    refine List.nodup_append.2 ⟨h, by simp, fun a ha b hb => ?_⟩
    obtain rfl := List.mem_singleton.1 hb
    exact fun hab => hname (hab ▸ ha)

/-- Adds the codes of ranges, one range after the other. A name mentioned for the first time gets
an entry, even without codes; later mentions leave its kind as it is. -/
def extend (d : Draft) (kind : PropertyKind) (name : String) (ranges : List CodeRange) : Draft :=
  ⟨extendEntries kind name (ranges.filter (·.Inhabited)) d.entries,
    distinct_extendEntries kind name _ d.distinct⟩

/-- Adds one code. -/
def push (d : Draft) (kind : PropertyKind) (name : String) (code : Code) : Draft :=
  d.extend kind name [.single code]

/-- The entry of a name. -/
def entry? (d : Draft) (name : String) : Option DraftEntry := d.entries.find? (·.name = name)

/-- The codes gathered under a name, in the order in which they came. -/
def get? (d : Draft) (name : String) : Option (List Code) := d.entry? name |>.map (·.codes)

/-- The number of names. -/
def size (d : Draft) : Nat := d.entries.length

/-- Whether no name is mentioned. -/
def isEmpty (d : Draft) : Bool := d.entries.isEmpty

end Draft

end UcdTables
