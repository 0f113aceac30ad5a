import UcdTables.Table.Ranges

/-!
# Statistics

Tables counted by kind. A block stands for a kind: it has a number, which is its place in the order
in which the blocks came up, a count of tables, and an entry for each name.

* `Statistics.ensure` makes a block where there is none, with the number after the greatest so far.
* `Statistics.text` gives the blocks by number, in whatever order they are kept.
-/

namespace UcdTables

/-- The tables of one kind, counted. -/
structure StatisticsBlock where
  label : String
  order : Nat
  count : Nat
  entries : NameMap String

namespace StatisticsBlock

/-- Counts a table and describes it, in place of an earlier description. -/
def add (b : StatisticsBlock) (name description : String) : StatisticsBlock :=
  { b with count := b.count + 1, entries := b.entries.insert name description }

/-- The line that heads a block. -/
def header (b : StatisticsBlock) : String :=
  toString b.order ++ ". " ++ b.label ++ " (" ++ toString b.count ++ ")\n"

/-- The line of an entry. -/
def entryLine (name description : String) : String := name ++ " - " ++ description ++ "\n"

/-- The header of a block and the lines of its entries. -/
def listing (b : StatisticsBlock) : String :=
  b.header ++ "\n" ++
    String.join (b.entries.entries.map fun (name, description) => entryLine name description) ++
    "\n"

end StatisticsBlock

/-- The blocks that came up. -/
structure Statistics where
  blocks : List StatisticsBlock

namespace Statistics

/-- The statistics of nothing. -/
def empty : Statistics := ⟨[]⟩

/-- The number of the next new block. -/
def nextOrder (s : Statistics) : Nat := (s.blocks.map (·.order)).foldl max 0 + 1

/-- Makes the block of a label where there is none. -/
def ensure (s : Statistics) (label : String) : Statistics :=
  if s.blocks.any (·.label = label) then s
  else ⟨s.blocks ++ [⟨label, s.nextOrder, 0, .empty⟩]⟩

/-- Counts a table in the block of a label. -/
def add (s : Statistics) (label name description : String) : Statistics :=
  ⟨(s.ensure label).blocks.map fun b => if b.label = label then b.add name description else b⟩

/-- The number of tables in all blocks. -/
def total (s : Statistics) : Nat := s.blocks.foldr (fun b n => b.count + n) 0

/-- What is said of a table. -/
def describe (t : RangeTable) : String :=
  toString t.ranges.length ++ " ranges, " ++ toString t.size ++ " codepoints"

/-- The statistics of a list of tables. -/
def ofTables (ts : List RangeTable) : Statistics :=
  ts.foldl (fun s t => s.add t.kind.label t.name (describe t)) empty

/-- The blocks in ascending order of their numbers. -/
def inOrder (s : Statistics) : List StatisticsBlock := s.blocks.mergeSort (·.order ≤ ·.order)

/-- The text of the statistics: all headers, and then all listings. -/
def text (s : Statistics) : String :=
  String.join (s.inOrder.map (·.header)) ++ "\n" ++ String.join (s.inOrder.map (·.listing))

end Statistics

end UcdTables
