import UcdTables.Class.Posix
import UcdTables.Class.Rule
import UcdTables.Code.Basic
import UcdTables.Code.Canonical
import UcdTables.Code.Difference
import UcdTables.Code.Range
import UcdTables.Code.Set
import UcdTables.Database.Assignment
import UcdTables.Database.Category
import UcdTables.Database.Characters
import UcdTables.Database.Numeral
import UcdTables.Database.Scripts
import UcdTables.Error
import UcdTables.Files.Failure
import UcdTables.Files.Tree
import UcdTables.Main
import UcdTables.NameMap
import UcdTables.Program.Build
import UcdTables.Program.CommandLine
import UcdTables.Program.Event
import UcdTables.Program.Session
import UcdTables.Proofs.Class.AnyOrder
import UcdTables.Proofs.Class.Equation
import UcdTables.Proofs.Class.Evaluation
import UcdTables.Proofs.Class.InOrder
import UcdTables.Proofs.Class.InTurn
import UcdTables.Proofs.Class.Posix
import UcdTables.Proofs.Class.Solution
import UcdTables.Proofs.Code.Ascending
import UcdTables.Proofs.Code.Fewest
import UcdTables.Proofs.Code.Listed
import UcdTables.Proofs.Code.OnePass
import UcdTables.Proofs.Code.Runs
import UcdTables.Proofs.Code.Size
import UcdTables.Proofs.Code.Unique
import UcdTables.Proofs.Database.CategoryDraft
import UcdTables.Proofs.Database.CharacterGrammar
import UcdTables.Proofs.Database.CodeCategory
import UcdTables.Proofs.Database.CodeNumeral
import UcdTables.Proofs.Database.Concatenation
import UcdTables.Proofs.Database.Entry
import UcdTables.Proofs.Database.Errors
import UcdTables.Proofs.Database.LineReader
import UcdTables.Proofs.Database.Numeral
import UcdTables.Proofs.Database.Reading
import UcdTables.Proofs.Database.RecordFault
import UcdTables.Proofs.Database.Renumber
import UcdTables.Proofs.Database.ScriptDraft
import UcdTables.Proofs.Database.ScriptGrammar
import UcdTables.Proofs.Database.ScriptMap
import UcdTables.Proofs.Database.Tiling
import UcdTables.Proofs.Files.Write
import UcdTables.Proofs.NameMap
import UcdTables.Proofs.Outcome
import UcdTables.Proofs.Program.ClassRelations
import UcdTables.Proofs.Program.Failures
import UcdTables.Proofs.Program.Layout
import UcdTables.Proofs.Program.Output
import UcdTables.Proofs.Program.Properties
import UcdTables.Proofs.Program.Stages
import UcdTables.Proofs.Program.Sufficient
import UcdTables.Proofs.Program.WithoutScripts
import UcdTables.Proofs.Program.Writing
import UcdTables.Proofs.Property.Calls
import UcdTables.Proofs.Property.Growth
import UcdTables.Proofs.Property.Mention
import UcdTables.Proofs.Property.Merge
import UcdTables.Proofs.Property.MergeOrder
import UcdTables.Proofs.Property.MergeOutcome
import UcdTables.Proofs.Property.Partition
import UcdTables.Proofs.Property.PartitionVerdict
import UcdTables.Proofs.Table.Agreement
import UcdTables.Proofs.Table.Encoding
import UcdTables.Proofs.Table.Literal
import UcdTables.Proofs.Table.Ranges
import UcdTables.Proofs.Table.Statistics
import UcdTables.Proofs.Table.Text
import UcdTables.Proofs.Text.Blank
import UcdTables.Proofs.Text.Contents
import UcdTables.Proofs.Text.Fields
import UcdTables.Proofs.Text.Hex
import UcdTables.Proofs.Text.Layout
import UcdTables.Proofs.Text.Spelling
import UcdTables.Property.Basic
import UcdTables.Property.Draft
import UcdTables.Property.Kind
import UcdTables.Property.Map
import UcdTables.Property.Partition
import UcdTables.Table.Ranges
import UcdTables.Table.Statistics
import UcdTables.Table.Text
import UcdTables.Text.Blank
import UcdTables.Text.Fields
import UcdTables.Text.Hex
import UcdTables.Text.Printable
import UcdTables.Text.Quoted
