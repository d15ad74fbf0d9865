import FilterQuery.Main
import FilterQuery.Shared.Walk
import FilterQuery.Proofs.Draft.Clauses
import FilterQuery.Proofs.Draft.Reading
import FilterQuery.Proofs.Draft.Steps
import FilterQuery.Proofs.Draft.Scopes
import FilterQuery.Proofs.Compile.Meaning
import FilterQuery.Proofs.Sql.Placeholders
import FilterQuery.Proofs.Sql.Input
import FilterQuery.Proofs.Sql.ReadBack
import FilterQuery.Proofs.Compile.Query
import FilterQuery.Proofs.Compile.Parameters
import FilterQuery.Proofs.Sql.Form
import FilterQuery.Proofs.Compile.Shape
import FilterQuery.Proofs.Compile.Composed
import FilterQuery.Proofs.Compile.Trace
import FilterQuery.Proofs.Compile.Account
import FilterQuery.Proofs.Json.Numeral
import FilterQuery.Proofs.Json.Denotation
import FilterQuery.Proofs.Json.Spelling
import FilterQuery.Proofs.Json.Document
import FilterQuery.Proofs.Json.Printing
import FilterQuery.Proofs.Decode.Grammar
import FilterQuery.Proofs.Decode.Record
import FilterQuery.Proofs.Decode.Value
import FilterQuery.Proofs.Decode.Reading
import FilterQuery.Proofs.Encode.Kept
import FilterQuery.Proofs.Encode.RoundTrip
import FilterQuery.Proofs.Json.Finite
import FilterQuery.Proofs.Decode.Normal
import FilterQuery.Proofs.Encode.Canonical
import FilterQuery.Proofs.Shared.Standing
import FilterQuery.Proofs.Shared.Walks
import FilterQuery.Proofs.Shared.Frames
import FilterQuery.Proofs.Shared.Copies
import FilterQuery.Proofs.Shared.Workspace
import FilterQuery.Proofs.Shared.Clones
import FilterQuery.Proofs.Shared.Composition
import FilterQuery.Proofs.Shared.Populated
import FilterQuery.Proofs.Compile.Regrouping
import FilterQuery.Proofs.Sql.Shown
import FilterQuery.Proofs.Compile.EmptyLists
import FilterQuery.Proofs.Compile.Paging
import FilterQuery.Proofs.Sql.Names
import FilterQuery.Proofs.Shared.Equality
import FilterQuery.Proofs.Decode.Outline
import FilterQuery.Proofs.Decode.Answers
import FilterQuery.Proofs.Decode.Faults
import FilterQuery.Proofs.Text.Blank
import FilterQuery.Proofs.Text.Lines
import FilterQuery.Proofs.Command.Line
import FilterQuery.Proofs.Command.Overlay
import FilterQuery.Proofs.Command.Quoted
import FilterQuery.Proofs.Command.Report
import FilterQuery.Proofs.Compile.Columns
import FilterQuery.Proofs.Command.Settings
import FilterQuery.Proofs.Text.AsciiCase
import FilterQuery.Proofs.Condition.Operator
import FilterQuery.Proofs.Command.Loading
import FilterQuery.Proofs.Command.Run
