import WireSchema.Binary64.Basic
import WireSchema.Binary64.Rounding
import WireSchema.Binary64.Shortest
import WireSchema.Binary64.Text
import WireSchema.Calendar.ClockText
import WireSchema.Calendar.Date
import WireSchema.Calendar.DateTime
import WireSchema.Calendar.Duration
import WireSchema.Calendar.Partial
import WireSchema.Calendar.PlainText
import WireSchema.Calendar.Rfc3339
import WireSchema.Calendar.Temporal
import WireSchema.Command.Arguments
import WireSchema.Command.Basic
import WireSchema.Command.Documents
import WireSchema.Command.Failure
import WireSchema.Command.Run
import WireSchema.Convert.Containers
import WireSchema.Convert.Normal
import WireSchema.Convert.Read
import WireSchema.Convert.Trust
import WireSchema.Convert.Write
import WireSchema.Entries
import WireSchema.Fault
import WireSchema.Files.Access
import WireSchema.Files.Disk
import WireSchema.Files.Path
import WireSchema.Files.Pattern
import WireSchema.Files.Search
import WireSchema.Files.Tree
import WireSchema.Generated.Code
import WireSchema.Generated.Deserializer
import WireSchema.Generated.Fragment
import WireSchema.Generated.Meaning
import WireSchema.Generated.Module
import WireSchema.Generated.Program
import WireSchema.Generated.Serializer
import WireSchema.Json.Basic
import WireSchema.Json.Document
import WireSchema.Json.Mark
import WireSchema.Json.Node
import WireSchema.Json.Printer
import WireSchema.Json.Scalar
import WireSchema.Leaf.BigInteger
import WireSchema.Leaf.Conversion
import WireSchema.Leaf.Number
import WireSchema.Leaf.Shape
import WireSchema.Leaf.Time
import WireSchema.Main
import WireSchema.Place
import WireSchema.Proofs.Alike
import WireSchema.Proofs.Calendar.ClockText
import WireSchema.Proofs.Calendar.DateTime
import WireSchema.Proofs.Calendar.Duration
import WireSchema.Proofs.Calendar.PlainText
import WireSchema.Proofs.Calendar.Rfc3339
import WireSchema.Proofs.Calendar.Temporal
import WireSchema.Proofs.Content
import WireSchema.Proofs.Convert.Engines
import WireSchema.Proofs.Convert.Identity
import WireSchema.Proofs.Convert.Language
import WireSchema.Proofs.Convert.RoundTrip
import WireSchema.Proofs.Convert.Trusting
import WireSchema.Proofs.Entries
import WireSchema.Proofs.Leaf.Dates
import WireSchema.Proofs.Leaf.Results
import WireSchema.Proofs.Leaf.RoundTrip
import WireSchema.Proofs.Leaf.Trusting
import WireSchema.Proofs.Outcome
import WireSchema.Proofs.Schema
import WireSchema.Proofs.Text.Blank
import WireSchema.Proofs.Text.Digits
import WireSchema.Proofs.Update
import WireSchema.Proofs.Value
import WireSchema.Samples
import WireSchema.Schema.Basic
import WireSchema.Schema.Description
import WireSchema.Schema.Document
import WireSchema.Schema.Kind
import WireSchema.Text.Blank
import WireSchema.Text.Digits
import WireSchema.Text.Lines
import WireSchema.Text.Printable
import WireSchema.Text.Quoted
import WireSchema.Update.Choice
import WireSchema.Update.Items
import WireSchema.Update.Properties
import WireSchema.Value.Basic
import WireSchema.Value.Document
import WireSchema.Value.Sameness
import WireSchema.WriteOptions
import WireSchema.Proofs.Convert.HandedBack
import WireSchema.Proofs.Generated.Agreement
import WireSchema.Proofs.Generated.Reading
import WireSchema.Proofs.Convert.Visits
import WireSchema.Proofs.Convert.CopyOnWrite
import WireSchema.Proofs.Calendar.Accepted
import WireSchema.Proofs.Binary64
import WireSchema.Proofs.Convert.InPlace
import WireSchema.Proofs.Convert.Normal
import WireSchema.Proofs.Convert.Passage
import WireSchema.Proofs.Json.Reading
import WireSchema.Proofs.Generated.Collapse
import WireSchema.Proofs.Convert.Discriminant
import WireSchema.Proofs.Resemblance
import WireSchema.Proofs.Convert.SideBySide
import WireSchema.Proofs.Leaf.SideBySide
import WireSchema.Proofs.Convert.Steady
import WireSchema.Proofs.Convert.Stripped
import WireSchema.Proofs.Convert.Portable
import WireSchema.Proofs.Convert.Parts
import WireSchema.Proofs.Generated.Growth
import WireSchema.Proofs.Convert.Faults
import WireSchema.Proofs.Convert.Located
import WireSchema.Proofs.Convert.Twins
import WireSchema.Proofs.Generated.Merging
import WireSchema.Proofs.Text.Words
import WireSchema.Proofs.Generated.Mentions
import WireSchema.Proofs.Generated.Balance
import WireSchema.Proofs.Generated.Closed
import WireSchema.Proofs.Convert.AtRest
import WireSchema.Proofs.Rearrangement
import WireSchema.Proofs.Convert.Outcomes
import WireSchema.Proofs.Convert.KeyOrder
import WireSchema.Proofs.Schema.Reading
import WireSchema.Proofs.Files.Looking
import WireSchema.Proofs.Command.Agreement
import WireSchema.Proofs.Update.Strategies
import WireSchema.Proofs.Generated.LeftAlone
import WireSchema.Proofs.Convert.AlwaysCopies
import WireSchema.Proofs.Calendar.Remainder
import WireSchema.Proofs.Calendar.StandIn
import WireSchema.Proofs.Calendar.Offsets
import WireSchema.Proofs.Convert.Interchange
import WireSchema.Proofs.Leaf.Numerals
import WireSchema.Proofs.Convert.Trees
import WireSchema.Proofs.Schema.Describing
import WireSchema.Proofs.Update.Arrays
import WireSchema.Proofs.Text.Markers
import WireSchema.Proofs.Generated.Markers
import WireSchema.Proofs.Text.Forms
import WireSchema.Proofs.Leaf.NumberTexts
