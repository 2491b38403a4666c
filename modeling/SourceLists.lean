import SourceLists.Main
import SourceLists.Script.Parse
import SourceLists.Script.Render
import SourceLists.Proofs.Reading.Token
import SourceLists.Proofs.Reading.Item
import SourceLists.Proofs.Reading.ItemList
import SourceLists.Proofs.Reading.Arguments
import SourceLists.Proofs.Reading.ArgumentRule
import SourceLists.Proofs.Reading.Statement
import SourceLists.Proofs.Location
import SourceLists.Proofs.Reading.Head
import SourceLists.Proofs.Reading.Cut
import SourceLists.Proofs.Reading.Crossing
import SourceLists.Proofs.Reading.Growth
import SourceLists.Proofs.Scanning.Head
import SourceLists.Proofs.Insertion.Moved
import SourceLists.Proofs.Insertion.Plain
import SourceLists.Proofs.Reading.Repeat
import SourceLists.Proofs.Insertion.Separator
import SourceLists.Proofs.Insertion.Directory
import SourceLists.Proofs.Path
import SourceLists.Proofs.Insertion.Lookup
import SourceLists.Proofs.Scanning.Prefix
import SourceLists.Proofs.Insertion.Reference
import SourceLists.Proofs.Reading.Run
import SourceLists.Proofs.Reading.Decoration
import SourceLists.Proofs.Rendering.WellFormed
import SourceLists.Proofs.Rendering.Line
import SourceLists.Proofs.Rendering.Room
import SourceLists.Proofs.Rendering.RoundTrip
import SourceLists.Proofs.Scanning.Previous
import SourceLists.Proofs.Spelling
import SourceLists.Proofs.Scanning.Passing
import SourceLists.Proofs.Scanning.Parts
import SourceLists.Proofs.Reading.Behind
import SourceLists.Proofs.Scanning.Division
import SourceLists.Proofs.Scanning.Leading
import SourceLists.Proofs.Scanning.ListStart
import SourceLists.Proofs.Insertion.Success
import SourceLists.Proofs.Insertion.Interleaving
import SourceLists.Proofs.Insertion.Batch
import SourceLists.Proofs.Insertion.ListEnd
import SourceLists.Proofs.Insertion.Session
import SourceLists.Proofs.Insertion.Search
import SourceLists.Proofs.Insertion.ClassFiles
import SourceLists.Proofs.Insertion.Probing
import SourceLists.Proofs.Insertion.AddedClass
import SourceLists.Proofs.Reading.Alike
import SourceLists.Proofs.Insertion.Scope
import SourceLists.Proofs.CommandLine.Modes
import SourceLists.Proofs.Diff
import SourceLists.Proofs.Insertion.Widening
import SourceLists.Proofs.Scanning.ItemText
import SourceLists.Proofs.Scanning.Unclosed
import SourceLists.Proofs.Insertion.Comments
import SourceLists.Proofs.Reading.Blind
import SourceLists.Proofs.Scanning.Case
import SourceLists.Proofs.Scanning.Quoted
import SourceLists.Proofs.Scanning.Cursor
