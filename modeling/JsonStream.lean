import JsonStream.Binary64.Basic
import JsonStream.Binary64.Rounding
import JsonStream.Binary64.Shortest
import JsonStream.Brackets
import JsonStream.Branch
import JsonStream.Branch.Chronicle
import JsonStream.Branch.Decoder
import JsonStream.Branch.Growth
import JsonStream.Branch.Path
import JsonStream.Branch.Report
import JsonStream.Branch.Skeleton
import JsonStream.Branch.Text
import JsonStream.Byte
import JsonStream.Decimal.Basic
import JsonStream.Decimal.Layout
import JsonStream.Decimal.Nearest
import JsonStream.Decimal.Spelling
import JsonStream.Escape
import JsonStream.Event
import JsonStream.Fault
import JsonStream.Fault.Position
import JsonStream.Grammar
import JsonStream.Grammar.Stream
import JsonStream.Kind
import JsonStream.Options
import JsonStream.Proofs.Binary64.Nearest
import JsonStream.Proofs.Binary64.Shortest
import JsonStream.Proofs.Branch.Agreement
import JsonStream.Proofs.Branch.Chain
import JsonStream.Proofs.Branch.Ending
import JsonStream.Proofs.Branch.Growth
import JsonStream.Proofs.Branch.Innermost
import JsonStream.Proofs.Branch.Report
import JsonStream.Proofs.Branch.Skeleton
import JsonStream.Proofs.Branch.Soundness
import JsonStream.Proofs.Branch.Text
import JsonStream.Proofs.Decimal.Reading
import JsonStream.Proofs.Decimal.Exact
import JsonStream.Proofs.Decimal.Rendering
import JsonStream.Proofs.Grammar.Accepts
import JsonStream.Proofs.Grammar.Depth
import JsonStream.Proofs.Grammar.Ended
import JsonStream.Proofs.Grammar.Faults
import JsonStream.Proofs.Grammar.Reads
import JsonStream.Proofs.Session.Finish
import JsonStream.Proofs.Session.Lenient
import JsonStream.Proofs.Session.Operations
import JsonStream.Proofs.Session.Spacing
import JsonStream.Proofs.Text.Redecoding
import JsonStream.Proofs.Text.Spelling
import JsonStream.Proofs.Tree.Boundary
import JsonStream.Proofs.Tree.Chronicle
import JsonStream.Proofs.Tree.Completion
import JsonStream.Proofs.Tree.Limits
import JsonStream.Proofs.Tree.Refuses
import JsonStream.Proofs.Tree.Scanning
import JsonStream.Proofs.Tree.Takes
import JsonStream.Proofs.Utf8.Encoding
import JsonStream.Session
import JsonStream.Session.Operations
import JsonStream.Session.Run
import JsonStream.Session.Snapshots
import JsonStream.Session.Spacing
import JsonStream.Text.Dump
import JsonStream.Text.Invisible
import JsonStream.Text.Json
import JsonStream.Text.Quoted
import JsonStream.Text.Term
import JsonStream.Traced
import JsonStream.Tree.Basic
import JsonStream.Tree.Chronicle
import JsonStream.Tree.Feed
import JsonStream.Tree.Run
import JsonStream.Tree.Text
import JsonStream.Tree.View
import JsonStream.Utf8
import JsonStream.Value
import JsonStream.Value.Content
import JsonStream.Proofs.Binary64.Closest
import JsonStream.Proofs.Binary64.Fewest
import JsonStream.Decimal.Significant
import JsonStream.Proofs.Decimal.Significant
import JsonStream.Proofs.Text.Numbers
import JsonStream.Proofs.Text.Exchange
import JsonStream.Branch.Calls
import JsonStream.Proofs.Branch.Calls
import JsonStream.Proofs.Branch.Limits
import JsonStream.Branch.Recursion
import JsonStream.Proofs.Branch.Recursion
import JsonStream.Proofs.Branch.Replay
import JsonStream.Branch.Equality
import JsonStream.Grammar.Alike
import JsonStream.Text.Unsigned
import JsonStream.Proofs.Branch.Equality
import JsonStream.Proofs.Grammar.Alike
import JsonStream.Proofs.Text.Unsigned
