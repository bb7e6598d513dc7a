import FrameNotation.Analysis
import FrameNotation.Cache
import FrameNotation.Compression
import FrameNotation.Digest
import FrameNotation.Engine.Event
import FrameNotation.Engine.Execution
import FrameNotation.Engine.Process
import FrameNotation.Engine.Request
import FrameNotation.Engine.Result
import FrameNotation.Engine.Stats
import FrameNotation.Fault
import FrameNotation.Frame.Basic
import FrameNotation.Frame.Display
import FrameNotation.Frame.Entries
import FrameNotation.Frame.Equality
import FrameNotation.Frame.Plain
import FrameNotation.Frame.Value
import FrameNotation.Json.Canonical
import FrameNotation.Mishap
import FrameNotation.Notation.Layout
import FrameNotation.Notation.Nesting
import FrameNotation.Notation.Reader
import FrameNotation.Notation.Token
import FrameNotation.Notation.Writer
import FrameNotation.Number.Basic
import FrameNotation.Number.Binary
import FrameNotation.Number.Decimal
import FrameNotation.Number.Fixed
import FrameNotation.Number.Lenient
import FrameNotation.Number.Numeral
import FrameNotation.Proofs.Cache
import FrameNotation.Proofs.Cache.Recency
import FrameNotation.Proofs.Cache.Session
import FrameNotation.Proofs.Cache.Traced
import FrameNotation.Proofs.Compression
import FrameNotation.Proofs.Compression.Arranged
import FrameNotation.Proofs.Engine.Accounts
import FrameNotation.Proofs.Engine.Answering
import FrameNotation.Proofs.Engine.Compressing
import FrameNotation.Proofs.Engine.Ending
import FrameNotation.Proofs.Engine.Failure
import FrameNotation.Proofs.Engine.History
import FrameNotation.Proofs.Engine.Key
import FrameNotation.Proofs.Engine.Prompts
import FrameNotation.Proofs.Engine.Provenance
import FrameNotation.Proofs.Engine.Separation
import FrameNotation.Proofs.Engine.Transparency
import FrameNotation.Proofs.Frame.Children
import FrameNotation.Proofs.Frame.Display
import FrameNotation.Proofs.Frame.Entries
import FrameNotation.Proofs.Frame.Equality
import FrameNotation.Proofs.Frame.Parts
import FrameNotation.Proofs.Frame.Nested
import FrameNotation.Proofs.Json
import FrameNotation.Proofs.Notation.Carried
import FrameNotation.Proofs.Notation.Grammar
import FrameNotation.Proofs.Notation.Group
import FrameNotation.Proofs.Notation.Layout
import FrameNotation.Proofs.Notation.Levels
import FrameNotation.Proofs.Notation.Literal
import FrameNotation.Proofs.Notation.Parsed
import FrameNotation.Proofs.Notation.References
import FrameNotation.Proofs.Notation.Recognized
import FrameNotation.Proofs.Notation.Reread
import FrameNotation.Proofs.Notation.RoundTrip
import FrameNotation.Proofs.Notation.Scan
import FrameNotation.Proofs.Notation.Spacing
import FrameNotation.Proofs.Notation.Spelling
import FrameNotation.Proofs.Notation.Stable
import FrameNotation.Proofs.Notation.Strand
import FrameNotation.Proofs.Notation.Writable
import FrameNotation.Proofs.Notation.Written
import FrameNotation.Proofs.Number.Digits
import FrameNotation.Proofs.Number.Double
import FrameNotation.Proofs.Number.Nearest
import FrameNotation.Proofs.Number.Quotient
import FrameNotation.Proofs.Number.Shortest
import FrameNotation.Proofs.Number.Wire
import FrameNotation.Proofs.Reference
import FrameNotation.Proofs.Reference.Readable
import FrameNotation.Proofs.Reply.Embedded
import FrameNotation.Proofs.Reply.Outcome
import FrameNotation.Proofs.Success
import FrameNotation.Proofs.Text.Trim
import FrameNotation.Reference.Path
import FrameNotation.Reference.Resolve
import FrameNotation.Reply
import FrameNotation.Settings
import FrameNotation.Similarity.Distance
import FrameNotation.Similarity.Frames
import FrameNotation.Similarity.Integrity
import FrameNotation.Similarity.Strings
import FrameNotation.Text.Blank
import FrameNotation.Text.CodePoint
import FrameNotation.Text.Digit
import FrameNotation.Text.Lowercase
import FrameNotation.Text.Printable
import FrameNotation.Text.Quoted
import FrameNotation.Text.Word
import FrameNotation.Validation.Issue
import FrameNotation.Validation.Report
import FrameNotation.Walkthrough
import FrameNotation.Main
import FrameNotation.Proofs.Validation
import FrameNotation.Proofs.Validation.Located
import FrameNotation.Proofs.Validation.Seen
import FrameNotation.Proofs.Compression.Repeated
import FrameNotation.Proofs.Compression.Validity
import FrameNotation.Proofs.Engine.Completing
import FrameNotation.Proofs.Frame.Reordered
import FrameNotation.Proofs.Similarity.Texts
import FrameNotation.Proofs.Similarity.Frames
import FrameNotation.Proofs.Similarity.Integrity
import FrameNotation.Proofs.Validation.Completing
import FrameNotation.Proofs.Notation.Unambiguous
import FrameNotation.Proofs.Notation.Positional
import FrameNotation.Proofs.Notation.Escaping
import FrameNotation.Proofs.Notation.Joining
import FrameNotation.Proofs.Notation.Matching
import FrameNotation.Proofs.Notation.Tidy
import FrameNotation.Proofs.Notation.Fragments
import FrameNotation.Proofs.Compression.Targets
import FrameNotation.Proofs.Frame.Sameness
import FrameNotation.Proofs.Compression.Distinct
import FrameNotation.Proofs.Compression.Width
import FrameNotation.Proofs.Compression.Normal
import FrameNotation.Proofs.Reference.Path
import FrameNotation.Proofs.Reference.Completing
import FrameNotation.Proofs.Reference.Substitution
import FrameNotation.Proofs.Reference.Equality
import FrameNotation.Proofs.Reference.Simultaneous
import FrameNotation.Proofs.Reference.Strict
import FrameNotation.Proofs.Cache.Membership
import FrameNotation.Proofs.Engine.KeyParts
import FrameNotation.Proofs.Json.Escaping
import FrameNotation.Proofs.Json.Rearranged
import FrameNotation.Proofs.Json.Unambiguous
import FrameNotation.Proofs.Frame.Plain
import FrameNotation.Proofs.Similarity.Edits
import FrameNotation.Proofs.Number.Places
import FrameNotation.Proofs.Notation.Kinds
import FrameNotation.Proofs.Json.Strings
import FrameNotation.Proofs.Similarity.Quotations
import FrameNotation.Proofs.Similarity.Sameness
import FrameNotation.Proofs.Compression.Unchanged
import FrameNotation.Proofs.Number.Share
import FrameNotation.Proofs.Settings
import FrameNotation.Proofs.Similarity.Intact
import FrameNotation.Proofs.Engine.Unchanged
import FrameNotation.Proofs.Number.Undefined
import FrameNotation.Proofs.Number.Lenient
import FrameNotation.Proofs.Cache.Lifetime
