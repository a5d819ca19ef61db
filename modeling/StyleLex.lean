import StyleLex.Log.Memory
import StyleLex.Main
import StyleLex.Proofs.Rose
import StyleLex.Proofs.Tree.Nodes
import StyleLex.Proofs.Tree.Thread
import StyleLex.Proofs.Tree.Outline
import StyleLex.Proofs.Tree.Draft
import StyleLex.Proofs.Tree.Growth
import StyleLex.Proofs.Scan.Ending
import StyleLex.Proofs.Scan.Step
import StyleLex.Proofs.Token.Numeral
import StyleLex.Proofs.Token.Escape
import StyleLex.Proofs.Scan.Progress
import StyleLex.Proofs.Scan.Drafting
import StyleLex.Proofs.Session
import StyleLex.Proofs.Scan.Layout
import StyleLex.Proofs.Tiling
import StyleLex.Proofs.Validity
import StyleLex.Proofs.Scan.Barrier
import StyleLex.Proofs.Scan.Mirror
import StyleLex.Proofs.Scan.Inside
import StyleLex.Proofs.Scan.Locality
import StyleLex.Proofs.Scan.Cutting
import StyleLex.Proofs.Scan.Passing
import StyleLex.Proofs.Tree.Resuming
import StyleLex.Proofs.Scan.Splitting
import StyleLex.Proofs.Scan.Heading
import StyleLex.Proofs.Increment
import StyleLex.Proofs.Scan.Trailing
import StyleLex.Proofs.Isolation
import StyleLex.Proofs.Snapshot
import StyleLex.Proofs.Scan.Reading
import StyleLex.Proofs.Coherence
import StyleLex.Proofs.Scan.Noting
import StyleLex.Proofs.Warnings
import StyleLex.Proofs.Scan.Asking
import StyleLex.Proofs.Confinement
import StyleLex.Proofs.Turns
import StyleLex.Proofs.Scan.Adding
import StyleLex.Proofs.Schema
import StyleLex.Proofs.Safety
import StyleLex.Proofs.Token.Lookup
import StyleLex.Proofs.Token.Occurs
import StyleLex.Proofs.Dialects
import StyleLex.Proofs.ExitStatus
import StyleLex.Proofs.Tree.Finishing
import StyleLex.Proofs.Remembering
import StyleLex.Proofs.Frame
import StyleLex.Proofs.Coverage
import StyleLex.Proofs.Freshness
import StyleLex.Proofs.Scan.Below
import StyleLex.Proofs.Values
import StyleLex.Proofs.Reads
import StyleLex.Proofs.Depths
import StyleLex.Proofs.Counts
import StyleLex.Proofs.Token.Digits
import StyleLex.Proofs.Scan.Hashing
import StyleLex.Proofs.Hashes
import StyleLex.Proofs.Token.Written
import StyleLex.Proofs.Scan.Taking
import StyleLex.Proofs.Numerals
import StyleLex.Proofs.Token.Encoded
import StyleLex.Proofs.Escapes
import StyleLex.Proofs.Scan.Opening
import StyleLex.Proofs.Token.Spelled
import StyleLex.Proofs.Spelling
import StyleLex.Proofs.Token.Boundary
import StyleLex.Proofs.Token.Colors
import StyleLex.Proofs.Scan.Runs
import StyleLex.Proofs.Resumption
import StyleLex.Proofs.Token.Literal
import StyleLex.Proofs.Sole
import StyleLex.Proofs.Literals
import StyleLex.Proofs.Token.Braced
import StyleLex.Proofs.Saturation
import StyleLex.Proofs.Scan.Opened
import StyleLex.Proofs.Forms
import StyleLex.Proofs.Token.Matching
import StyleLex.Proofs.Scan.Matching
import StyleLex.Proofs.Matching
import StyleLex.Proofs.Tables
import StyleLex.Proofs.Scan.Beginnings
import StyleLex.Proofs.Scan.Leftovers
import StyleLex.Proofs.Scan.Joining
import StyleLex.Proofs.Scan.Leaving
import StyleLex.Proofs.Children
import StyleLex.Proofs.RawText
import StyleLex.Proofs.Scan.Leading
import StyleLex.Proofs.Strays
import StyleLex.Proofs.Token.Places
import StyleLex.Proofs.Scan.Whole
import StyleLex.Proofs.Characters
import StyleLex.Proofs.Neighbours
import StyleLex.Proofs.Malformed
import StyleLex.Proofs.Underlining
import StyleLex.Proofs.Nesting
import StyleLex.Proofs.Text.Quoted
import StyleLex.Proofs.Tree.Shape
import StyleLex.Proofs.Dump
import StyleLex.Proofs.Outermost
import StyleLex.Proofs.Tree.Binding
import StyleLex.Proofs.OpenBranches
import StyleLex.Proofs.Consumed
import StyleLex.Proofs.Advancing
