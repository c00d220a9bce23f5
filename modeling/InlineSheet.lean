import InlineSheet.File
import InlineSheet.Session
import InlineSheet.Proofs.Grammar
import InlineSheet.Proofs.Lexeme
import InlineSheet.Proofs.Loop
import InlineSheet.Proofs.LiteralScan
import InlineSheet.Proofs.Descent
import InlineSheet.Proofs.RegionTree
import InlineSheet.Proofs.Trace
import InlineSheet.Proofs.Quotation
import InlineSheet.Proofs.Trimming
import InlineSheet.Proofs.Requoting
import InlineSheet.Proofs.Brackets
import InlineSheet.Proofs.Spacing
import InlineSheet.Proofs.Termination
import InlineSheet.Proofs.Outcome
import InlineSheet.Proofs.HostText
import InlineSheet.Proofs.Lockstep
import InlineSheet.Proofs.Seam
import InlineSheet.Proofs.Variation
import InlineSheet.Proofs.Concatenation
import InlineSheet.Proofs.Layout
import InlineSheet.Proofs.Opacity
import InlineSheet.Proofs.Naming
import InlineSheet.Proofs.OpenRegions
import InlineSheet.Proofs.LogNesting
import InlineSheet.Proofs.Lines
import InlineSheet.Proofs.Completion
import InlineSheet.Proofs.Threads
import InlineSheet.Proofs.Scoping
import InlineSheet.Proofs.CommentScan
import InlineSheet.Proofs.Finality
import InlineSheet.Proofs.Shadowing
import InlineSheet.Proofs.Rereading
import InlineSheet.Proofs.Unquoting
import InlineSheet.Proofs.LineEndings
