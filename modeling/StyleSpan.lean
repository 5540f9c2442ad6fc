import StyleSpan.Annotation.Annotator
import StyleSpan.Comment.Sanitize
import StyleSpan.Diagnostic.Render
import StyleSpan.Log.Config
import StyleSpan.Node.Arena
import StyleSpan.Proofs.Comment.Segments
import StyleSpan.Proofs.Comment.Edits
import StyleSpan.Proofs.Annotation.Scopes
import StyleSpan.Proofs.Annotation.Positions
import StyleSpan.Proofs.Annotation.Breaks
import StyleSpan.Proofs.Comment.Lookback
import StyleSpan.Proofs.Log.Session
import StyleSpan.Proofs.Log.Lines
import StyleSpan.Proofs.Annotation.Depth
import StyleSpan.Proofs.Text.Locations
import StyleSpan.Proofs.Annotation.Comments
import StyleSpan.Proofs.Comment.Append
import StyleSpan.Proofs.Log.Refusals
import StyleSpan.Proofs.Log.Names
import StyleSpan.Proofs.Annotation.Reuse
import StyleSpan.Proofs.Comment.Aborts
import StyleSpan.Proofs.Comment.Warnings
import StyleSpan.Proofs.Annotation.LastChild
import StyleSpan.Proofs.Annotation.Order
import StyleSpan.Proofs.Annotation.Prepend
import StyleSpan.Proofs.Log.Sections
import StyleSpan.Proofs.Annotation.Findings
import StyleSpan.Proofs.Log.QuotedPaths
import StyleSpan.Proofs.Log.Isolation
import StyleSpan.Proofs.Annotation.CutWarnings
import StyleSpan.Proofs.Log.Table
import StyleSpan.Proofs.Node.Depths
import StyleSpan.Proofs.Text.Recovery
import StyleSpan.Proofs.Annotation.Outline
import StyleSpan.Proofs.Diagnostic.Account
