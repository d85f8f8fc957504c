import Stencil.Code.Vault
import Stencil.Command.Run
import Stencil.Comment
import Stencil.Main
import Stencil.Proofs.Code.Cover
import Stencil.Proofs.Code.Masking
import Stencil.Proofs.Decimal.Reflexive
import Stencil.Proofs.Decimal.Bits
import Stencil.Proofs.Decimal.Rounding
import Stencil.Proofs.Decimal.Shortest
import Stencil.Proofs.Decimal.Reading
import Stencil.Proofs.Rendering.Steps
import Stencil.Proofs.Tag.Defaults
import Stencil.Proofs.Rendering.Redefinition
import Stencil.Proofs.Tag.ClosedTags
import Stencil.Proofs.Tag.Reads
import Stencil.Proofs.Tag.Recognized
import Stencil.Proofs.Tag.Context
import Stencil.Proofs.Decimal.Written
import Stencil.Proofs.Tag.Written
import Stencil.Proofs.Tag.Rejected
import Stencil.Proofs.Tag.Exact
import Stencil.Proofs.Arithmetic.Reading
import Stencil.Proofs.Arithmetic.Tokens
import Stencil.Proofs.Arithmetic.Evaluation
import Stencil.Proofs.Substitution.Images
import Stencil.Proofs.Substitution.Content
import Stencil.Proofs.Substitution.Tidy
import Stencil.Proofs.Substitution.Scoping
import Stencil.Proofs.Substitution.Steps
import Stencil.Proofs.Code.Bounds
import Stencil.Proofs.Code.History
import Stencil.Proofs.Code.Stripping
import Stencil.Proofs.Tag.Plain
import Stencil.Proofs.Tag.Standing
import Stencil.Proofs.Rendering.Quiet
import Stencil.Proofs.Rendering.Plain
import Stencil.Proofs.Rendering.Calm
import Stencil.Proofs.Rendering.Literal
import Stencil.Proofs.Rendering.Unresolved
import Stencil.Proofs.Rendering.Expansion
import Stencil.Proofs.Tag.RoundTrip
import Stencil.Proofs.Code.Twins
import Stencil.Proofs.Substitution.Twins
import Stencil.Proofs.Rendering.Opaque
import Stencil.Proofs.Rendering.Attachments
import Stencil.Proofs.Rendering.Tables
import Stencil.Proofs.Tag.Tiling
import Stencil.Proofs.Tag.Stretch
import Stencil.Proofs.Tag.Malformed
import Stencil.Proofs.Code.Shelter
import Stencil.Proofs.Substitution.Readable
import Stencil.Proofs.Text.Order
import Stencil.Proofs.Tag.Seams
import Stencil.Proofs.Rendering.Placement
import Stencil.Proofs.Rendering.Sharing
import Stencil.Proofs.Rendering.Arguments
import Stencil.Proofs.Code.RoundTrip
import Stencil.Proofs.Code.Fences
import Stencil.Proofs.Code.Detection
import Stencil.Proofs.Code.Exact
import Stencil.Proofs.Code.Schemes
import Stencil.Proofs.Files.Blocks
import Stencil.Proofs.Rendering.Listings
import Stencil.Proofs.Rendering.Expressions
import Stencil.Proofs.Rendering.Edits
import Stencil.Proofs.Tag.Errors
import Stencil.Proofs.Tag.Captured
import Stencil.Proofs.Tag.Alternatives
import Stencil.Proofs.Substitution.Parameters
import Stencil.Proofs.Function.Arrangement
import Stencil.Proofs.Files.Spans
import Stencil.Proofs.Arithmetic.Names
import Stencil.Proofs.Settings.Words
import Stencil.Proofs.Settings.Reading
import Stencil.Proofs.Command.Clusters
