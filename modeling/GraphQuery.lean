import GraphQuery.Main
import GraphQuery.Expr.Extent
import GraphQuery.Expr.Rename
import GraphQuery.Expr.Resolve
import GraphQuery.Expr.InnerVars
import GraphQuery.Expr.Record
import GraphQuery.Binding.Cutting
import GraphQuery.Response.Bytes
import GraphQuery.Proofs.Bytes
import GraphQuery.Proofs.Binary64
import GraphQuery.Proofs.Entries
import GraphQuery.Proofs.Fallible
import GraphQuery.Proofs.Utf8
import GraphQuery.Proofs.Value.Normal
import GraphQuery.Proofs.Expr.Nodes
import GraphQuery.Proofs.Expr.Normal
import GraphQuery.Proofs.Expr.Build
import GraphQuery.Proofs.Expr.Parts
import GraphQuery.Proofs.Expr.Edits
import GraphQuery.Proofs.Expr.Traverse
import GraphQuery.Proofs.Expr.Errors
import GraphQuery.Proofs.Wire.Layout
import GraphQuery.Proofs.Wire.Normal
import GraphQuery.Proofs.Wire.Unique
import GraphQuery.Proofs.Wire.Writing
import GraphQuery.Proofs.Wire.Reading
import GraphQuery.Proofs.Wire.ValueLanguage
import GraphQuery.Proofs.Wire.Language
import GraphQuery.Proofs.Wire.Congruence
import GraphQuery.Proofs.Wire.RoundTrip
import GraphQuery.Proofs.Wire.Safety
import GraphQuery.Proofs.Wire.Reachable
import GraphQuery.Proofs.Expr.Congruence
import GraphQuery.Proofs.Wire.Delimited
import GraphQuery.Proofs.Expr.Scoping
import GraphQuery.Proofs.Expr.Rewriting
import GraphQuery.Proofs.Expr.Renaming
import GraphQuery.Proofs.Expr.MapNodes
import GraphQuery.Proofs.Expr.Resolving
import GraphQuery.Proofs.Wire.Preflight
import GraphQuery.Proofs.Expr.Equality
import GraphQuery.Proofs.Wire.Identity
import GraphQuery.Proofs.Expr.Quantifiers
import GraphQuery.Proofs.Expr.Concatenation
import GraphQuery.Proofs.Expr.Visitors
import GraphQuery.Proofs.Response.Reading
import GraphQuery.Proofs.Response.RoundTrip
import GraphQuery.Proofs.Expr.Connectives
import GraphQuery.Proofs.Value.Compare
import GraphQuery.Proofs.Expr.Comparison
import GraphQuery.Proofs.Value.Transitivity
import GraphQuery.Proofs.Expr.Membership
import GraphQuery.Proofs.Value.Shape
import GraphQuery.Proofs.Expr.Ordering
import GraphQuery.Proofs.Expr.Integers
import GraphQuery.Proofs.Expr.Paths
import GraphQuery.Proofs.Expr.Relabeling
import GraphQuery.Proofs.Expr.AlphaConversion
import GraphQuery.Proofs.Wire.DepthLimit
import GraphQuery.Proofs.Expr.Preorder
import GraphQuery.Proofs.Expr.Substitution
import GraphQuery.Proofs.Response.Index
import GraphQuery.Proofs.Text.Quoted
import GraphQuery.Proofs.Decimal.Numeral
import GraphQuery.Proofs.Binding.Balance
import GraphQuery.Proofs.Binding.Splitting
import GraphQuery.Proofs.Binding.Joining
import GraphQuery.Proofs.Binding.Cutting
import GraphQuery.Proofs.Text.Blank
import GraphQuery.Proofs.Value.Text
import GraphQuery.Proofs.Binding.Reading
import GraphQuery.Proofs.Binding.Printing
