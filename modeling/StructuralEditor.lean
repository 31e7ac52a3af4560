import StructuralEditor.Main
import StructuralEditor.Proofs.Buffer.Batch
import StructuralEditor.Proofs.Buffer.Boundaries
import StructuralEditor.Proofs.Buffer.Overflow
import StructuralEditor.Proofs.Buffer.Reordering
import StructuralEditor.Proofs.Buffer.Shifting
import StructuralEditor.Proofs.CommandLine.Describing
import StructuralEditor.Proofs.CommandLine.Editing
import StructuralEditor.Proofs.Coordinates
import StructuralEditor.Proofs.Kind.Traversal
import StructuralEditor.Proofs.Scheme.Acceptance
import StructuralEditor.Proofs.Scheme.Arrangement
import StructuralEditor.Proofs.Scheme.Attachment
import StructuralEditor.Proofs.Scheme.Beginnings
import StructuralEditor.Proofs.Scheme.Bracketing
import StructuralEditor.Proofs.Scheme.CodeAlone
import StructuralEditor.Proofs.Scheme.Cursor
import StructuralEditor.Proofs.Scheme.Depth
import StructuralEditor.Proofs.Scheme.DraftLayout
import StructuralEditor.Proofs.Scheme.Enclosing
import StructuralEditor.Proofs.Scheme.Excerpts
import StructuralEditor.Proofs.Scheme.Forest
import StructuralEditor.Proofs.Scheme.Grammar
import StructuralEditor.Proofs.Scheme.Identities
import StructuralEditor.Proofs.Scheme.Labels
import StructuralEditor.Proofs.Scheme.Lexing
import StructuralEditor.Proofs.Scheme.Nesting
import StructuralEditor.Proofs.Scheme.Ownership
import StructuralEditor.Proofs.Scheme.ParsedSpans
import StructuralEditor.Proofs.Scheme.Planning
import StructuralEditor.Proofs.Scheme.Planting
import StructuralEditor.Proofs.Scheme.Printing
import StructuralEditor.Proofs.Scheme.Reading
import StructuralEditor.Proofs.Scheme.Reparsing
import StructuralEditor.Proofs.Scheme.RoundTrip
import StructuralEditor.Proofs.Scheme.SameSpans
import StructuralEditor.Proofs.Scheme.Serving
import StructuralEditor.Proofs.Scheme.Spacing
import StructuralEditor.Proofs.Scheme.Spans
import StructuralEditor.Proofs.Session.Atomicity
import StructuralEditor.Proofs.Session.Distinct
import StructuralEditor.Proofs.Session.Identities
import StructuralEditor.Proofs.Session.Landing
import StructuralEditor.Proofs.Session.Regions
import StructuralEditor.Proofs.Session.Run
import StructuralEditor.Proofs.Session.Spacing
import StructuralEditor.Proofs.Session.Trials
import StructuralEditor.Proofs.Session.Unfocused
import StructuralEditor.Proofs.Session.Untouched
import StructuralEditor.Proofs.Session.Visibility
import StructuralEditor.Proofs.Span
import StructuralEditor.Proofs.Text
import StructuralEditor.Proofs.Tree.Census
import StructuralEditor.Proofs.Tree.Descent
import StructuralEditor.Proofs.Tree.DocumentOrder
import StructuralEditor.Proofs.Tree.Foreign
import StructuralEditor.Proofs.Tree.Identities
import StructuralEditor.Proofs.Tree.Lineage
import StructuralEditor.Proofs.Tree.Reconciliation
import StructuralEditor.Proofs.Tree.Relabelling
import StructuralEditor.Proofs.Tree.Snapping
import StructuralEditor.Proofs.Tree.Splitting
import StructuralEditor.Proofs.Tree.Stack
import StructuralEditor.Table.Classes
