import FieldProcedure.Main
import FieldProcedure.Proofs.Drawing
import FieldProcedure.Proofs.Levels
import FieldProcedure.Proofs.Wiring
import FieldProcedure.Proofs.Compilation
import FieldProcedure.Proofs.Vetting
import FieldProcedure.Proofs.Identities
import FieldProcedure.Proofs.Flow
import FieldProcedure.Proofs.Acceptance
import FieldProcedure.Proofs.Depths
import FieldProcedure.Proofs.Forest
import FieldProcedure.Proofs.Listing
import FieldProcedure.Proofs.Counterparts
import FieldProcedure.Proofs.Tables
import FieldProcedure.Proofs.Elements
import FieldProcedure.Proofs.Reader
import FieldProcedure.Proofs.Rendering
import FieldProcedure.Proofs.PlainReader
import FieldProcedure.Proofs.ConformingReader
import FieldProcedure.Proofs.Recovery
import FieldProcedure.Proofs.Schema
import FieldProcedure.Proofs.Spending
import FieldProcedure.Proofs.Reuse
import FieldProcedure.Proofs.Renaming
import FieldProcedure.Proofs.Distances
import FieldProcedure.Proofs.Blame
import FieldProcedure.Proofs.Trimming
import FieldProcedure.Proofs.Essentials
import FieldProcedure.Proofs.Requests
import FieldProcedure.Proofs.Delivery
import FieldProcedure.Proofs.Digits
import FieldProcedure.Proofs.FirstFree
import FieldProcedure.Proofs.Numbering
import FieldProcedure.Proofs.Casing
import FieldProcedure.Proofs.Splitting
import FieldProcedure.Proofs.Configs
import FieldProcedure.Proofs.Rereading
import FieldProcedure.Proofs.Decimals
import FieldProcedure.Proofs.NumericCells
import FieldProcedure.Proofs.Lookups
import FieldProcedure.Proofs.Sinks
import FieldProcedure.Proofs.Encoding
import FieldProcedure.Proofs.Nested
import FieldProcedure.Proofs.Selections
import FieldProcedure.Proofs.Unvetted
import FieldProcedure.Proofs.Walks
import FieldProcedure.Proofs.Bases
import FieldProcedure.Proofs.Unambiguous
import FieldProcedure.Proofs.Printing
import FieldProcedure.Proofs.Attributes
