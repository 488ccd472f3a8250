import SeqScript.Main
import SeqScript.Proofs.Declarations
import SeqScript.Proofs.Footprint
import SeqScript.Proofs.Conform
import SeqScript.Proofs.Provenance
import SeqScript.Proofs.Discipline
import SeqScript.Proofs.Discipline.Collection
import SeqScript.Proofs.Discipline.Expr
import SeqScript.Proofs.Discipline.Call
import SeqScript.Proofs.Effects
import SeqScript.Proofs.DeclaredTypes
import SeqScript.Proofs.Acyclic
import SeqScript.Proofs.Lockstep.Stmt
import SeqScript.Proofs.Structured
import SeqScript.Proofs.Parsing
import SeqScript.Proofs.Tiling
import SeqScript.Proofs.Rendering
import SeqScript.Proofs.RoundTrip
import SeqScript.Proofs.RoundTrip.Stmt
import SeqScript.Proofs.LexicalScope
import SeqScript.Proofs.Scanning
import SeqScript.Proofs.Regime
import SeqScript.Proofs.Regime.Step
import SeqScript.Proofs.CallLimit
import SeqScript.Proofs.Termination
import SeqScript.Proofs.Resolution
import SeqScript.Proofs.Widening
import SeqScript.Proofs.Writes
import SeqScript.Proofs.Composition
import SeqScript.Proofs.Apart
import SeqScript.Proofs.Data
import SeqScript.Proofs.Assignment
import SeqScript.Proofs.Arrival
import SeqScript.Proofs.Sorting
import SeqScript.Proofs.Literals
import SeqScript.Proofs.Rounding
import SeqScript.Proofs.Rounding.Order
import SeqScript.Proofs.RoundedOrder
import SeqScript.Proofs.ExactIntegers
import SeqScript.Proofs.Numerals
import SeqScript.Proofs.Matching
import SeqScript.Proofs.Forms
import SeqScript.Proofs.Snapshot
import SeqScript.Proofs.Cells
import SeqScript.Proofs.Equality
import SeqScript.Proofs.Tables
import SeqScript.Proofs.RowMajor
import SeqScript.Proofs.RowMajor.Inverse
import SeqScript.Proofs.RowMajor.Bounds
import SeqScript.Proofs.Transpose
import SeqScript.Proofs.Rational
import SeqScript.Proofs.ExactInverse
import SeqScript.Proofs.Rotation
import SeqScript.Proofs.LiteralTokens
import SeqScript.Proofs.Octets
import SeqScript.Proofs.Octets.Agreement
import SeqScript.Proofs.Octets.Positions
import SeqScript.Proofs.TypeText
import SeqScript.Proofs.Arrangement
import SeqScript.Proofs.StableSort
