import AsmLoader.Text.Blank
import AsmLoader.Text.Lines
import AsmLoader.Text.Quoted
import AsmLoader.Symbol.Expansion
import AsmLoader.Engine
import AsmLoader.Region.Environment
import AsmLoader.Region.Host
import AsmLoader.Manager
import AsmLoader.Registry
import AsmLoader.Machine.Convention
import AsmLoader.Machine.Encoding
import AsmLoader.Machine.Display
import AsmLoader.Source.Statement
import AsmLoader.Source.Formula
import AsmLoader.Assembly.Program
import AsmLoader.Session
import AsmLoader.Session.History
import AsmLoader.Proofs.Outcome
import AsmLoader.Proofs.Machine.Displacement
import AsmLoader.Proofs.Machine.Reference
import AsmLoader.Proofs.Machine.Dissection
import AsmLoader.Proofs.Machine.Showing
import AsmLoader.Proofs.Machine.Extension
import AsmLoader.Proofs.Assembly.Reference
import AsmLoader.Proofs.Assembly.Numbering
import AsmLoader.Proofs.Assembly.Sweep
import AsmLoader.Proofs.Assembly.Piece
import AsmLoader.Proofs.Assembly.Layout
import AsmLoader.Proofs.Assembly.Emission
import AsmLoader.Proofs.Assembly.Spread
import AsmLoader.Proofs.Assembly.Arrangement
import AsmLoader.Proofs.Assembly.Program
import AsmLoader.Proofs.Assembly.Counting
import AsmLoader.Proofs.Assembly.LabelResolution
import AsmLoader.Proofs.Assembly.ImmediateTargets
import AsmLoader.Proofs.Assembly.FixedBlock
import AsmLoader.Proofs.Assembly.Rejection
import AsmLoader.Proofs.Assembly.FixedSource
import AsmLoader.Proofs.Assembly.Move
import AsmLoader.Proofs.Assembly.Acceptance
import AsmLoader.Proofs.Assembly.Success
import AsmLoader.Proofs.Assembly.Correspondence
import AsmLoader.Proofs.Assembly.Renaming
import AsmLoader.Proofs.Assembly.Padding
import AsmLoader.Proofs.Assembly.DataLayout
import AsmLoader.Proofs.Assembly.QuotedText
import AsmLoader.Proofs.Assembly.Selects
import AsmLoader.Proofs.Assembly.Encoded
import AsmLoader.Proofs.Assembly.ImmediateRange
import AsmLoader.Proofs.Assembly.Immediates
import AsmLoader.Proofs.Assembly.MemorySizes
import AsmLoader.Proofs.Assembly.Attribution
import AsmLoader.Proofs.Assembly.Mnemonics
import AsmLoader.Proofs.Assembly.Destinations
import AsmLoader.Proofs.Assembly.Relocation
import AsmLoader.Proofs.Assembly.Room
import AsmLoader.Proofs.Source.Definitions
import AsmLoader.Proofs.Assembly.Repetitions
import AsmLoader.Proofs.Assembly.FirstLabels
import AsmLoader.Proofs.Source.References
import AsmLoader.Proofs.Assembly.LocalLabels
import AsmLoader.Proofs.Region.Contents
import AsmLoader.Proofs.Region.Bounds
import AsmLoader.Proofs.Manager.Loads
import AsmLoader.Proofs.Session.Invariant
import AsmLoader.Proofs.Session.FixedSlot
import AsmLoader.Proofs.Session.RunSafety
import AsmLoader.Proofs.Symbol.Pieces
import AsmLoader.Proofs.Symbol.Expansion
import AsmLoader.Proofs.Symbol.Composition
import AsmLoader.Proofs.Symbol.Lines
import AsmLoader.Proofs.Symbol.LookedUp
import AsmLoader.Proofs.Source.Substitution
import AsmLoader.Proofs.Source.LineEnds
import AsmLoader.Proofs.Source.Padding
import AsmLoader.Proofs.Source.Linear
import AsmLoader.Proofs.Source.Folding
import AsmLoader.Proofs.Source.Evaluation
import AsmLoader.Proofs.Source.Grammar
import AsmLoader.Proofs.Source.Addressing
import AsmLoader.Proofs.Source.Coefficients
import AsmLoader.Proofs.Source.AddressForms
import AsmLoader.Proofs.Source.WrittenAddresses
import AsmLoader.Proofs.Source.SymbolicAddresses
import AsmLoader.Proofs.Source.OperandMeaning
import AsmLoader.Proofs.Text.Digits
import AsmLoader.Proofs.Text.Lines
import AsmLoader.Proofs.Source.Literal
import AsmLoader.Proofs.Session.Effect
import AsmLoader.Proofs.Session.LastCompile
import AsmLoader.Proofs.Session.RunAnswer
import AsmLoader.Proofs.Session.FailedAssembly
import AsmLoader.Proofs.Session.UnitState
import AsmLoader.Proofs.Session.Predefinition
import AsmLoader.Proofs.Region.Rounding
import AsmLoader.Proofs.Session.Loading
import AsmLoader.Proofs.Text.Trimming
import AsmLoader.Proofs.Region.Environment
import AsmLoader.Proofs.Assembly.LabelSetting
import AsmLoader.Proofs.Session.Listing
