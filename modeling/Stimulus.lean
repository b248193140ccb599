import Stimulus.Device.Switch
import Stimulus.Main
import Stimulus.StateChart
import Stimulus.Sequence.Draft
import Stimulus.Proofs.Build
import Stimulus.Proofs.Characters
import Stimulus.Proofs.History
import Stimulus.Proofs.Devices
import Stimulus.Proofs.Legality
import Stimulus.Proofs.Name
import Stimulus.Proofs.Naming
import Stimulus.Proofs.Statement.Tree
import Stimulus.Proofs.Statement.Checked
import Stimulus.Proofs.Sequence.Layout
import Stimulus.Proofs.Sequence.Work
import Stimulus.Proofs.Sequence.Accepted
import Stimulus.Proofs.Sequence.Graph
import Stimulus.Proofs.Sequence.Conservation
import Stimulus.Proofs.Sequence.Sealing
import Stimulus.Proofs.Sequence.Compilable
import Stimulus.Proofs.Sequence.Hosted
import Stimulus.Proofs.Run.Code
import Stimulus.Proofs.Run.Script
import Stimulus.Proofs.Run.Place
import Stimulus.Proofs.Run.Sequencer
import Stimulus.Proofs.Run.Waking
import Stimulus.Proofs.Run.Turn
import Stimulus.Proofs.Run.Refinement
import Stimulus.Proofs.Run.Holding
import Stimulus.Proofs.Sequence.Waits
import Stimulus.Proofs.Run.Resuming
import Stimulus.Proofs.Run.Clock
import Stimulus.Proofs.Run.Stance
import Stimulus.Proofs.Run.Visits
import Stimulus.Proofs.Run.Loops
import Stimulus.Proofs.Run.Rounds
import Stimulus.Proofs.Run.Toggles
import Stimulus.Proofs.Run.Marking
import Stimulus.Proofs.Run.SourceMeasure
import Stimulus.Proofs.Run.Expiry
import Stimulus.Proofs.Rounding.Given
import Stimulus.Proofs.Rounding.Mention
import Stimulus.Proofs.Rounding.Expression
import Stimulus.Proofs.Rounding.Statement
import Stimulus.Proofs.Rounding.Wrapping
import Stimulus.Proofs.Rounding.Kept
import Stimulus.Proofs.Rounding.Devices
import Stimulus.Proofs.Rounding.Parts
import Stimulus.Proofs.Rounding.Definition
import Stimulus.Proofs.Poisoning
import Stimulus.Proofs.Bus.Slicing
import Stimulus.Proofs.Handles
import Stimulus.Proofs.Initialisation
import Stimulus.Proofs.Grammar.Construction
import Stimulus.Proofs.Grammar.Rendering
import Stimulus.Proofs.Grammar.Breaking
import Stimulus.Proofs.Grammar.Crossing
import Stimulus.Proofs.Grammar.Quotation
import Stimulus.Proofs.Evaluation.Promotion
import Stimulus.Proofs.Evaluation.Folding
import Stimulus.Proofs.Evaluation.Words
import Stimulus.Proofs.Bus.Writing
import Stimulus.Proofs.Bus.Reading
import Stimulus.Proofs.Taking
import Stimulus.Proofs.Terminals
import Stimulus.Proofs.StateChart
import Stimulus.Proofs.SideFiles.Markers
import Stimulus.Proofs.Splicing.Modules
import Stimulus.Proofs.Decimal.Nearest
import Stimulus.Proofs.Decimal.Rounded
import Stimulus.Proofs.Decimal.Literal
import Stimulus.Proofs.Interface.Parts
import Stimulus.Proofs.Interface.Reading
import Stimulus.Proofs.Interface.Emission
