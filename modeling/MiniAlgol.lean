import MiniAlgol.Command.Workspace
import MiniAlgol.Main
import MiniAlgol.Proofs.Command.Agreement
import MiniAlgol.Proofs.Run.Initializers
import MiniAlgol.Proofs.Run.Balance
import MiniAlgol.Proofs.Run.Confinement
import MiniAlgol.Proofs.Run.Faults
import MiniAlgol.Proofs.Run.Shapes
import MiniAlgol.Proofs.Run.Transparency
import MiniAlgol.Proofs.Run.Independence
import MiniAlgol.Proofs.Run.WriteSet
import MiniAlgol.Proofs.Source.Derivation
import MiniAlgol.Proofs.Source.Writer
import MiniAlgol.Proofs.Tree.NormalForm
import MiniAlgol.Proofs.Source.Concatenation
import MiniAlgol.Proofs.Source.Layout
import MiniAlgol.Proofs.Run.Nesting
import MiniAlgol.Proofs.Run.Termination
import MiniAlgol.Proofs.Heap.Bodies
import MiniAlgol.Proofs.Run.Bodies
import MiniAlgol.Proofs.Run.Rewriting
import MiniAlgol.Proofs.Run.Sequencing
import MiniAlgol.Proofs.Run.ElementTypes
import MiniAlgol.Proofs.Run.Failures
import MiniAlgol.Proofs.Run.Capacity
import MiniAlgol.Proofs.Run.Loops
import MiniAlgol.Proofs.Run.Results
import MiniAlgol.Proofs.Run.Comparisons
import MiniAlgol.Proofs.Run.Printing
import MiniAlgol.Proofs.Source.Prefixes
import MiniAlgol.Proofs.Run.Operands
