import Flowchart.CommandLine
import Flowchart.Files
import Flowchart.Main
import Flowchart.Proofs.Assembly
import Flowchart.Proofs.BlockTree
import Flowchart.Proofs.CallChecks
import Flowchart.Proofs.Cutting
import Flowchart.Proofs.DocumentReading
import Flowchart.Proofs.ExactIntegers
import Flowchart.Proofs.ExactLiterals
import Flowchart.Proofs.Faults
import Flowchart.Proofs.FlatReading
import Flowchart.Proofs.FormulaText
import Flowchart.Proofs.Grouping
import Flowchart.Proofs.Hoisting
import Flowchart.Proofs.LineBreaks
import Flowchart.Proofs.Locality
import Flowchart.Proofs.Lookup
import Flowchart.Proofs.NamePositions
import Flowchart.Proofs.References
import Flowchart.Proofs.Return
import Flowchart.Proofs.Shape
import Flowchart.Proofs.SourceLines
import Flowchart.Proofs.TreeReading
import Flowchart.Proofs.TreeView
import Flowchart.Proofs.UniqueSource
import Flowchart.Proofs.UnknownTags
import Flowchart.Proofs.VariableNames
import Flowchart.Proofs.WalkFrame
import Flowchart.Workspace
