import MotionScript.Graph.Reachable
import MotionScript.Main
import MotionScript.Proofs.Linking.Order
import MotionScript.Proofs.RuleStack.Unwinding
import MotionScript.Proofs.Shape.Ending
import MotionScript.Proofs.Ownership.Reading
import MotionScript.Proofs.Ownership.Defaults
import MotionScript.Proofs.Number.Rounding
import MotionScript.Proofs.Number.Written
import MotionScript.Proofs.Number.ReadBack
import MotionScript.Proofs.Token.Pieces
import MotionScript.Proofs.Token.Spelling
import MotionScript.Proofs.Token.Lines
import MotionScript.Proofs.Feeding.Basic
import MotionScript.Proofs.Feeding.Outline
import MotionScript.Proofs.Feeding.Events
import MotionScript.Proofs.Feeding.Leads
import MotionScript.Proofs.Feeding.Statement
import MotionScript.Proofs.Feeding.Conditions
import MotionScript.Proofs.Feeding.Modifiers
import MotionScript.Proofs.Feeding.Transitions
import MotionScript.Proofs.Feeding.Blocks
import MotionScript.Proofs.Feeding.Items
import MotionScript.Proofs.Feeding.Parameters
import MotionScript.Proofs.Feeding.Motions
import MotionScript.Proofs.Feeding.Masks
import MotionScript.Proofs.Feeding.OpenRecords
import MotionScript.Proofs.Feeding.Records
import MotionScript.Proofs.Feeding.Headers
import MotionScript.Proofs.Feeding.StateMotions
import MotionScript.Proofs.Feeding.States
import MotionScript.Proofs.Feeding.Scopes
import MotionScript.Proofs.RoundTrip.Documents
import MotionScript.Proofs.RoundTrip.FixedPoint
import MotionScript.Proofs.Graph.Trees
import MotionScript.Proofs.Graph.Paths
import MotionScript.Proofs.Records.Arrays
import MotionScript.Proofs.Records.MaskText
import MotionScript.Proofs.Conditions.Statements
import MotionScript.Proofs.Statements.Order
import MotionScript.Proofs.Images.Layers
import MotionScript.Proofs.Images.Spaces
import MotionScript.Proofs.Token.Positions
import MotionScript.Proofs.Token.FirstTokens
import MotionScript.Proofs.Reports.Names
import MotionScript.Proofs.Layout.Unplaced
import MotionScript.Proofs.Layout.Edges
import MotionScript.Proofs.Reports.FirstError
import MotionScript.Proofs.Token.Joining
import MotionScript.Proofs.Token.Values
import MotionScript.Proofs.Files.References
