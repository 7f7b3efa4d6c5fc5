import AlRefactor.Main
import AlRefactor.Proofs.Action.Extraction
import AlRefactor.Proofs.Grammar.Termination
import AlRefactor.Proofs.Syntax.Preorder
import AlRefactor.Proofs.Syntax.Ranges
import AlRefactor.Proofs.Syntax.RoundTrip
import AlRefactor.Proofs.Action.Variables
import AlRefactor.Proofs.Edit.Insertion
import AlRefactor.Proofs.Action.Publisher
import AlRefactor.Proofs.Edit.Overload
import AlRefactor.Proofs.Syntax.Layout
import AlRefactor.Proofs.Token.Stream
import AlRefactor.Proofs.Session.Refactoring
import AlRefactor.Proofs.Declaration.Objects
import AlRefactor.Proofs.Action.Faultless
import AlRefactor.Proofs.Syntax.Precedence
import AlRefactor.Proofs.Action.Written
import AlRefactor.Proofs.Grammar.SteadyMembers
import AlRefactor.Proofs.Token.Joints
import AlRefactor.Proofs.Grammar.DeclaringObjects
import AlRefactor.Proofs.Syntax.Twins
import AlRefactor.Proofs.Declaration.Openings
import AlRefactor.Proofs.Action.Calls
import AlRefactor.Proofs.Syntax.Lookup
import AlRefactor.Proofs.Syntax.Recovery
import AlRefactor.Proofs.Declaration.Peers
import AlRefactor.Proofs.Edit.Restoring
import AlRefactor.Proofs.Session.Histories
import AlRefactor.Proofs.Action.Plans
import AlRefactor.Proofs.CommandLine.Positions
import AlRefactor.Proofs.Declaration.Brackets
import AlRefactor.Proofs.Action.BestFit
import AlRefactor.Proofs.Action.Loops
import AlRefactor.Proofs.Edit.Parameters
import AlRefactor.Proofs.Edit.Offsets
import AlRefactor.Proofs.Declaration.InsertionPoint
import AlRefactor.Proofs.Declaration.Arguments
import AlRefactor.Proofs.Action.Signatures
import AlRefactor.Proofs.Syntax.Collecting
import AlRefactor.Proofs.Syntax.Conditionals
import AlRefactor.Proofs.Syntax.ReturnTypes
import AlRefactor.Proofs.Syntax.Identifiers
import AlRefactor.Proofs.Action.PlannedTypes
import AlRefactor.Proofs.Text.Columns
import AlRefactor.Proofs.Text.LineStarts
import AlRefactor.Proofs.Token.WholeLines
import AlRefactor.Proofs.Declaration.TypeTexts
import AlRefactor.Proofs.Declaration.Fields
import AlRefactor.Proofs.Syntax.Diagnostics
import AlRefactor.Proofs.Session.Questions
import AlRefactor.Proofs.Action.LabelNames
import AlRefactor.Proofs.Token.Indentation
