import Blockscript.CommandLine.Options
import Blockscript.CommandLine.Run
import Blockscript.Decimal.Format
import Blockscript.Decimal.Literal
import Blockscript.Decimal.Shortest
import Blockscript.Evaluation
import Blockscript.Expr
import Blockscript.Expr.Parser
import Blockscript.Main
import Blockscript.Parser
import Blockscript.Scope
import Blockscript.Session
import Blockscript.Stmt
import Blockscript.Stmt.Outline
import Blockscript.Stmt.Parser
import Blockscript.SyntaxError
import Blockscript.Text.Blank
import Blockscript.Text.Position
import Blockscript.Text.Printable
import Blockscript.Text.Quoted
import Blockscript.Text.Utf8
import Blockscript.Token
import Blockscript.Token.Lexeme
import Blockscript.Token.Stream
import Blockscript.Value
import Blockscript.Proofs.Arena
import Blockscript.Proofs.ArenaSafety
import Blockscript.Proofs.Reclamation
import Blockscript.Proofs.ExprParsing
import Blockscript.Proofs.ProgramParsing
import Blockscript.Proofs.Lexing
import Blockscript.Proofs.Printing
import Blockscript.Proofs.RoundTrip
import Blockscript.Proofs.Frame
import Blockscript.Proofs.DepthLimit
import Blockscript.Proofs.LexicalScope
import Blockscript.Proofs.ErrorAtomicity
import Blockscript.Proofs.StaticScope
import Blockscript.Proofs.NestingGuard
import Blockscript.Proofs.Comparison
import Blockscript.Proofs.Rescanning
import Blockscript.Proofs.LayoutIndependence
import Blockscript.Proofs.Phrases
import Blockscript.Proofs.Concatenation
import Blockscript.Proofs.ViablePrefix
import Blockscript.Proofs.CorrectPrefix
import Blockscript.Proofs.Pauses
import Blockscript.Proofs.OnDemand
import Blockscript.Proofs.OnDemandAgreement
import Blockscript.Proofs.TokenAccounting
import Blockscript.Proofs.ErrorLocation
import Blockscript.Proofs.NestingThreshold
import Blockscript.Proofs.Manuscript
import Blockscript.Proofs.Approximation
import Blockscript.Proofs.OperatorChains
import Blockscript.Proofs.Effects
import Blockscript.Proofs.Bisimulation
import Blockscript.Proofs.Forwarding
import Blockscript.Proofs.OperatorTrees
import Blockscript.Proofs.SelfReference
import Blockscript.Proofs.OperandUnification
import Blockscript.Proofs.WrappingArithmetic
import Blockscript.Proofs.LongestMatch
import Blockscript.Proofs.ArenaLaws
import Blockscript.Proofs.BindingPower
import Blockscript.Proofs.Leaves
import Blockscript.Proofs.ArgumentGroups
import Blockscript.Proofs.LineColumns
