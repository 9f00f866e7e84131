import Vimscript.Main
import Vimscript.Proofs.CommandLine
import Vimscript.Proofs.Expr.Forms
import Vimscript.Proofs.Expr.Grouping
import Vimscript.Proofs.Expr.Methods
import Vimscript.Proofs.Expr.Moved
import Vimscript.Proofs.Expr.Nodes
import Vimscript.Proofs.Expr.Outlined
import Vimscript.Proofs.Expr.Parentheses
import Vimscript.Proofs.Expr.Plain
import Vimscript.Proofs.Expr.Points
import Vimscript.Proofs.Expr.Quotes
import Vimscript.Proofs.Expr.Reprinted
import Vimscript.Proofs.Expr.Shaped
import Vimscript.Proofs.Expr.Unfinished
import Vimscript.Proofs.Grammar.Bounded
import Vimscript.Proofs.Limits
import Vimscript.Proofs.Nesting
import Vimscript.Proofs.Spans
