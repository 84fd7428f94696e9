import Treewalk.Main
import Treewalk.Scope.Table
import Treewalk.Proofs.Session.InParts
import Treewalk.Proofs.Session.Between
import Treewalk.Proofs.Session.Names
import Treewalk.Proofs.Session.Search
import Treewalk.Proofs.Session.Renaming
import Treewalk.Proofs.Session.Returns
import Treewalk.Proofs.Session.Complete
import Treewalk.Proofs.CommandLine
import Treewalk.Proofs.Shell
import Treewalk.Proofs.Grammar.Boundary
import Treewalk.Proofs.Grammar.Given
import Treewalk.Proofs.Scope.Path
import Treewalk.Proofs.Scope.Illegal
import Treewalk.Proofs.Token.Comment
import Treewalk.Proofs.Token.Fit
import Treewalk.Proofs.Token.Continuation
import Treewalk.Proofs.Token.Coverage
import Treewalk.Proofs.Token.Spaced
import Treewalk.Proofs.Eval.Renumbering
import Treewalk.Proofs.Scope.ForLoop
import Treewalk.Proofs.Eval.ForLoop
import Treewalk.Proofs.Session.ForLoop
import Treewalk.Proofs.Grammar.Context
import Treewalk.Proofs.Grammar.Recovery
import Treewalk.Proofs.Token.Pattern
import Treewalk.Proofs.Token.Quote
import Treewalk.Proofs.Token.Nested
import Treewalk.Proofs.Grammar.Built
import Treewalk.Proofs.Grammar.Resume
import Treewalk.Proofs.Grammar.Inside
import Treewalk.Proofs.Scope.Resolver
import Treewalk.Proofs.Outline
