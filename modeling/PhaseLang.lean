import PhaseLang.Main
import PhaseLang.Proofs.Excerpts
import PhaseLang.Proofs.Grammar.Enums
import PhaseLang.Proofs.Grammar.Holes
import PhaseLang.Proofs.Grammar.LeadingOperators
import PhaseLang.Proofs.Grammar.Promotions
import PhaseLang.Proofs.Grammar.Spans
import PhaseLang.Proofs.Grammar.TypeTexts
import PhaseLang.Proofs.Layout
import PhaseLang.Proofs.Php.Constants
import PhaseLang.Proofs.Php.Initializers
import PhaseLang.Proofs.Php.Joining
import PhaseLang.Proofs.Php.Literals
import PhaseLang.Proofs.Php.Names
import PhaseLang.Proofs.Php.Nesting
import PhaseLang.Proofs.Php.Precedence
import PhaseLang.Proofs.Php.Signs
import PhaseLang.Proofs.Php.Strict
import PhaseLang.Proofs.Php.Targets
import PhaseLang.Proofs.Token.Comments
import PhaseLang.Proofs.Token.Nesting
import PhaseLang.Proofs.Typing.Framing
import PhaseLang.Proofs.Typing.Lookups
import PhaseLang.Proofs.Typing.Repetitions
import PhaseLang.Snippet
import PhaseLang.Tree.Bodies
