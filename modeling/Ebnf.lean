import Ebnf.Main
import Ebnf.Proofs.LeftRecursion
import Ebnf.Proofs.Generated
import Ebnf.Proofs.FiniteRules
import Ebnf.Proofs.Prepared
import Ebnf.Proofs.Nesting
import Ebnf.Proofs.Escapes
import Ebnf.Proofs.Parents
import Ebnf.Proofs.Reading.Failing
import Ebnf.Proofs.Backtrace
import Ebnf.Proofs.Reading.Derives
import Ebnf.Proofs.Contexts
import Ebnf.Proofs.Predictive
import Ebnf.Proofs.LeftCycles
import Ebnf.Proofs.RoundTrip
import Ebnf.Proofs.Forecasts
import Ebnf.Proofs.Matched
import Ebnf.Proofs.Forest
import Ebnf.Proofs.Searches
import Ebnf.Proofs.Calls
import Ebnf.Proofs.Exactness
import Ebnf.Proofs.Renaming
import Ebnf.Proofs.Reordered
import Ebnf.Proofs.Offsets
import Ebnf.Proofs.ByteOffsets
import Ebnf.Proofs.Lexing
import Ebnf.Proofs.AnyOrder
import Ebnf.Proofs.CutScopes
import Ebnf.Proofs.Lexing.Printing
import Ebnf.Proofs.Commuting
import Ebnf.Proofs.Powers
import Ebnf.Proofs.Moves
import Ebnf.Proofs.Sessions
import Ebnf.Proofs.FullRows
import Ebnf.Proofs.Quantifiers
import Ebnf.Proofs.FiniteSamples
import Ebnf.Proofs.Classes.Items
import Ebnf.Proofs.Classes.OnePass
import Ebnf.Proofs.Classes.Printed
import Ebnf.Proofs.Classes.Sizes
import Ebnf.Proofs.Classes.Unsupported
import Ebnf.Proofs.Classes.Draws
import Ebnf.Proofs.Traces
import Ebnf.Proofs.Lexing.Progress
import Ebnf.Proofs.Lexing.Peeking
import Ebnf.Proofs.Syntax.OneAhead
import Ebnf.Proofs.Syntax.Turns
