import ProseGrammar.Main
import ProseGrammar.Proofs.Evaluation.Threaded
import ProseGrammar.Proofs.Growth
import ProseGrammar.Proofs.Results
import ProseGrammar.Proofs.Evaluation.Scopes
import ProseGrammar.Proofs.Evaluation.OnStack
import ProseGrammar.Proofs.Evaluation.KnowledgeFrame
import ProseGrammar.Proofs.Grammar.Reads
import ProseGrammar.Proofs.Text.Trimming
import ProseGrammar.Proofs.Decimal.Numerals
import ProseGrammar.Proofs.Decimal.Integers
import ProseGrammar.Proofs.Numeric
import ProseGrammar.Proofs.Grammar.Form
import ProseGrammar.Proofs.Grammar.Legible
import ProseGrammar.Proofs.Grammar.Operands
import ProseGrammar.Proofs.Grammar.Rereading
import ProseGrammar.Proofs.Binary64
import ProseGrammar.Proofs.Grammar.RoundTrip
import ProseGrammar.Proofs.Grammar.Canonical
import ProseGrammar.Proofs.Evaluation.Alike
import ProseGrammar.Proofs.Evaluation.Unmentioned
import ProseGrammar.Proofs.Grammar.Fitting
import ProseGrammar.Proofs.Rounding
import ProseGrammar.Proofs.Foreseen
import ProseGrammar.Proofs.Json.Consumed
import ProseGrammar.Proofs.Evaluation.Faults
import ProseGrammar.Proofs.Token.Splitting
import ProseGrammar.Proofs.Token.Layout
import ProseGrammar.Proofs.Grammar.Placeless
import ProseGrammar.Proofs.Grammar.Meaning
import ProseGrammar.Proofs.Grammar.Total
import ProseGrammar.Proofs.Grammar.Concatenation
import ProseGrammar.Proofs.Evaluation.Ending
import ProseGrammar.Proofs.Evaluation.Ranked
import ProseGrammar.Proofs.Evaluation.Matching
import ProseGrammar.Proofs.Evaluation.Independence
import ProseGrammar.Proofs.Evaluation.Drawless
import ProseGrammar.Proofs.CommandLine.Batch
import ProseGrammar.Proofs.Token.Cuts
import ProseGrammar.Proofs.Grammar.Forks
import ProseGrammar.Proofs.Grammar.Bars
import ProseGrammar.Proofs.Grammar.Breaks
import ProseGrammar.Proofs.Evaluation.Messages
import ProseGrammar.Proofs.CommandLine.Faults
import ProseGrammar.Proofs.CommandLine.Requests
import ProseGrammar.Proofs.CommandLine.Endings
import ProseGrammar.Proofs.Json.Numbers
import ProseGrammar.Proofs.Json.Strings
import ProseGrammar.Proofs.Json.Values
import ProseGrammar.Proofs.Json.Storable
import ProseGrammar.Proofs.Json.Loaded
import ProseGrammar.Proofs.CommandLine.Knowledge
import ProseGrammar.Proofs.Grammar.WellFormed
import ProseGrammar.Proofs.Evaluation.Branches
import ProseGrammar.Proofs.Knowledge.Writes
import ProseGrammar.Proofs.Knowledge.Commuting
import ProseGrammar.Proofs.Grammar.Precedence
import ProseGrammar.Proofs.Text.Prose
import ProseGrammar.Proofs.Evaluation.Splitting
import ProseGrammar.Proofs.Draws.Streams
import ProseGrammar.Proofs.Draws.Period
import ProseGrammar.Proofs.Draws.Neighbours
import ProseGrammar.Proofs.Grammar.Literals
import ProseGrammar.Proofs.Selection
import ProseGrammar.Proofs.PlainText
