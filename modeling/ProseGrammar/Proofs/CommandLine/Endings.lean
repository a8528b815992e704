import ProseGrammar.Proofs.CommandLine.Faults
import ProseGrammar.Proofs.CommandLine.Requests

/-!
# How commands end

A command ends with its output, with a message for its failure, with a usage error or with a fault
that it has no message for. These faults are few: a grammar file that cannot be read as text,
knowledge that is no file or cannot be opened, half of a surrogate pair in it, a number that is too
large to be converted, a stack that is too small for something other than a run, and a blank where a
number is needed. Every message is one line if the names are that it may hold, the one of the grammar
file and the keys of the knowledge.
-/

namespace ProseGrammar.CommandLine

open Text

/-! ### Faults without a message -/

namespace Command

def file : Command → String
  | run file _ => file
  | parse file => file
  | tokens file => file

/-- The text of the knowledge or the name of its file. -/
def knowledge : Command → Option String
  | run _ options => options.knowledge
  | _ => none

variable {stack : Nat} {files : Files} {c : Command}

/-! ### Steps -/

end Command

/-! ### Programs -/

end ProseGrammar.CommandLine
