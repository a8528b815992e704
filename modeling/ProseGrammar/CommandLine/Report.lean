import ProseGrammar.CommandLine.Command
import ProseGrammar.CommandLine.Files
import ProseGrammar.Generator
import ProseGrammar.Json.Read
import ProseGrammar.Json.Write
import ProseGrammar.Text.Lines

/-!
# Carrying out commands

A command reads files and ends in a report: the text for the output, warnings, and how it ended. A
batch of runs goes on until the first run that fails, and the report keeps the output of the runs
before it. Faults that a command has no message for end it as a breakdown. Everything that a command
does for knowledge, rules and runs is done on one stack.
-/

namespace ProseGrammar.CommandLine

/-! ### Reports -/

/-- How a command ends. -/
inductive Ending
  | success
  /-- A message for the error output. -/
  | failure (message : String)
  /-- The arguments were refused. -/
  | usageError
  /-- A fault without a message. -/
  | breakdown (fault : Fault)
  deriving DecidableEq

namespace Ending

/-- The exit status of the program. -/
def status : Ending → UInt32
  | .success => 0
  | .failure _ => 1
  | .usageError => 2
  | .breakdown _ => 1

/-- What the program writes to the error output, followed by a line break. -/
def message? : Ending → Option String
  | .success => none
  | .failure message => some message
  | .usageError => some "the arguments are not valid; --help shows those that are"
  | .breakdown fault => some fault.message

end Ending

/-- What a command leaves behind. -/
structure Report where
  output : String
  warnings : List String
  ending : Ending
  deriving DecidableEq

namespace Report

def ofOutput (output : String) : Report :=
  ⟨output, [], .success⟩

def ofEnding (ending : Ending) : Report :=
  ⟨"", [], ending⟩

def ofResult (result : Except Fault String) : Report :=
  match result with
  | .ok output => ofOutput output
  | .error fault => ofEnding (.breakdown fault)

end Report

def linesText (lines : List String) : String :=
  String.join (lines.map fun line => line ++ "\n")

/-! ### Reading files -/

def decodeText (bytes : List UInt8) : Except Fault String :=
  match Text.ofUtf8 bytes with
  | .ok cs => .ok (String.ofList (Text.unifyBreaks cs))
  | .error fault => .error (.encoding fault)

def missingFile (file : String) : Ending :=
  .failure ("Error: File not found: " ++ file)

/-- Goes on with the text of a grammar file, or ends. -/
def withSource (files : Files) (file : String) (next : String → Report) : Report :=
  match files file with
  | .missing => .ofEnding (missingFile file)
  | .directory => .ofEnding (.breakdown (.isDirectory file))
  | .unreadable reason => .ofEnding (.breakdown (.unreadable file reason))
  | .file bytes =>
    match decodeText bytes with
    | .ok source => next source
    | .error fault => .ofEnding (.breakdown fault)

/-- The JSON text that an option gives, or that stands in the file that it names; none if the option
is left out or empty. -/
def knowledgeText (files : Files) (option : Option String) : Except Fault (Option String) :=
  match option with
  | none => .ok none
  | some text =>
    if text.isEmpty then .ok none
    else
      match files text with
      | .missing => .ok (some text)
      | .directory => .error (.isDirectory text)
      | .unreadable reason => .error (.unreadable text reason)
      | .file bytes => some <$> decodeText bytes

/-- The knowledge that an option gives, read with as much room as it takes. -/
def loadKnowledge (files : Files) (option : Option String) : Except Fault Knowledge := do
  match ← knowledgeText files option with
  | none => return []
  | some json => Json.readKnowledge json

def loadKnowledgeOn (stack : Nat) (files : Files) (option : Option String) :
    Except Fault Knowledge := do
  match ← knowledgeText files option with
  | none => return []
  | some json => Json.readKnowledgeOn stack json

/-- Whether a fault says that knowledge is invalid, rather than out of range, out of reach or not to
be printed. -/
def invalidatesKnowledge : Fault → Bool
  | .integerRange => false
  | .isDirectory _ => false
  | .unreadable _ _ => false
  | .stack _ => false
  | .loneSurrogate _ => false
  | _ => true

/-! ### Listings -/

def tokenLine (t : Token) : String :=
  let shown := Text.quoted t.value
  s!"  {t.position.line}:{t.position.column}\t{t.kind.name}\t{shown}"

/-- The listing of a rule: the number of its alternatives, and their weights unless all are one. -/
def ruleLine (name : String) (rule : Rule) : Except Fault String := do
  let weights := rule.alternatives.map fun a => a.weight
  let shown ← if weights.all fun w => w.equal (.float 1) then pure ""
    else do pure (" weights=" ++ (← (Value.list weights).inspect))
  return s!"  ${name}: {rule.alternatives.length} alternative(s)" ++ shown

def grammarLines (stack : Nat) (g : Grammar) : Except Fault (List String) := do
  let rules ← g.rules.mapM fun entry => ruleLine entry.1 entry.2
  let source ← Stack.enter (.stack .rendering) g.sourceCalls stack fun _ => g.source
  let warning := if g.rules.has "start" then []
    else ["", "  warning: no $start rule; the grammar cannot be executed"]
  return ["", "=== wordloom grammar ===", "", s!"Rules: {g.rules.length}"] ++
    rules ++ warning ++ ["", "Source:"] ++
    (Text.lines source).map fun line => "  " ++ line

def listTokens (files : Files) (file : String) : Report :=
  withSource files file fun source =>
    match Token.scan source with
    | .ok tokens => .ofOutput (linesText (tokens.map tokenLine))
    | .error fault => .ofEnding (.failure ("Error: " ++ fault.message))

def compileEnding (lexicalLabel syntaxLabel : String) (fault : Fault) : Ending :=
  match fault with
  | .lexical _ _ => .failure (lexicalLabel ++ fault.message)
  | .syntactic _ _ => .failure (syntaxLabel ++ fault.message)
  | .nesting => .failure (syntaxLabel ++ fault.message)
  | _ => .breakdown fault

def listRules (stack : Nat) (files : Files) (file : String) : Report :=
  withSource files file fun source =>
    let reading := Reading.ofSource source
    match reading.grammar with
    | .error fault => ⟨"", reading.warnings, compileEnding "Error: " "Error: " fault⟩
    | .ok g =>
      { Report.ofResult (linesText <$> grammarLines stack g) with warnings := reading.warnings }

/-! ### Runs -/

/-- What is printed of an execution. As JSON the knowledge is written inside of an object. -/
def executionLine (stack : Nat) (json : Bool) (e : Execution) : Except Fault String :=
  if json then
    Stack.enter (.stack .writing) (e.knowledge.writeCalls + 1) stack fun _ => do
      let output ← Json.write e.output
      let knowledge ← Json.write e.knowledge
      return Json.braced ["\"output\": " ++ output, "\"updated_knowledge\": " ++ knowledge]
  else e.output.display

def runEnding (fault : Fault) : Ending :=
  match fault with
  | .evaluation _ _ => .failure ("Runtime Error: " ++ fault.message)
  | _ => .breakdown fault

/-- The lines that `count` runs from number `i` on print up to the first one that fails, and how they
end. -/
def batch (run : Nat → Except Fault String) : (count i : Nat) → List String × Ending
  | 0, _ => ([], .success)
  | count + 1, i =>
    match run i with
    | .error fault => ([], runEnding fault)
    | .ok line =>
      let (lines, ending) := batch run count (i + 1)
      (line :: lines, ending)

/-- Run number `i` of a batch; its seed is `i` above that of the first run. -/
def runOnce (stack : Nat) (g : Generator) (knowledge : Knowledge) (options : RunOptions)
    (fresh : Int) (i : Nat) : Except Fault String := do
  let seed ← match options.seed with
    | .fresh => pure Value.null
    | .number seed => pure (.int (seed + i))
    | .blank => throw .blankSeed
  let e ← g.executeOn stack (.object knowledge) seed (fresh + i)
  executionLine stack options.json e

def runGrammar (stack : Nat) (files : Files) (file : String) (options : RunOptions) (fresh : Int) :
    Report :=
  withSource files file fun source =>
    match loadKnowledgeOn stack files options.knowledge with
    | .error fault =>
      if invalidatesKnowledge fault then
        .ofEnding (.failure ("Error: Invalid knowledge: " ++ fault.message))
      else .ofEnding (.breakdown fault)
    | .ok knowledge =>
      let reading := Reading.ofSource source
      let compiled := do
        Generator.compile reading (← Settings.make options.maxDepth .null)
      match compiled with
      | .error fault =>
        ⟨"", reading.warnings, compileEnding "Lexer Error: " "Parse Error: " fault⟩
      | .ok g =>
        let run := runOnce stack g knowledge options fresh
        let (lines, ending) := batch run options.count.toNat 0
        ⟨linesText lines, reading.warnings, ending⟩

/-! ### Programs -/

def Command.report (stack : Nat) (files : Files) (fresh : Int) : Command → Report
  | .run file options => runGrammar stack files file options fresh
  | .parse file => listRules stack files file
  | .tokens file => listTokens files file

def Request.report (stack : Nat) (files : Files) (fresh : Int) : Request → Report
  | .help text => .ofOutput text
  | .usageError => .ofEnding .usageError
  | .command c => c.report stack files fresh
  | .breakdown fault => .ofEnding (.breakdown fault)

end ProseGrammar.CommandLine
