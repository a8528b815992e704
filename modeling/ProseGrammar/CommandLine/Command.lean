import ProseGrammar.CommandLine.Arguments

/-!
# Commands

The program has three commands, each for one grammar file: to run it, to list its rules and to list
its tokens. The arguments ask for a command, for a help text, or are refused.
-/

namespace ProseGrammar.CommandLine

/-! ### Requests -/

/-- The seed of a batch: a fresh one, a number, or blank. -/
inductive SeedOption
  | fresh
  | number (n : Int)
  | blank
  deriving DecidableEq

/-- The options of a run. -/
structure RunOptions where
  knowledge : Option String
  seed : SeedOption
  count : Int
  json : Bool
  maxDepth : Int
  deriving DecidableEq

/-- A single run without knowledge, seed or JSON, with the standard depth limit. -/
def RunOptions.standard : RunOptions :=
  ⟨none, .fresh, 1, false, 64⟩

/-- A command and the grammar file it is for. -/
inductive Command
  | run (file : String) (options : RunOptions)
  | parse (file : String)
  | tokens (file : String)
  deriving DecidableEq

/-- What the arguments ask for. -/
inductive Request
  | help (text : String)
  | usageError
  | command (command : Command)
  /-- A number is needed where an option is blank. -/
  | breakdown (fault : Fault)
  deriving DecidableEq

/-! ### Help -/

def programHelp : String :=
"usage: wordloom [-h] [-v] \x7brun,parse,tokens\x7d ...

wordloom: weighted, stateful text generation grammars

positional arguments:
  \x7brun,parse,tokens\x7d
    run               Compile a grammar file and expand $start
    parse             Parse a grammar file and dump its rules
    tokens            Dump the token stream of a grammar file

options:
  -h, --help          show this help message and exit
  -v, --verbose       Debug logging
"

def runHelp : String :=
"usage: wordloom run [-h] [--knowledge KNOWLEDGE] [--seed SEED] [--count COUNT]
                    [--json] [--max-depth MAX_DEPTH]
                    file

positional arguments:
  file                  Path to grammar file

options:
  -h, --help            show this help message and exit
  --knowledge KNOWLEDGE
                        Knowledge as a JSON object or a path to a JSON file
  --seed SEED           Seed for reproducible output
  --count COUNT         Number of runs (seed advances per run)
  --json                Print output and updated knowledge as JSON
  --max-depth MAX_DEPTH
                        Max nested rule expansions (default: 64)
"

def listingHelp (name : String) : String :=
  "usage: wordloom " ++ name ++ " [-h] file\n\n" ++
"positional arguments:
  file        Path to grammar file

options:
  -h, --help  show this help message and exit
"

/-! ### Options -/

def helpOption : OptionSpec :=
  ⟨"--help", some 'h', false⟩

def programOptions : List OptionSpec :=
  [helpOption, ⟨"--verbose", some 'v', false⟩]

def runOptions : List OptionSpec :=
  [helpOption, ⟨"--knowledge", none, true⟩, ⟨"--seed", none, true⟩, ⟨"--count", none, true⟩,
    ⟨"--json", none, false⟩, ⟨"--max-depth", none, true⟩]

/-- The options to carry out for an option without a value: itself and those of the letters that
follow its own. Nothing comes of a value that is attached to it or of a letter that no option
has. -/
def flags? (specs : List OptionSpec) (spec : OptionSpec) : Attached → Option (List OptionSpec)
  | .nothing => some [spec]
  | .value _ => none
  | .letters letters => (letters.mapM (lettered? specs)).map fun others => spec :: others

/-! ### The arguments of a command -/

/-- What has been read of the arguments of a command. -/
structure Progress where
  file : Option String
  options : RunOptions
  /-- Whether the count is blank. -/
  hasBlankCount : Bool
  /-- Whether the depth limit is blank. -/
  hasBlankDepth : Bool
  /-- Whether an argument fits nowhere, which is refused once all have been read. -/
  hasExtra : Bool

namespace Progress

/-- The start of a command's arguments; `hasExtra` tells of an argument before the command that fits
nowhere. -/
def start (hasExtra : Bool) : Progress :=
  ⟨none, RunOptions.standard, false, false, hasExtra⟩

def setOption (p : Progress) (name value : String) : Option Progress :=
  match name with
  | "--knowledge" => some { p with options := { p.options with knowledge := some value } }
  | "--seed" =>
    (integer? value).map fun n => { p with options := { p.options with seed := .number n } }
  | "--count" =>
    (integer? value).map fun n =>
      { p with options := { p.options with count := n }, hasBlankCount := false }
  | "--max-depth" =>
    (integer? value).map fun n =>
      { p with options := { p.options with maxDepth := n }, hasBlankDepth := false }
  | _ => none

def setBlank (p : Progress) (name : String) : Progress :=
  match name with
  | "--knowledge" => { p with options := { p.options with knowledge := none } }
  | "--seed" => { p with options := { p.options with seed := .blank } }
  | "--count" => { p with hasBlankCount := true }
  | "--max-depth" => { p with hasBlankDepth := true }
  | _ => p

/-- Takes an operand, which is the file unless there is one already. -/
def operand (p : Progress) (text : String) : Progress :=
  match p.file with
  | none => { p with file := some text }
  | some _ => { p with hasExtra := true }

/-- Whether a run is to have at least one round and one level; blank options cannot be compared. -/
def hasRounds (p : Progress) : Except Fault Bool := do
  if p.hasBlankCount then throw .blankCompared
  if p.options.count < 1 then return false
  if p.hasBlankDepth then throw .blankCompared
  return 1 ≤ p.options.maxDepth

end Progress

/-- Reads the arguments of a command from left to right, up to the first request for help or the
first argument that is refused. -/
def readCommand (help : String) (specs : List OptionSpec) (finish : Progress → Request) :
    List Argument → Progress → Request
  | [], p => finish p
  | .operand text :: .separator :: rest, p =>
    readCommand help specs finish rest (p.operand text)
  | .operand text :: rest, p => readCommand help specs finish rest (p.operand text)
  | .separator :: rest, p =>
    if rest.isEmpty || p.file.isSome then
      readCommand help specs finish rest { p with hasExtra := true }
    else readCommand help specs finish rest p
  | .unknownOption :: rest, p => readCommand help specs finish rest { p with hasExtra := true }
  | .option spec attached :: rest, p =>
    if spec.takesValue then
      match attached, rest with
      | .value "--", rest => readCommand help specs finish rest (p.setBlank spec.name)
      | .value value, rest | .nothing, .operand value :: rest =>
        match p.setOption spec.name value with
        | some p => readCommand help specs finish rest p
        | none => .usageError
      | _, _ => .usageError
    else
      match flags? specs spec attached with
      | none => .usageError
      | some flags =>
        if flags.contains helpOption then .help help
        else
          let json := p.options.json || flags.any fun flag => flag.name = "--json"
          readCommand help specs finish rest { p with options := { p.options with json } }

/-- Makes a request of what has been read, unless the file is missing or an argument was left
over. -/
def finishWith (request : String → Request) (p : Progress) : Request :=
  match p.file with
  | some file => if p.hasExtra then .usageError else request file
  | none => .usageError

def finishRun (p : Progress) : Request :=
  finishWith (fun file =>
    match p.hasRounds with
    | .ok true => .command (.run file p.options)
    | .ok false => .usageError
    | .error fault => .breakdown fault) p

/-- The request of a command's arguments; `hasExtra` tells of an argument before the command that
fits nowhere. -/
def commandRequest (name : String) (hasExtra : Bool) (args : List String) : Request :=
  let read := fun help specs finish =>
    match readArguments specs args with
    | none => Request.usageError
    | some arguments => readCommand help specs finish arguments (.start hasExtra)
  match name with
  | "run" => read runHelp runOptions finishRun
  | "parse" => read (listingHelp "parse") [helpOption] (finishWith fun file => .command (.parse file))
  | "tokens" =>
    read (listingHelp "tokens") [helpOption] (finishWith fun file => .command (.tokens file))
  | _ => .usageError

/-! ### The arguments of the program -/

/-- Reads the arguments of the program: its own options, and then a command with its arguments. -/
def readProgram (hasExtra : Bool) : List String → List Argument → Request
  | [], _ => if hasExtra then .usageError else .help programHelp
  | arg :: args, argument :: arguments =>
    match argument with
    | .operand _ => commandRequest arg hasExtra args
    | .separator => .usageError
    | .unknownOption => readProgram true args arguments
    | .option spec attached =>
      match flags? programOptions spec attached with
      | none => .usageError
      | some flags =>
        if flags.contains helpOption then .help programHelp
        else readProgram hasExtra args arguments
  | _ :: _, [] => .usageError

def Request.ofArguments (args : List String) : Request :=
  match readArguments programOptions args with
  | none => .usageError
  | some arguments => readProgram false args arguments

end ProseGrammar.CommandLine
