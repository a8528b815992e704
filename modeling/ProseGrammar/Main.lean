import ProseGrammar.CommandLine.Report

/-!
# The program

Reads the files that a command names, carries it out, and prints its report. Runs without a seed
start from a random one.
-/

namespace ProseGrammar.CommandLine

def Request.fileNames : Request → List String
  | .command (.run file options) => file :: options.knowledge.toList
  | .command (.parse file) => [file]
  | .command (.tokens file) => [file]
  | _ => []

/-- Reads what stands at a path; there is something if the path can be followed. -/
def readEntry (path : String) : IO Entry := do
  try
    let _ ← IO.FS.realPath path
  catch _ => return .missing
  try
    let bytes ← IO.FS.readBinFile path
    return .file bytes.toList
  catch
  | .inappropriateType _ 21 _ => return .directory
  | .permissionDenied _ code details => return .unreadable s!"[Errno {code}] {details}"
  | e => return .unreadable (toString e)

def readFiles (names : List String) : IO Files := do
  let entries ← names.mapM fun name => do return (name, ← readEntry name)
  return fun name => (Table.get? entries name).getD .missing

def randomSeed : IO Int := do
  let bytes ← IO.getRandomBytes 8
  return (bytes.toList.foldl (fun n b => n * 256 + b.toNat) 0 : Nat)

def Report.print (r : Report) : IO UInt32 := do
  for warning in r.warnings do
    IO.eprintln warning
  IO.print r.output
  if let some message := r.ending.message? then
    IO.eprintln message
  return r.ending.status

end ProseGrammar.CommandLine

def main (args : List String) : IO UInt32 := do
  let request := ProseGrammar.CommandLine.Request.ofArguments args
  let files ← ProseGrammar.CommandLine.readFiles request.fileNames
  let seed ← ProseGrammar.CommandLine.randomSeed
  (request.report ProseGrammar.Stack.standard files seed).print
