import ProseGrammar.Table

/-!
# Files

Commands find files by their paths. A directory that is given by its files answers what stands at a
path: the path is followed from the directory segment by segment, where an empty segment and a
single dot stay in place, two dots lead to the directory above, and nothing but directories can be
entered. Of what lies outside nothing is known but that it consists of directories.
-/

namespace ProseGrammar.CommandLine

/-! ### What stands at a path -/

/-- What stands at a path. -/
inductive Entry
  | missing
  | directory
  | file (bytes : List UInt8)
  /-- A file that cannot be opened, for some reason. -/
  | unreadable (reason : String)
  deriving DecidableEq

abbrev Files : Type :=
  String → Entry

/-! ### Paths -/

def segments : List Char → List (List Char)
  | [] => [[]]
  | c :: rest =>
    if c = '/' then [] :: segments rest
    else
      match segments rest with
      | [] => [[c]]
      | first :: others => (c :: first) :: others

/-- A place that a path leads to: below the directory, by the names on the way, or outside. -/
inductive Place
  | inside (names : List (List Char))
  | outside
  deriving DecidableEq

namespace Place

def parent : Place → Place
  | inside [] => outside
  | inside names => inside names.dropLast
  | outside => outside

end Place

/-! ### Directories -/

/-- A directory: the files below it by the names that lead to them. -/
structure Directory where
  files : List (List (List Char) × List UInt8)

namespace Directory

/-- Segments that name something; the others stay in place. -/
def isName (segment : List Char) : Bool :=
  segment ≠ [] && segment ≠ ['.']

/-- The directory of files by their paths; a later file of a path takes the place of an earlier
one. -/
def ofFiles (files : Table (List UInt8)) : Directory :=
  ⟨(files.map fun file => ((segments file.1.toList).filter isName, file.2)).reverse⟩

def at? (d : Directory) : Place → Entry
  | .outside => .directory
  | .inside names =>
    match d.files.find? fun file => file.1 = names with
    | some file => .file file.2
    | none =>
      if names.isEmpty || d.files.any fun file => names.isPrefixOf file.1 then .directory
      else .missing

def follow (d : Directory) : Place → List (List Char) → Entry
  | place, [] => d.at? place
  | place, segment :: rest =>
    if d.at? place ≠ .directory then .missing
    else if !isName segment then d.follow place rest
    else if segment = ['.', '.'] then d.follow place.parent rest
    else
      match place with
      | .inside names => d.follow (.inside (names ++ [segment])) rest
      | .outside => .missing

def entry (d : Directory) (path : String) : Entry :=
  match path.toList with
  | [] => .missing
  | '/' :: rest => d.follow .outside (segments rest)
  | cs => d.follow (.inside []) (segments cs)

end Directory

end ProseGrammar.CommandLine
