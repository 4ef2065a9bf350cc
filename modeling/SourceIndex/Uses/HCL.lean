import SourceIndex.Idiom.HCL
import SourceIndex.Record.Symbol

/-!
# Uses in HCL

Variables, modules, data, locals and resources that expressions name. Of several uses of one name
on a line the first counts.
-/

namespace SourceIndex.Uses.HCL

open SourceIndex.Idiom.HCL
open SourceIndex.Text (Pattern)

/-- A name of a block. -/
def name (group : Nat) : Pattern Char :=
  .group group (.seq (.one fun c => c.isLower || c == '_')
    (.star (.one fun c => c.isAlphanum || c == '_' || c == '-')))

/-- A whole path of names. -/
def path (parts : List (Pattern Char)) : Pattern Char :=
  .seqs (.wordEdge :: (parts ++ [.wordEdge]))

/-- A variable. -/
def variablePath : Pattern Char :=
  path [.word "var.", name 1]

/-- A module, and perhaps one of its outputs. -/
def modulePath : Pattern Char :=
  path [.word "module.", name 1, .opt (.seq (.char '.') (name 2))]

/-- A source of data. -/
def dataPath : Pattern Char :=
  path [.word "data.", name 1, .char '.', name 2]

/-- A local. -/
def localPath : Pattern Char :=
  path [.word "local.", name 1]

/-- The type of a resource, which holds an underscore, and its name. -/
def resourcePath : Pattern Char :=
  let type : Pattern Char :=
    .seqs [.one Char.isLower, .star (.one fun c => c.isLower || c.isDigit), .char '_',
      .one Char.isLower, .star (.one fun c => c.isAlphanum || c == '_')]
  path [.group 1 type, .char '.', name 2]

/-- Starts of names that are no types of resources. -/
def builtins : List String :=
  ["var", "module", "data", "local", "each", "count", "path", "terraform", "self", "null"]

/-- The names that the matches of a pattern give. -/
def targets (pattern : Pattern Char) (toName : String → String → Option String)
    (line : List Char) : List String :=
  (pattern.findAll line).filterMap fun m =>
    toName ((m.text? 1 line).getD "") ((m.text? 2 line).getD "")

/-- All names that a line uses. -/
def lineTargets (line : List Char) : List String :=
  let first := fun (a _ : String) => some a
  targets variablePath first line ++ targets modulePath first line ++
    targets dataPath (fun type name => some ("data." ++ type ++ "." ++ name)) line ++
    targets localPath first line ++
    targets resourcePath
      (fun type name => if builtins.contains (Text.beforeFirst "_" type) then none else some name)
      line

/-- The name of a block with labels, by which its lines are known. -/
def blockName? (line : List Char) : Option String :=
  (opening? line).bind fun o =>
    match o.labels with
    | [type, name] =>
        some ((if o.keyword == "data" then "data." else "") ++ type ++ "." ++ name)
    | [label] => some label
    | _ => none

/-- The uses of some lines, after a block with labels. -/
def usesFrom (block : Option String) : List Line → List Reference
  | [] => []
  | line :: rest =>
      let block := (blockName? line.text).or block
      (firstOfEach id (lineTargets line.text)).map (fun target =>
        { sourceName := block, targetName := target, kind := .call,
          line := line.number.toUInt32 }) ++ usesFrom block rest

/-- The uses of a file; one of values has none. -/
def references (d : Document) : List Reference :=
  if isValues d.path then [] else usesFrom none (linesOf d)

end SourceIndex.Uses.HCL
