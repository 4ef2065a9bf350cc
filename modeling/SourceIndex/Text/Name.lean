import SourceIndex.Text.Blank
import SourceIndex.Text.Part

/-!
# Names, quotes and comment marks

Small rules on the text of names and comments that every language shares.
-/

namespace SourceIndex.Text

/-- A name inside a scope; a missing or empty scope adds nothing. -/
def qualify (scope : Option String) (name separator : String) : String :=
  match scope with
  | some s => if s.isEmpty then name else s ++ separator ++ name
  | none => name

/-- What is left of a scoped name after cutting behind the last copy of each separator in turn. -/
def lastSegment (name : String) (separators : List String) : String :=
  separators.foldl (fun rest separator => afterLast separator rest) name

/-- The text inside one pair of equal quotes, or the trimmed text if it has none. -/
def unquote (text : String) : String :=
  let t := (trim text).toList
  match t with
  | q :: rest =>
      if (q == '"' || q == '\'' || q == '\x60') && rest.getLast? == some q then
        String.ofList rest.dropLast
      else
        String.ofList t
  | [] => ""

/-- The marks that open a comment, the longer ones first. -/
def commentMarks : List String :=
  ["/**", "/*", "///", "//!", "//", "#"]

/-- The text of a comment: without its opening and closing marks, and without the stars and
blanks around each line. -/
def stripCommentMarks (text : String) : String :=
  let t := trim text
  let t := (commentMarks.findSome? fun mark => dropPrefix? mark t).getD t
  let t := dropSuffix "*/" t
  trim ("\n".intercalate ((lines t).map fun line => trim (trimStartChar '*' (trim line))))

/-- The name of a file without its directories. -/
def fileName (path : String) : String :=
  String.ofList ((Chars.splitWhere (fun c => c == '/' || c == '\\') path.toList).getLastD [])

/-- The name of a file up to its last dot. A name whose only dot comes first, the name of two dots
and a name without dots stay whole. -/
def fileStem (path : String) : String :=
  let name := fileName path
  match splitLast? "." name with
  | some (stem, _) => if stem.isEmpty || name == ".." then name else stem
  | none => name

/-- The ending of a file's name from its last dot on, in lower case; a dot that comes first starts
no ending. -/
def extension? (path : String) : Option String :=
  match splitLast? "." (fileName path) with
  | some (stem, rest) => if stem.isEmpty then none else some (lowerEnding rest)
  | none => none
where
  lowerEnding (rest : String) : String :=
    String.ofList ('.' :: rest.toList.map Char.toLower)

end SourceIndex.Text
