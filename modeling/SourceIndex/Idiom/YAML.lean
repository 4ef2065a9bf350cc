import SourceIndex.Document
import SourceIndex.Text.Pattern

/-!
# YAML: keys, blocks and lists

YAML is read line by line. A file may be a pipeline of one of two kinds, which its first lines tell.
-/

namespace SourceIndex.Idiom.YAML

open SourceIndex.Text (Pattern Chars.trim Chars.trimStart Chars.trimEnd Chars.words)

/-- A line, with its number counted from one and the lines after it. -/
structure Line where
  number : Nat
  text : List Char
  after : List (List Char)
  deriving Repr, DecidableEq

/-- The lines of a text from a number on. -/
def linesFrom (number : Nat) : List (List Char) → List Line
  | [] => []
  | text :: after => ⟨number, text, after⟩ :: linesFrom (number + 1) after

/-- The lines of a file. -/
def linesOf (d : Document) : List Line :=
  linesFrom 1 (Text.Chars.lines d.fullText)

/-- The text of the first group of a pattern, in a line that it matches from the start. -/
def first? (pattern : Pattern Char) (line : List Char) : Option String :=
  (pattern.matchAt? [] line).bind fun m => m.text? 1 line

/-- Does a pattern match a line from the start? -/
def fits (pattern : Pattern Char) (line : List Char) : Bool :=
  (pattern.matchAt? [] line).isSome

/-- A key and its colon. -/
def key (name : String) : Pattern Char :=
  .seqs [.word name, .blanks, .char ':']

/-- A key with nothing after it. -/
def openKey (name : String) : Pattern Char :=
  .seqs [key name, .blanks, .atEnd]

/-- What a file is, by its dialect. -/
inductive Dialect where
  | gitlab
  | github
  | plain
  deriving Repr, DecidableEq

/-- The line that starts the jobs of a GitHub pipeline. -/
def jobsKey : Pattern Char :=
  openKey "jobs"

/-- The dialect of a file, by its first 120 lines. -/
def Dialect.ofLines (lines : List (List Char)) : Dialect :=
  let head := lines.take 120
  if head.any (fits (key "on")) && head.any (fits jobsKey) then .github
  else if head.any fun line => "stages:".toList.isPrefixOf (Chars.trim line) then .gitlab
  else .plain

/-- A key at the start of a line. -/
structure TopKey where
  name : String
  /-- Does a block follow, and no value on the line? -/
  isBlock : Bool
  deriving Repr, DecidableEq

/-- May a key start with the character? -/
def startsKey (c : Char) : Bool :=
  c.isAlphanum || c == '_' || c == '.' || c == '/' || c == '-'

/-- A blank of ASCII that may follow the colon of a key. -/
def isSeparator (c : Char) : Bool :=
  c == ' ' || c == '\t' || c == '\n' || c == '\r' || c == '\x0c'

/-- A line before and after the first colon that a blank or the end follows. -/
def splitKey? : List Char → Option (List Char × List Char)
  | [] => none
  | c :: rest =>
      if c == ':' && rest.head?.all isSeparator then some ([], rest)
      else (splitKey? rest).map fun (name, value) => (c :: name, value)

/-- Is a value nothing but the start of a block: empty, a comment, or an anchor with at most a
comment after it? -/
def opensBlock (value : List Char) : Bool :=
  match Chars.trim value with
  | [] => true
  | c :: rest =>
      c == '#' || (c == '&' && ((Chars.words (c :: rest)).drop 1).head?.all fun word =>
        word.head? == some '#')

/-- The key at the start of a line; an item of a list is none. -/
def topKey? (line : List Char) : Option TopKey := do
  let c ← line.head?
  if !startsKey c || "- ".toList.isPrefixOf line then none
  let (name, value) ← splitKey? line
  let name := Chars.trimEnd name
  if name.isEmpty || name.contains '#' then none
  some { name := String.ofList name, isBlock := opensBlock value }

/-- A text without quotes at either end. -/
def unquote (text : String) : String :=
  Text.trimWhere (fun c => c == '\'' || c == '"') (Text.trim text)

/-- The items of a list in brackets. -/
def inlineItems (list : String) : List String :=
  ((Text.splitChar ',' list).map unquote).filter fun item => !item.isEmpty

/-- Size in octets of the blanks at the start of a line. -/
def indent (line : List Char) : Nat :=
  Text.Utf8.size (line.takeWhile Text.isBlank)

/-- Does a line say something? -/
def isContent (line : List Char) : Bool :=
  match Chars.trim line with
  | [] => false
  | c :: _ => c != '#'

/-- The last line of a block, of which `last` is the last line so far; the lines from `number` on
follow. A line that is not indented further than `margin` ends the block. -/
def blockEndFrom (margin last number : Nat) : List (List Char) → Nat
  | [] => last
  | line :: after =>
      if !isContent line then blockEndFrom margin last (number + 1) after
      else if indent line ≤ margin then last
      else blockEndFrom margin number (number + 1) after

/-- The last line of the block that a line opens. -/
def Line.blockEnd (line : Line) (margin : Nat) : Nat :=
  blockEndFrom margin line.number (line.number + 1) line.after

/-- The part of a pipeline that a line belongs to. -/
inductive Section where
  | top
  /-- The list of stages. -/
  | stages
  /-- The jobs. -/
  | jobs
  deriving Repr, DecidableEq

/-- The part after a line; anything that starts in the first column ends a part, items of a list
and comments aside. -/
def Section.next (s : Section) (line : List Char) : Section :=
  if Chars.trimEnd line == "stages:".toList then .stages
  else if fits jobsKey line then .jobs
  else if line.head?.any (fun c => !Text.isBlank c) && !"- ".toList.isPrefixOf line &&
      isContent line then .top
  else s

/-- The lines, each with the part it belongs to. -/
def withSection (s : Section) : List Line → List (Section × Line)
  | [] => []
  | line :: rest =>
      let s := s.next line.text
      (s, line) :: withSection s rest

/-- The list in a job that is being read. -/
inductive ListField where
  | closed
  /-- The jobs that the job extends. -/
  | parents
  /-- The jobs that the job needs. -/
  | needs
  deriving Repr, DecidableEq

/-- A character in the name of a job that is needed. -/
def isNeedChar (c : Char) : Bool :=
  c.isAlphanum || c == '_' || c == '/' || c == ':' || c == '-'

/-- The name of a job that is needed. -/
def needName : Pattern Char :=
  .group 1 (.plus (.one isNeedChar))

/-- The name of a job that is extended. -/
def extendName : Pattern Char :=
  .group 1 (.plus (.one fun c => c == '.' || c == '-' || Text.isWordChar c))

/-- An item of a list on a line of its own. -/
def item (content : Pattern Char) : Pattern Char :=
  .seqs [.blanks1, .char '-', .blanks1, content, .blanks, .atEnd]

/-- The item that a line carries for a list. -/
def ListField.item? (l : ListField) (line : List Char) : Option String :=
  match l with
  | closed => none
  | parents => first? (item extendName) line
  | needs => first? (item (.seq (.opt (.seq (key "job") .blanks)) needName)) line

/-- The list that is being read after a line, and the item that the line carries. -/
def ListField.next (l : ListField) (line : List Char) : ListField × Option String :=
  if fits (.seq .blanks1 (openKey "needs")) line then (needs, none)
  else if fits (.seq .blanks1 (openKey "extends")) line then (parents, none)
  else if !isContent line then (l, none)
  else
    match l.item? line with
    | some item => (l, some item)
    | none => (closed, none)

/-- What stands in brackets. -/
def bracketed : Pattern Char :=
  .seqs [.char '[', .group 1 (.plus (.noneOf "]")), .char ']']

/-- The jobs that a line needs, as one name or as a list in brackets. -/
def inlineNeeds (line : List Char) : List String :=
  let start : Pattern Char := .seqs [.blanks1, key "needs", .blanks]
  match first? (.seqs [start, needName, .blanks, .atEnd]) line with
  | some job => [job]
  | none => ((first? (.seq start bracketed) line).map inlineItems).getD []

/-- A symbol of some lines of a file. -/
def symbol (name : String) (kind : SymbolKind) (first last : Nat) (signature : String) : Symbol :=
  Symbol.ofDetails name kind first.toUInt32 last.toUInt32 { signature := some signature }

/-- A use on a line. -/
def Line.use (line : Line) (kind : ReferenceKind) (scope : Option String) (target : String) :
    Reference :=
  { sourceName := scope, targetName := target, kind, line := line.number.toUInt32 }

end SourceIndex.Idiom.YAML
