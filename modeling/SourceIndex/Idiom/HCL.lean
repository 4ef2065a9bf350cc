import SourceIndex.Document
import SourceIndex.Text.Pattern

/-!
# HCL: blocks

HCL is read line by line. A block opens with a keyword, at most two labels and a brace.
-/

namespace SourceIndex.Idiom.HCL

open SourceIndex.Text (Pattern Chars.trim Chars.trimStart)

/-- A line, with its number counted from one. -/
structure Line where
  number : Nat
  text : List Char
  deriving Repr, DecidableEq

/-- Is the whole line a comment? -/
def isComment (line : List Char) : Bool :=
  let line := Chars.trimStart line
  "#".toList.isPrefixOf line || "//".toList.isPrefixOf line

/-- The lines of a file that are no comments. -/
def linesOf (d : Document) : List Line :=
  ((Text.Chars.lines d.fullText).zipIdx.map fun (text, i) => ⟨i + 1, text⟩).filter fun line =>
    !isComment line.text

/-- The opening of a block. -/
structure Opening where
  keyword : String
  labels : List String
  deriving Repr, DecidableEq

/-- The opening of a block with so many labels, which are the groups from the second on. -/
def openingPattern (labels : List Nat) : Pattern Char :=
  let label (n : Nat) : Pattern Char :=
    .seqs [.blanks1, .char '"', .group n (.plus (.noneOf "\"")), .char '"']
  .seqs (.group 1 (.plus (.one fun c => c.isLower || c == '_')) ::
    (labels.map label ++ [.blanks, .char '\x7b']))

/-- The opening with just so many labels at the start of a line. -/
def openingWith? (labels : List Nat) (line : List Char) : Option Opening := do
  let m ← (openingPattern labels).matchAt? [] line
  some { keyword := ← m.text? 1 line, labels := labels.filterMap fun n => m.text? n line }

/-- The opening of a block at the start of a line. -/
def opening? (line : List Char) : Option Opening :=
  let line := Chars.trim line
  ((openingWith? [2, 3] line).or (openingWith? [2] line)).or (openingWith? [] line)

/-- By how much a line opens more braces than it closes, in the 32 bits that depths are counted
in. -/
def balance (line : List Char) : Int32 :=
  (line.count '\x7b').toInt32 - (line.count '\x7d').toInt32

/-- A key that gets a value. -/
def keyPattern (start : Char → Bool) : Pattern Char :=
  .seqs [.group 1 (.seq (.one fun c => start c || c == '_')
    (.star (.one fun c => c.isAlphanum || c == '_'))), .blanks, .char '=']

/-- The key that an indented line gives a value. -/
def localKey? (line : List Char) : Option String :=
  ((Pattern.seq .blanks1 (keyPattern Char.isLower)).matchAt? [] line).bind fun m => m.text? 1 line

/-- The key that a line gives a value from its first column on. -/
def topKey? (line : List Char) : Option String :=
  ((keyPattern Char.isAlpha).matchAt? [] line).bind fun m => m.text? 1 line

/-- Does the file hold values only? -/
def isValues (path : String) : Bool :=
  Text.endsWith ".tfvars" path

end SourceIndex.Idiom.HCL
