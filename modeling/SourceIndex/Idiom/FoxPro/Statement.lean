import SourceIndex.Text.Blank
import SourceIndex.Text.Case
import SourceIndex.Text.CodePage
import SourceIndex.Text.Part
import SourceIndex.Text.Pattern

/-!
# FoxPro: from lines to statements
-/

/-!
## Logical lines

A line that ends in a semicolon goes on in the next one. Comments stand on lines of their own, after
two ampersands, or in blocks that are switched off.
-/

namespace SourceIndex.Idiom.FoxPro

open SourceIndex.Text (Chars.trim Chars.trimStart Chars.trimEnd Chars.dropSuffix?
  Chars.dropPrefix? Chars.splitWhere)

/-- A line of a program, with the number of the first source line that belongs to it, counted
from one. -/
structure Line where
  number : Nat
  text : List Char
  deriving Repr, DecidableEq

/-- The lines of the source, without line ends. -/
def sourceLines (text : List Char) : List (List Char) :=
  (Chars.splitWhere (· == '\n') text).map fun line => (Chars.dropSuffix? ['\r'] line).getD line

/-- The part of a line before the semicolon that makes it go on. -/
def continued? (line : List Char) : Option (List Char) :=
  (Chars.dropSuffix? [';'] (Chars.trimEnd line)).map Chars.trimEnd

/-- The logical lines from the middle of one on, which started on line `first` and whose text up to
line `current` is `opened`. -/
def joinFrom (first current : Nat) (opened : List Char) : List (List Char) → List Line
  | [] => [⟨first, opened⟩]
  | next :: rest =>
      match continued? opened with
      | some head => joinFrom first (current + 1) (head ++ ' ' :: Chars.trimStart next) rest
      | none => ⟨first, opened⟩ :: joinFrom (current + 1) (current + 1) next rest

/-- The logical lines of a source; there is always one. -/
def logicalLines (text : List Char) : List Line :=
  match sourceLines text with
  | [] => []
  | line :: rest => joinFrom 1 1 line rest

/-- The text before a comment at the end of a line, if there is one; `quote` is the quote that is
open. -/
def beforeComment? (quote : Option Char) : List Char → Option (List Char)
  | [] => none
  | c :: rest =>
      if quote.isNone && c == '&' && rest.head? == some '&' then
        some []
      else
        let quote :=
          if quote == some c then none
          else if quote.isNone && (c == '\'' || c == '"') then some c
          else quote
        (beforeComment? quote rest).map (c :: ·)

/-- A line without the comment at its end. -/
def withoutComment (line : List Char) : List Char :=
  match beforeComment? none line with
  | some before => Chars.trimEnd before
  | none => line

/-- Is the whole line a comment? -/
def isComment (line : List Char) : Bool :=
  let line := Chars.trimStart line
  line.head? == some '*' || (line.take 5).map Char.toLower == "note ".toList

/-- Does the line switch a block off or on again? -/
def isSwitch (line : List Char) : Bool :=
  "*!*".toList.isPrefixOf (Chars.trimStart line)

/-- The lines without comments; `isOff` tells whether the block is switched off. -/
def cleanFrom (isOff : Bool) : List Line → List Line
  | [] => []
  | line :: rest =>
      let isSwitch := isSwitch line.text
      let text :=
        if isSwitch || isOff || isComment line.text then [] else withoutComment line.text
      ⟨line.number, text⟩ :: cleanFrom (isOff != isSwitch) rest

/-- The lines of a program that say something, without the blanks around them. -/
def statementLines (lines : List Line) : List Line :=
  ((cleanFrom false lines).map fun line => { line with text := Chars.trim line.text }).filter
    fun line => !line.text.isEmpty

/-- The number of the last logical line. -/
def lastNumber (lines : List Line) : Nat :=
  (lines.getLast?.map Line.number).getD 1

/-!
## Statements

What a line does for the structure of a program. Letter case does not count in keywords.
-/

open SourceIndex.Text (Pattern)

/-- What a line opens, closes or declares. -/
inductive Statement where
  | classOpen (name base : String)
  | classClose
  | routineOpen (keyword name : String)
  | routineClose
  | constant (name value : String)
  | assignment (name value : String)
  | other
  deriving Repr, DecidableEq

/-- Where a program stands. -/
inductive Phase where
  | topLevel
  | inClass
  | inMethod
  deriving Repr, DecidableEq

/-- Where a program stands after a statement. -/
def Phase.next : Phase → Statement → Phase
  | _, .classOpen _ _ => .inClass
  | _, .classClose => .topLevel
  | .inClass, .routineOpen _ _ | .inMethod, .routineOpen _ _ => .inMethod
  | .inMethod, .routineClose => .inClass
  | phase, _ => phase

namespace Statement

/-- A word of letters, digits and underscores. -/
def name : Pattern Char :=
  .plus .wordChar

/-- The words that begin a line, with blanks between them. -/
def opening (parts : List (Pattern Char)) : Pattern Char :=
  .seqs (.atStart :: .blanks :: parts.intersperse .blanks1)

/-- The line that ends a class. -/
def classEnd : Pattern Char :=
  .seq (opening [.wordAnyCase "ENDDEFINE"]) .wordEdge

/-- The line that ends a routine. -/
def routineEnd : Pattern Char :=
  .seq (opening [.alt (.wordAnyCase "ENDFUNC") (.wordAnyCase "ENDPROC")]) .wordEdge

/-- The line that begins a class. -/
def classStart : Pattern Char :=
  opening [.wordAnyCase "DEFINE", .wordAnyCase "CLASS", .group 1 name, .wordAnyCase "AS",
    .group 2 name]

/-- The line that begins a routine. -/
def routineStart : Pattern Char :=
  opening [.group 1 (.alt (.wordAnyCase "FUNCTION") (.wordAnyCase "PROCEDURE")), .group 2 name]

/-- The line that defines a constant. -/
def constantLine : Pattern Char :=
  opening [.wordAnyCase "#DEFINE", .group 1 name, .group 2 (.star .anyInLine)]

/-- A line that gives a name a value. -/
def assignmentLine : Pattern Char :=
  .seqs [.atStart, .blanks, .group 1 name, .blanks, .char '=', .blanks,
    .group 2 (.plus .anyInLine)]

/-- Words that begin a line but never a name that gets a value. -/
def assignmentKeywords : List String :=
  ["IF", "DO", "FOR", "SET", "LOCAL", "PRIVATE", "PUBLIC", "STORE", "RETURN", "ENDFOR", "ENDIF",
    "ENDDO", "ELSE", "OTHERWISE", "CASE"]

/-- The two groups of a pattern at the start of a line. -/
def groups? (pattern : Pattern Char) (line : List Char) : Option (String × String) := do
  let m ← pattern.matchAt? [] line
  some (← m.text? 1 line, ← m.text? 2 line)

/-- The assignment that a line is. -/
def assignment? (line : List Char) : Option Statement := do
  let (name, value) ← groups? assignmentLine line
  if assignmentKeywords.contains (Text.upper name) then none
  else some (.assignment name (Text.trim value))

/-- What a line opens or declares. -/
def declaration? (line : List Char) : Option Statement :=
  (((groups? classStart line).map fun (name, base) => classOpen name base).or
    ((groups? routineStart line).map fun (keyword, name) =>
      routineOpen (Text.upper keyword) name)).or
    (((groups? constantLine line).map fun (name, value) => constant name (Text.trim value)).or
      (assignment? line))

/-- The statement that a line is. -/
def ofLine (line : List Char) : Statement :=
  if (classEnd.matchAt? [] line).isSome then classClose
  else if (routineEnd.matchAt? [] line).isSome then routineClose
  else (declaration? line).getD other

end Statement

/-- The statements of a source with the number of the line on which each starts, and the number of
the last line. -/
structure Program where
  statements : List (Nat × List Char)
  lastLine : Nat

/-- The program that some octets write. -/
def Program.ofBytes (bytes : List UInt8) : Program :=
  let lines := logicalLines (Text.decodeUnknown bytes)
  { statements := (statementLines lines).map fun line => (line.number, line.text)
    lastLine := lastNumber lines }

end SourceIndex.Idiom.FoxPro
