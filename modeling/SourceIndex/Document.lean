import SourceIndex.Record.Symbol
import SourceIndex.Text.LineIndex
import SourceIndex.Text.Name
import SourceIndex.Tree.Place

/-!
# Documents and extractors

A document is one source file under extraction: its octets, its path and the limits that hold for
it. It answers what the places of its syntax tree say as text and on which lines they stand. An
extractor lists the symbols and the references of a document of one language.
-/

namespace SourceIndex

/-!
## Limits

The six bounds that keep an extraction finite and its records short.
-/

/-- Bounds on one extraction; each is a 64-bit count. -/
structure Limits where
  /-- Depth to which a syntax tree of a structured language is walked. -/
  walkDepth : UInt64 := 256
  /-- Depth to which the tree of a language that is read by its profile is walked. -/
  genericDepth : UInt64 := 50
  /-- Depth to which elements of markup are walked. -/
  markupDepth : UInt64 := 10
  /-- Number of form records read from one form. -/
  formRecords : UInt64 := 50000
  /-- Longest memo, in octets, read from the memo file of a form. -/
  memoSize : UInt64 := 10000000
  /-- Longest literal, in octets, kept as a default value. -/
  literalSize : UInt64 := 200
  deriving Repr, DecidableEq, Inhabited

/-! ## Documents -/

/-- The line feed as an octet. -/
def lineFeed : UInt8 := 10

/-- One source file under extraction. -/
structure Document where
  path : String
  bytes : List UInt8
  limits : Limits

namespace Document

variable (d : Document)

/-- The whole text. -/
def fullText : List Char :=
  Text.Utf8.decode d.bytes

/-- The text between two offsets, empty where they do not lie in order inside the source. -/
def slice (start stop : Nat) : String :=
  if start ≤ stop ∧ stop ≤ d.bytes.length then
    String.ofList (Text.Utf8.decode ((d.bytes.drop start).take (stop - start)))
  else
    ""

/-- The text of a node. -/
def text (p : Place) : String :=
  d.slice p.start p.stop

/-- The text of a node that may be missing. -/
def text? (p : Option Place) : Option String :=
  p.map d.text

/-- The line of an offset, counted from one. -/
def lineAt (offset : Nat) : UInt32 :=
  ((d.bytes.take offset).count lineFeed).toUInt32 + 1

/-- The line on which a node starts. -/
def startLine (p : Place) : UInt32 :=
  d.lineAt p.start

/-- The line on which a node ends. -/
def endLine (p : Place) : UInt32 :=
  d.lineAt p.stop

/-- Number of lines of the source. -/
def lineCount : UInt32 :=
  (Text.LineIndex.ofText d.fullText).lineCount

/-- The text of a parameter list without one pair of parentheses around it. -/
def paramsText (p : Option Place) : String :=
  match p with
  | none => ""
  | some p =>
      let t := Text.trim (d.text p)
      ((Text.dropPrefix? "(" t).bind (Text.dropSuffix? ")")).getD t

/-- The first line of a node, without the brace or colon that opens its body. -/
def signature (p : Place) : Option String := do
  let line := Text.trim (← (Text.lines (d.text p)).head?)
  let line := ((Text.dropSuffix? "\x7b" line).or (Text.dropSuffix? ":" line)).getD line
  let line := Text.trimEnd line
  if line.isEmpty then none else some line

/-- The text of the child that fills a field. -/
def fieldText (p : Place) (field : String) : Option String :=
  (p.field? field).map d.text

/-- The text of the first child of a kind, or else of the first such grandchild. -/
def childText (p : Place) (kind : String) : Option String :=
  ((p.childOf? kind).or (p.children.findSome? fun c => c.childOf? kind)).map d.text

/-- The comments that stand right before a node, in their order. -/
def precedingComments (p : Place) (kinds : List String) : List String :=
  ((p.siblingsBefore.takeWhile fun q => q.isOneOf kinds).map fun q => Text.trim (d.text q)).reverse

/-- A symbol that spans a node. -/
def symbol (p : Place) (name : String) (kind : SymbolKind) (details : Symbol.Details) : Symbol :=
  Symbol.ofDetails name kind (d.startLine p) (d.endLine p) details

/-- A symbol that spans the whole file. -/
def fileSymbol (name : String) (kind : SymbolKind) (details : Symbol.Details) : Symbol :=
  Symbol.ofDetails name kind 1 d.lineCount details

/-- A reference on the line on which a node starts. -/
def reference (kind : ReferenceKind) (target : String) (p : Place) (scope : Option String) :
    Reference :=
  { sourceName := scope, targetName := target, kind, line := d.startLine p }

/-- The name of the file without its directories. -/
def fileName : String :=
  Text.fileName d.path

/-- The name of the file before and after its last dot; nothing is after it if there is none. -/
def nameAndEnding : String × String :=
  (Text.splitLast? "." d.fileName).getD (d.fileName, "")

/-- The name of the file up to its last dot. -/
def fileStem : String :=
  Text.fileStem d.path

/-- Is a walk of a structured language past its limit? -/
def tooDeep (depth : Nat) : Bool :=
  depth > d.limits.walkDepth.toNat

end Document

/-! ## Extractors -/

/-- The tree that the grammar of a name gives for some octets, where it is known. -/
abbrev Parser :=
  String → List UInt8 → Option Node

/-- What one language offers. The tree is missing for languages that are read line by line. -/
structure Extractor where
  language : String
  /-- The endings of file names that the extractor stands for. -/
  endings : List String
  symbols : Parser → Document → Option Place → List Symbol
  references : Parser → Document → Option Place → List Reference
  /-- The documentation of a declaration. -/
  docstring : Document → Place → Option String := fun _ _ => none

/-- An extractor that needs nothing but a tree. -/
def Extractor.ofTree (language : String) (endings : List String)
    (symbols : Document → Place → List Symbol) (references : Document → Place → List Reference)
    (docstring : Document → Place → Option String) : Extractor where
  language := language
  endings := endings
  symbols := fun _ d root => (root.map (symbols d)).getD []
  references := fun _ d root => (root.map (references d)).getD []
  docstring := docstring

end SourceIndex
