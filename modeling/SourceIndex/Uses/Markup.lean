import SourceIndex.Idiom.Markup
import SourceIndex.Record.Symbol

/-!
# Uses in Aura and Visualforce
-/

/-!
## Aura

Controllers, heritage, components and labels, all read off the text.
-/

namespace SourceIndex.Uses.Aura

open SourceIndex.Idiom.Markup
open SourceIndex.Text (Pattern)

/-- The start of a tag in a namespace. -/
def scopedTag : Pattern Char :=
  .seqs [.char '<', .group 1 (.plus .wordChar), .char ':', .group 2 (.plus .wordChar)]

/-- The namespaces that come with the platform. -/
def platformSpaces : List String :=
  ["aura", "lightning", "ltng", "ui", "force"]

/-- The components that tags outside the platform name. -/
def components (text : List Char) : List Find :=
  (scopedTag.findAll text).filterMap fun m => do
    let space ← m.text? 1 text
    let name ← m.text? 2 text
    if platformSpaces.contains (Text.lower space) then none
    else some { text := name, line := Text.lineOf text m.start }

/-- A label, with or without a namespace. -/
def label : Pattern Char :=
  .seqs [.word "$Label.", .opt (.seq (.plus .wordChar) (.char '.')), .group 1 (.plus .wordChar)]

/-- The uses of a file. -/
def references (d : Document) : List Reference :=
  let text := d.fullText
  let uses (kind : ReferenceKind) (all : List Find) : List Reference :=
    all.map fun f => f.reference kind
  uses .controller (values "controller" text) ++
    uses .inherits (values "extends" text) ++
    uses .implements ((values "implements" text).flatMap Find.parts) ++
    uses .componentRef (components text) ++
    uses .label ((finds label 1 text).map fun f => { f with text := "Label." ++ f.text })

end SourceIndex.Uses.Aura

/-!
## Visualforce

Controllers and their extensions, included pages, and the names in merge fields.
-/

namespace SourceIndex.Uses.Visualforce

open SourceIndex.Idiom.Markup
open SourceIndex.Text (Pattern)

/-- A tag that takes in a page. -/
def inclusion : Pattern Char :=
  .seqs [.wordAnyCase "<apex:", .alt (.wordAnyCase "include") (.wordAnyCase "component"), .blank,
    .star (.noneOf ">"), quotedAttribute "pageName"]

/-- An expression in the markup. -/
def mergeField : Pattern Char :=
  .seqs [.word "\x7b!", .group 1 (.plus (.noneOf "\x7d")), .char '}']

/-- A string in an expression. -/
def quoted : Pattern Char :=
  let between (quote : String) : Pattern Char :=
    .seqs [.word quote, .star (.noneOf quote), .word quote]
  .alt (between "'") (between "\"")

/-- Functions and constants of expressions. -/
def builtins : List String :=
  ["IF", "AND", "OR", "NOT", "NULL", "TRUE", "FALSE", "ISBLANK", "ISNULL", "TEXT", "VALUE", "LEN",
    "TRIM", "CONTAINS", "SUBSTITUTE", "CASE", "BLANKVALUE", "NULLVALUE", "BEGINS", "INCLUDES"]

/-- The names in an expression, strings aside. -/
def fieldNames (f : Find) : List Find :=
  let names := formulaNames (quoted.replaceAll [' '] f.text.toList)
  (names.filter fun name => !builtins.contains name).map fun name => { f with text := name }

/-- The uses of a file; of each name in a merge field the first use counts. -/
def references (d : Document) : List Reference :=
  let text := d.fullText
  let uses (kind : ReferenceKind) (all : List Find) : List Reference :=
    all.map fun f => f.reference kind
  uses .controller (values "controller" text) ++
    uses .controller ((values "extensions" text).flatMap Find.parts) ++
    uses .include (finds inclusion 1 text) ++
    uses .mergeField (firstOfEach Find.text ((finds mergeField 1 text).flatMap fieldNames))

end SourceIndex.Uses.Visualforce
