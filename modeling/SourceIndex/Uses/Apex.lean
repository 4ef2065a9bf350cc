import SourceIndex.Idiom.Apex
import SourceIndex.Uses.Java

/-!
# Uses in Apex

The uses that the grammar of Java finds, and then those found in the text: queried objects, labels
and the element types of collections.
-/

namespace SourceIndex.Uses.Apex

open SourceIndex.Text (Pattern)

/-- A name with a capital, of two characters at least. A suffix of a custom object is part of it. -/
def capitalName : Pattern Char :=
  .seq .capital (.plus .wordChar)

/-- The object that a query reads from. -/
def queriedObject : Pattern Char :=
  .seqs [.wordEdge, .wordAnyCase "FROM", .blanks1,
    .group 1 (.seq .letterAnyCase (.plus .wordChar))]

/-- A custom label. -/
def labelUse : Pattern Char :=
  .seqs [.word "System.Label.", .group 1 (.plus .wordChar)]

/-- The first type argument of a collection. -/
def elementType : Pattern Char :=
  .seqs [.alts [.word "List", .word "Set", .word "Map", .word "Iterable"], .blanks, .char '<',
    .blanks, .group 1 capitalName]

/-- The second type argument of a map. -/
def valueType : Pattern Char :=
  .seqs [.word "Map", .blanks, .char '<', .blanks, .capital, .star .wordChar, .blanks, .char ',',
    .blanks, .group 1 capitalName]

/-- Types of the platform, which are not worth a reference. -/
def platformTypes : List String :=
  ["String", "Integer", "Long", "Double", "Decimal", "Boolean", "Date", "DateTime", "Time", "Id",
    "Blob", "Object", "SObject", "Type"]

/-- The matches of a pattern in a text: the lines on which they start, with their first groups. -/
def found (pattern : Pattern Char) (text : List Char) : List (UInt32 × String) :=
  (pattern.findAll text).filterMap fun m =>
    (m.text? 1 text).map fun name => (Text.lineOf text m.start, name)

/-- A reference at the level of the file. -/
def reference (kind : ReferenceKind) (line : UInt32) (target : String) : Reference :=
  { sourceName := none, targetName := target, kind, line }

/-- The uses that the text shows. -/
def textReferences (text : List Char) : List Reference :=
  ((found queriedObject text).map fun (line, name) => reference .soql line name) ++
    ((found labelUse text).map fun (line, name) => reference .label line ("Label." ++ name)) ++
    ((found elementType text ++ found valueType text).filter fun (_, name) =>
        !platformTypes.contains name).map fun (line, name) => reference .typeRef line name

/-- The uses of a file. -/
def references (parse : Parser) (d : Document) (root : Option Place) : List Reference :=
  ((Idiom.Apex.root? parse d root).map (Java.references d)).getD [] ++ textReferences d.fullText

end SourceIndex.Uses.Apex
