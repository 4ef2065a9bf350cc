import SourceIndex.Idiom.Metadata

/-!
# Uses in metadata

Components that elements name, names in formulas, and the classes that flows call.
-/

namespace SourceIndex.Uses.Metadata

open SourceIndex.Idiom
open SourceIndex.Idiom.Metadata
open SourceIndex.Idiom.Markup (Find)
open SourceIndex.Text (Pattern)

variable (d : Document)

/-- The tags of elements whose text names a component. -/
def naming : List String :=
  ["apexclass", "controller", "extensions", "template", "field", "referenceto", "lookupfilter",
    "customobject", "targetobject", "relatedlist", "sobjecttype"]

/-- The component that an element names. -/
def component? (p : Place) : Option Reference := do
  let tag ← lowerTag? d p
  let text ← Markup.elementText? d p
  if naming.contains tag && text.length < d.limits.literalSize.toNat &&
      !Text.startsWith "<" text then
    some (d.reference .metadataRef text p none)
  else
    none

/-- What stands in an element of a name, up to the first closing tag of that name. -/
def element (name : String) : Pattern Char :=
  .seqs [.wordAnyCase ("<" ++ name ++ ">"), .group 1 (.many false (.one fun _ => true)),
    .wordAnyCase ("</" ++ name ++ ">")]

/-- An element of a name that holds nothing but one word. -/
def wordElement (name : String) (word : Pattern Char) : Pattern Char :=
  .seqs [.wordAnyCase ("<" ++ name ++ ">"), .blanks, .group 1 word, .blanks,
    .wordAnyCase ("</" ++ name ++ ">")]

/-- Functions and constants of formulas. -/
def builtins : List String :=
  ["IF", "AND", "OR", "NOT", "TRUE", "FALSE", "NULL", "ISBLANK", "TEXT", "VALUE", "TODAY", "NOW",
    "YEAR", "MONTH", "DAY"]

/-- The names in a formula. -/
def formulaUses (f : Find) : List Reference :=
  let names := Markup.formulaNames f.text.toList
  (names.filter fun name => !builtins.contains name).map fun name =>
    Find.reference { f with text := name } .formulaRef

/-- The class that an action of a flow calls, if it calls one. -/
def actionUse? (f : Find) : Option Reference := do
  let block := f.text.toList
  let _ ← (wordElement "actionType" (.wordAnyCase "apex")).find? block
  let m ← (wordElement "actionName" (.plus .wordChar)).find? block
  let name ← m.text? 1 block
  some (Find.reference { f with text := name } .call)

/-- The uses of a file. -/
def references (root : Option Place) : List Reference :=
  let text := d.fullText
  (root.map (Markup.walk d (component? d))).getD [] ++
    (Markup.finds (element "formula") 1 text).flatMap formulaUses ++
    (Markup.finds (element "actionCalls") 1 text).filterMap actionUse?

end SourceIndex.Uses.Metadata
