import SourceIndex.Idiom.Metadata

/-!
# Declarations of metadata

A metadata file is one component, and elements with a full name are parts of it. A file beside a
source file of another language declares nothing.
-/

namespace SourceIndex.Declarations.Metadata

open SourceIndex.Idiom
open SourceIndex.Idiom.Metadata

variable (d : Document)

/-- The types of components that are declared by a source file. -/
def sourceTypes : List String :=
  ["cls", "trigger", "page", "component"]

/-- The tags of elements that are parts of a component. -/
def partTags : List String :=
  ["fields", "validationrules", "fieldsets", "listviews", "weblinks", "recordtypes"]

/-- The part that an element declares. -/
def part? (s : Subject) (qualified : String) (p : Place) : Option Symbol := do
  let tag ← (lowerTag? d p).filter fun tag => partTags.contains tag
  let name ← Markup.childElementText? d p "fullName"
  some (d.symbol p name (if tag == "fields" then .field else .rule)
    { qualifiedName := some (s.name ++ "." ++ name), parentName := some qualified })

/-- The kind of component, by its root element or else by its type. -/
def componentKind (s : Subject) (root : Option Place) : SymbolKind :=
  let byRoot := ((root.bind fun r => r.childOf? "element").bind (lowerTag? d)).bind kind?
  (byRoot.or (kind? (Text.lower s.type))).getD (.other "metadata")

/-- The component and its parts. -/
def symbols (root : Option Place) : List Symbol :=
  let s := subject d
  if sourceTypes.contains (Text.lower s.type) then
    []
  else
    let qualified := s.type ++ "." ++ s.name
    d.fileSymbol s.name (componentKind d s root)
        { qualifiedName := some qualified, signature := some (s.type ++ " " ++ s.name) } ::
      (root.map (Markup.walk d (part? d s qualified))).getD []

end SourceIndex.Declarations.Metadata
