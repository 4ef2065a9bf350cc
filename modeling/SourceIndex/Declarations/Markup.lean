import SourceIndex.Document
import SourceIndex.Idiom.Markup
import SourceIndex.Record.Symbol

/-!
# Declarations of Aura and Visualforce
-/

/-!
## Aura

A file is one part of a bundle, and its tags may declare attributes, methods and events, which are
its members.
-/

namespace SourceIndex.Declarations.Aura

open SourceIndex.Idiom

variable (d : Document)

/-- What a file declares by its ending. -/
def bundleKind (ending : String) : SymbolKind :=
  match ending with
  | "app" => .application
  | "evt" => .event
  | "intf" => .interface
  | "design" => .design
  | _ => .component

/-- What a tag declares. -/
def memberKind? (tag : String) : Option SymbolKind :=
  match tag with
  | "aura:attribute" => some .property
  | "aura:method" => some .method
  | "aura:registerevent" => some .event
  | _ => none

/-- The member that a tag declares. -/
def member? (owner : String) (tag : Place) : Option Symbol := do
  let kind ← memberKind? (Text.lower (← Markup.tagName? d tag))
  let name ← Markup.value? d tag "name"
  let type := ((Markup.value? d tag "type").map (": " ++ ·)).getD ""
  some (d.symbol tag name kind
    { qualifiedName := some (owner ++ "." ++ name)
      signature := some (kind.word ++ " " ++ name ++ type)
      parentName := some owner })

/-- The tag of an element. A tag that closes itself inside an element comes with the element. -/
def ownTag? (p : Place) : Option Place :=
  let standsAlone := p.kind == "element" ||
    (p.kind == "self_closing_tag" && p.parent?.map Place.kind != some "element")
  if standsAlone then Markup.tag? p else none

/-- The file and its members; of members with one name the first counts. -/
def symbols (root : Option Place) : List Symbol :=
  let (name, ending) := d.nameAndEnding
  let kind := bundleKind ending
  let members := (root.map (Markup.walk d fun p => (ownTag? p).bind (member? d name))).getD []
  d.fileSymbol name kind { signature := some ("aura:" ++ kind.word ++ " " ++ name) } ::
    firstOfEach Symbol.name members

end SourceIndex.Declarations.Aura

/-!
## Visualforce

A file is one page or one component.
-/

namespace SourceIndex.Declarations.Visualforce

/-- The page or component that a file is. -/
def symbols (d : Document) : List Symbol :=
  let (name, ending) := d.nameAndEnding
  let kind : SymbolKind := if ending == "page" then .page else .component
  [d.fileSymbol name kind { signature := some ("apex:" ++ kind.word ++ " " ++ name) }]

end SourceIndex.Declarations.Visualforce
