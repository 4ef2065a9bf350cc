import SourceIndex.Document

/-!
# Rust: visibility, attributes, documentation
-/

namespace SourceIndex.Idiom.Rust

/-- An item is public if it has a visibility modifier, unless that names the item's own module or
the one above. -/
def visibility (d : Document) (p : Place) : Visibility :=
  match p.childOf? "visibility_modifier" with
  | some m =>
      let text := d.text m
      if Text.has "super" text || Text.has "self" text then .private else .public
  | none => .private

/-- The mark of a public item in its signature. -/
def publicMark (v : Visibility) : String :=
  if v == .public then "pub " else ""

/-- The modifiers of a function, each with a blank after it. -/
def functionModifiers (d : Document) (p : Place) : String :=
  match p.childOf? "function_modifiers" with
  | some m => String.join (m.children.map fun c => d.text c ++ " ")
  | none => ""

/-- The kinds of comments. -/
def commentKinds : List String :=
  ["line_comment", "block_comment"]

/-- The attributes above an item, in order. Comments may stand between. -/
def attributesAbove (p : Place) : List Place :=
  ((p.siblingsBefore.takeWhile fun q => q.isOneOf ("attribute_item" :: commentKinds)).filter
    fun q => q.kind == "attribute_item").reverse

/-- The traits that the attributes of an item derive. -/
def derivedTraits (d : Document) (attributes : List Place) : List String :=
  attributes.flatMap fun a =>
    match a.childOf? "attribute" with
    | none => []
    | some inner =>
        let head := inner.childOfAny? ["identifier", "scoped_identifier"]
        if head.map d.text == some "derive" then
          ((inner.childOf? "token_tree").map fun t =>
            (t.childrenOf "identifier").map d.text).getD []
        else
          []

/-- The text of a documentation comment. -/
def commentText? (text : String) : Option String :=
  match (Text.dropPrefix? "///" text).or (Text.dropPrefix? "//!" text) with
  | some rest => some (Text.trim rest)
  | none => (Text.dropPrefix? "/**" text).map fun rest => Text.trim (Text.dropSuffix "*/" rest)

/-- The documentation comments among the places above an item, the nearest first, up to the first
thing that is neither an attribute nor such a comment. -/
def documentationLines (d : Document) : List Place → List String
  | [] => []
  | q :: rest =>
      if q.kind == "attribute_item" then
        documentationLines d rest
      else if q.isOneOf commentKinds then
        match commentText? (Text.trim (d.text q)) with
        | some line => line :: documentationLines d rest
        | none => []
      else
        []

/-- The documentation of an item. -/
def documentation (d : Document) (p : Place) : Option String :=
  let lines := (documentationLines d p.siblingsBefore).reverse
  if lines.isEmpty then none else some ("\n".intercalate lines)

end SourceIndex.Idiom.Rust
