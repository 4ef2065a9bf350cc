import SourceIndex.Document
import SourceIndex.Tree.Walk

/-!
# Java: modifiers, heritage, documentation

What declarations and uses of Java and Apex have in common. The two languages share one grammar
and differ in how modifiers are read, which a dialect tells.
-/

namespace SourceIndex.Idiom.Java

/-- Rules in which the languages of the grammar differ. -/
structure Dialect where
  /-- Visibility from modifiers. -/
  visibility : List String → Visibility
  /-- Change to the symbol of a freshly read type. -/
  adjust : Document → Place → Symbol → Symbol := fun _ _ s => s

/-- Without an access modifier a declaration belongs to its package. -/
def visibility (modifiers : List String) : Visibility :=
  if modifiers.contains "private" then .private
  else if modifiers.contains "protected" then .protected
  else if modifiers.contains "public" then .public
  else .package

/-- The rules of Java itself. -/
def dialect : Dialect where
  visibility := visibility

/-- The kinds of annotations among the modifiers. -/
def annotationKinds : List String :=
  ["annotation", "marker_annotation"]

/-- The modifiers of a declaration, annotations aside. -/
def modifiers (d : Document) (p : Place) : List String :=
  match p.childOf? "modifiers" with
  | some m =>
      (m.children.filter fun c => !c.isOneOf annotationKinds).flatMap fun c => Text.words (d.text c)
  | none => []

/-- The annotations of a declaration. -/
def annotations (d : Document) (p : Place) : List String :=
  match p.childOf? "modifiers" with
  | some m => (m.children.filter fun c => c.isOneOf annotationKinds).map d.text
  | none => []

/-- A signature below the lines of its annotations. -/
def withAnnotations (d : Document) (p : Place) (signature : String) : String :=
  "\n".intercalate (annotations d p ++ [signature])

/-- Types stand in a clause directly or in lists within it. -/
def heritageRule : Rule Unit Place := fun _ p =>
  p.children.flatMap fun c =>
    match c.kind with
    | "type_list" => [.visit () c]
    | "type_identifier" | "generic_type" | "scoped_type_identifier" => [.emit c]
    | _ => []

/-- The types that a heritage clause lists. -/
def heritageTypes (clause : Place) : List Place :=
  heritageRule.walk () clause

/-- The bare name of a type: without its arguments and its package. -/
def baseTypeName (d : Document) (p : Place) : String :=
  Text.afterLast "." (Text.trim (Text.beforeFirst "<" (d.text p)))

/-- The documentation comment right before a declaration. -/
def documentation (d : Document) (p : Place) : Option String := do
  let q ← p.previous?
  if !q.isOneOf ["block_comment", "comment"] then none
  let text := d.text q
  if !Text.startsWith "/**" (Text.trimStart text) then none
  (some (Text.stripCommentMarks text)).filter fun doc => !doc.isEmpty

end SourceIndex.Idiom.Java
