import SourceIndex.Document

/-!
# ECMAScript: documentation, decorators, type annotations

What the declarations of JavaScript and of TypeScript have in common.
-/

namespace SourceIndex.Idiom.ECMAScript

/-- A type written after a colon, whether or not the text has one. -/
def typeSuffix (text : String) : String :=
  let t := Text.trim text
  match Text.dropPrefix? ":" t with
  | some rest => ": " ++ Text.trim rest
  | none => ": " ++ t

/-- The documentation comment above a declaration, or above its export. Decorators may stand
between. -/
def documentation (d : Document) (p : Place) : Option String := do
  let anchor := (p.parent?.filter fun q => q.kind == "export_statement").getD p
  let q ← anchor.siblingsBefore.find? fun q => q.kind != "decorator"
  if q.kind != "comment" then none
  let text := d.text q
  if !Text.startsWith "/**" (Text.trimStart text) then none
  (some (Text.stripCommentMarks text)).filter fun doc => !doc.isEmpty

/-- The decorators of a declaration: those right before it, and those that it holds. -/
def decorators (d : Document) (p : Place) : List String :=
  let before := (p.siblingsBefore.filter Place.isNamed).takeWhile fun q => q.kind == "decorator"
  (before.reverse ++ p.childrenOf "decorator").map d.text

/-- A signature below the lines of its decorators. -/
def withDecorators (d : Document) (p : Place) (signature : String) : String :=
  "\n".intercalate (decorators d p ++ [signature])

/-- The declared return type, after a colon. -/
def returnType (d : Document) (p : Place) : String :=
  ((d.fieldText p "return_type").map typeSuffix).getD ""

/-- The declared type, after a colon. -/
def declaredType (d : Document) (p : Place) : String :=
  ((d.fieldText p "type").map typeSuffix).getD ""

/-- A name with its type parameters. -/
def withTypeParameters (d : Document) (p : Place) (name : String) : String :=
  name ++ (d.fieldText p "type_parameters").getD ""

/-- The parameters in parentheses. -/
def parameters (d : Document) (p : Option Place) : String :=
  "(" ++ d.paramsText p ++ ")"

end SourceIndex.Idiom.ECMAScript
