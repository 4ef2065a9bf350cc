import SourceIndex.Document
import SourceIndex.Tree.Walk

/-!
# C, C++ and Objective-C: declarators, qualifiers, documentation
-/

namespace SourceIndex.Idiom.C

/-- The kinds of declarators that point to what they declare. -/
def pointerKinds : List String :=
  ["pointer_declarator", "reference_declarator"]

/-- The declarator of a function at the end of a chain of pointers and references. -/
def functionDeclarator? (p : Place) : Option Place :=
  let inner := p.lastOn fun q =>
    if q.isOneOf pointerKinds then q.childOfAny? ("function_declarator" :: pointerKinds) else none
  if inner.kind == "function_declarator" then some inner else none

/-- The name and the parameters of the function that a declarator declares. -/
def functionParts (d : Document) (p : Place) : Option (String × String) := do
  let f ← functionDeclarator? p
  let name ← d.fieldText f "declarator"
  some (name, d.paramsText (f.field? "parameters"))

/-- Finds declarators of functions below pointers and references. -/
def functionRule : Rule Unit Unit := fun _ p =>
  if p.kind == "function_declarator" then [.emit ()]
  else if p.isOneOf pointerKinds then Step.visitAll () p.children
  else []

/-- Does a declarator declare a function? -/
def declaresFunction (p : Place) : Bool :=
  !(functionRule.walk () p).isEmpty

/-- The kinds of declarators that wrap another one. -/
def wrapperKinds : List String :=
  ["init_declarator", "pointer_declarator", "array_declarator", "reference_declarator",
    "parenthesized_declarator", "function_declarator", "attributed_declarator"]

/-- Finds the names inside a declarator: in its own declarator, or else in its named children. -/
def nameRule (d : Document) : Rule Unit String := fun _ p =>
  if p.isOneOf ["identifier", "field_identifier", "type_identifier"] then
    [.emit (d.text p)]
  else if p.isOneOf wrapperKinds then
    match p.field? "declarator" with
    | some inner => [.visit () inner]
    | none => Step.visitAll () p.namedChildren
  else
    []

/-- The innermost name of a declarator. -/
def declaratorName (d : Document) (p : Place) : Option String :=
  ((nameRule d).walk () p).head?

/-- Is the declaration static? -/
def isStatic (d : Document) (p : Place) : Bool :=
  (p.childrenOf "storage_class_specifier").any fun c => d.text c == "static"

/-- Is what is declared constant? -/
def isConst (d : Document) (p : Place) : Bool :=
  (p.childrenOf "type_qualifier").any fun c => d.text c == "const"

/-- The comments right above a declaration. -/
def documentation (d : Document) (p : Place) : Option String :=
  let comments := d.precedingComments p ["comment"]
  let doc := "\n".intercalate (comments.map Text.stripCommentMarks)
  if doc.isEmpty then none else some doc

/-- Is the file a header, whose declarations are exported? -/
def isHeader (path : String) : Bool :=
  [".h", ".hpp", ".hh", ".hxx"].any fun ending => Text.endsWith ending path

/-- The kinds of literals. -/
def literalKinds : List String :=
  ["number_literal", "string_literal", "char_literal", "true", "false", "null", "nullptr"]

/-- The head of a type: without its arguments and its namespace. -/
def typeHead (text : String) : String :=
  Text.afterLast "::" (Text.trim (Text.beforeFirst "<" text))

end SourceIndex.Idiom.C
