import SourceIndex.Document

/-!
# C#: modifiers, generic clauses, accessors, documentation

What declarations and uses of C# have in common.
-/

namespace SourceIndex.Idiom.CSharp

/-- The kind of declaration around a member, which decides who sees the member by default. -/
inductive Enclosure where
  | space
  | type
  | interface
  deriving Repr, DecidableEq

/-- Who sees a member that says nothing about it. -/
def Enclosure.visibility : Enclosure → Visibility
  | space => .internal
  | type => .private
  | interface => .public

/-- The modifiers of a declaration. -/
def modifiers (d : Document) (p : Place) : List String :=
  (p.childrenOf "modifier").map d.text

/-- Does the declaration have the modifier? -/
def hasModifier (d : Document) (p : Place) (word : String) : Bool :=
  (modifiers d p).contains word

/-- The visibility that modifiers state; of two the narrower wins. -/
def visibility (d : Document) (p : Place) (around : Enclosure) : Visibility :=
  let words := modifiers d p
  ([Visibility.private, .protected, .internal, .public].find? fun v =>
    words.contains v.word).getD around.visibility

/-- The modifiers that a type shows in its signature. -/
def typeModifiers (d : Document) (p : Place) : List String :=
  (modifiers d p).filter fun word =>
    ["static", "sealed", "abstract", "partial", "readonly", "unsafe", "file"].contains word

/-- The type parameters with their brackets. -/
def typeParameters (d : Document) (p : Place) : String :=
  ((p.childOf? "type_parameter_list").map d.text).getD ""

/-- The constraints on type parameters after a blank, cut off after 200 octets. -/
def constraints (d : Document) (p : Place) : String :=
  let clauses := (p.childrenOf "type_parameter_constraints_clause").map d.text
  if clauses.isEmpty then
    ""
  else
    let text := " ".intercalate clauses
    " " ++ if Text.size text > 200 then Text.takeOctets 200 text ++ "..." else text

/-- One accessor: its last modifier and its last keyword. -/
def accessor? (d : Document) (p : Place) : Option String :=
  let keyword := (p.children.filter fun c =>
    c.isOneOf ["get", "set", "init", "add", "remove"]).getLast?
  let modifier := (p.childrenOf "modifier").getLast?
  keyword.map fun k => ((modifier.map fun m => d.text m ++ " ").getD "") ++ k.kind

/-- The accessors of a property in braces after a blank; a body after an arrow is one that reads. -/
def accessors (d : Document) (p : Place) : String :=
  let list := (p.childOf? "accessor_list").getD p
  let parts := (list.childrenOf "accessor_declaration").filterMap (accessor? d)
  let parts := if parts.isEmpty && p.hasChild "arrow_expression_clause" then ["get"] else parts
  if parts.isEmpty then "" else " \x7b " ++ "; ".intercalate parts ++ "; \x7d"

/-- The documentation of a declaration: the lines with three slashes right before it. -/
def documentation (d : Document) (p : Place) : Option String :=
  let comments := (d.precedingComments p ["comment"]).reverse
  let lines := (comments.takeWhile (Text.startsWith "///")).reverse
  if lines.isEmpty then
    none
  else
    some ("\n".intercalate (lines.map fun line => Text.trim (Text.dropAll "///" line)))

/-- The name of a type without its arguments. -/
def typeName (d : Document) (p : Place) : String :=
  if p.kind == "generic_name" then ((p.childOf? "identifier").map d.text).getD (d.text p)
  else d.text p

/-- The kinds of names that stand for types. -/
def typeNameKinds : List String :=
  ["identifier", "generic_name", "qualified_name"]

/-- Does a name have the form that names of interfaces have? -/
def looksLikeInterface (name : String) : Bool :=
  match name.toList with
  | 'I' :: c :: _ => c.isUpper
  | _ => false

/-- The name of a namespace. -/
def namespaceName (d : Document) (p : Place) : Option String :=
  (d.fieldText p "name").or (d.text? (p.childOfAny? ["qualified_name", "identifier"]))

/-- Siblings, each with the file-wide namespace that holds for it, which `named` gives for the
namespace declaration and what holds before it. -/
def withFileSpace (named : Option String → Place → Option String) (space : Option String) :
    List Place → List (Option String × Place)
  | [] => []
  | c :: rest =>
      let opens := c.kind == "file_scoped_namespace_declaration"
      (space, c) :: withFileSpace named (if opens then named space c else space) rest

end SourceIndex.Idiom.CSharp
