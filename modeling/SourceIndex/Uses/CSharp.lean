import SourceIndex.Idiom.CSharp
import SourceIndex.Tree.Walk

/-!
# Uses in C#

Directives that bring in namespaces, invocations, object creation, attributes, nullable types and
base types.
-/

namespace SourceIndex.Uses.CSharp

open SourceIndex.Idiom.CSharp

variable (d : Document)

/-- What the children of a directive read so far say. -/
structure Directive where
  givenName : Option String := none
  path : Option String := none

/-- One more child of a directive. The first name of a directive with an equals sign is an alias. -/
def Directive.read (hasEquals : Bool) (u : Directive) (c : Place) : Directive :=
  match c.kind with
  | "name_equals" => { u with givenName := d.text? (c.childOf? "identifier") }
  | "identifier" =>
      if hasEquals && u.path.isNone && u.givenName.isNone then
        { u with givenName := some (d.text c) }
      else
        { u with path := some (d.text c) }
  | "qualified_name" | "generic_name" => { u with path := some (d.text c) }
  | _ => u

/-- The namespace or type that a directive brings in. -/
def directive? (scope : Option String) (p : Place) : Option Reference :=
  let u := p.children.foldl (Directive.read d (p.hasChild "=")) {}
  u.path.map fun path =>
    (d.reference .imports (u.givenName.getD (Text.afterLast "." path)) p scope).from path

/-- The name of what an invocation calls. -/
def invoked? (p : Place) : Option String :=
  let function := (p.field? "function").or
    (p.namedChildren.find? fun c => c.kind != "argument_list")
  function.bind fun f =>
    match f.kind with
    | "member_access_expression" => some (((f.field? "name").map (typeName d)).getD (d.text f))
    | "identifier" | "generic_name" => some (typeName d f)
    | _ => none

/-- An invocation, and then the uses inside it. -/
def invocationSteps (s : Scope) (p : Place) : List (Step Scope Reference) :=
  Step.emit? ((invoked? d p).map fun target => d.reference .call target p s.name) ++
    [.visit s.deeper p]

/-- The creation of an object, and then the uses in its arguments and its initializer. -/
def creationSteps (s : Scope) (p : Place) : List (Step Scope Reference) :=
  let type := ((p.field? "type").or (p.childOfAny? typeNameKinds)).filter fun t =>
    t.isOneOf typeNameKinds
  Step.emit? (type.map fun t => d.reference .call (typeName d t) p s.name) ++
    Step.visit? s.deeper (p.childOf? "argument_list") ++
    Step.visit? s.deeper (p.childOf? "initializer_expression")

/-- The attributes of a list count as calls. -/
def attributes (scope : Option String) (p : Place) : List Reference :=
  (p.childrenOf "attribute").filterMap fun a =>
    ((d.fieldText a "name").or (d.text? (a.childOfAny? ["identifier", "qualified_name"]))).map
      fun name => d.reference .call name a scope

/-- The type that may be missing, unless it is one of the language. -/
def nullable? (scope : Option String) (p : Place) : Option Reference :=
  ((p.childOfAny? ("predefined_type" :: typeNameKinds)).filter fun c =>
    c.kind != "predefined_type").map fun c => d.reference .typeRef (typeName d c) p scope

/-- The base types of a type. The first is inherited from unless it looks like an interface, and
the others are implemented. -/
def heritage (owner : String) (p : Place) : List Reference :=
  let list := if p.kind == "enum_declaration" then none else p.childOf? "base_list"
  let names := ((list.map Place.children).getD []).filter fun c => c.isOneOf typeNameKinds
  let toBase (kind : ReferenceKind) (name : String) : Reference :=
    d.reference kind name p (some owner)
  match names.map (typeName d) with
  | [] => []
  | first :: rest =>
      toBase (if looksLikeInterface first then .implements else .inherits) first ::
        rest.map (toBase .implements)

/-- The kinds of type declarations. -/
def typeKinds : List String :=
  ["class_declaration", "interface_declaration", "struct_declaration", "enum_declaration",
    "record_declaration"]

/-- The kinds of declarations that can be called. -/
def callableKinds : List String :=
  ["method_declaration", "constructor_declaration", "local_function_statement",
    "destructor_declaration"]

/-- The qualified name of a namespace in a scope. -/
def spaceName (scope : Option String) (p : Place) : Option String :=
  (namespaceName d p).map fun name => Text.qualify scope name "."

/-- What one child uses. -/
def childSteps (s : Scope) (c : Place) : List (Step Scope Reference) :=
  let inner : Option String :=
    (d.fieldText c "name").map fun name => Text.qualify s.name name "."
  match c.kind with
  | "file_scoped_namespace_declaration" | "namespace_declaration" =>
      [.visit (s.enter? (spaceName d s.name c)) c]
  | "using_directive" => Step.emit? (directive? d s.name c)
  | "invocation_expression" => invocationSteps d s c
  | "object_creation_expression" => creationSteps d s c
  | "attribute_list" => Step.emitAll (attributes d s.name c)
  | "nullable_type" => Step.emit? (nullable? d s.name c)
  | kind =>
      if typeKinds.contains kind then
        Step.emitAll ((inner.map fun owner => heritage d owner c).getD []) ++
          [.visit (s.enter? inner) c]
      else if callableKinds.contains kind then
        [.visit (s.enter? inner) c]
      else
        [.visit s.deeper c]

/-- The uses among the children of a place. -/
def rule : Rule Scope Reference := fun s p =>
  if d.tooDeep s.depth then
    []
  else
    let named (space : Option String) : Place → Option String := spaceName d (space.or s.name)
    (withFileSpace named none p.children).flatMap fun (space, c) =>
      childSteps d { s with name := space.or s.name } c

/-- The uses of a file. -/
def references (root : Place) : List Reference :=
  (rule d).walk {} root

end SourceIndex.Uses.CSharp
