import SourceIndex.Idiom.Java
import SourceIndex.Tree.Walk

/-!
# Uses in Java

Imports, invocations, object creation and the heritage of types.
-/

namespace SourceIndex.Uses.Java

open SourceIndex.Idiom.Java

variable (d : Document)

/-- What to look for at a place: the uses among its children, or the invocation it is. -/
inductive Task where
  | inside (scope : Scope)
  | invocation (scope : Scope)

/-- The scope that a named declaration opens. -/
def namedScope (s : Scope) (p : Place) : Option String :=
  (d.fieldText p "name").map fun name => Text.qualify s.name name "."

/-- An import of a name, or of all names of a package. -/
def import? (scope : Option String) (p : Place) : Option Reference :=
  (p.childOfAny? ["scoped_identifier", "identifier"]).map fun q =>
    let path := d.text q
    if p.hasChild "asterisk" then
      (d.reference .imports "*" p scope).from (path ++ ".*")
    else
      (d.reference .imports (Text.afterLast "." path) p scope).from path

/-- An invocation, and then the uses in its receiver and its arguments. -/
def invocationSteps (s : Scope) (p : Place) : List (Step Task Reference) :=
  match d.fieldText p "name" with
  | none => []
  | some name =>
      let object := p.field? "object"
      let target := (object.map fun o => d.text o ++ "." ++ name).getD name
      let receiver : List (Step Task Reference) :=
        match object with
        | some o =>
            if o.kind == "method_invocation" then [.visit (.invocation s.deeper) o]
            else [.visit (.inside s.deeper) o]
        | none => []
      .emit (d.reference .call target p s.name) ::
        (receiver ++ Step.visit? (.inside s.deeper) (p.field? "arguments"))

/-- The creation of an object, and then the uses in its arguments and in its own class body. -/
def creationSteps (s : Scope) (p : Place) : List (Step Task Reference) :=
  Step.emit? ((p.field? "type").map fun t => d.reference .call (baseTypeName d t) p s.name) ++
    Step.visit? (.inside s.deeper) (p.field? "arguments") ++
    Step.visit? (.inside s.deeper) (p.childOf? "class_body")

/-- The types that a type inherits from or implements. Of a superclass clause the first type
counts. -/
def heritage (owner : String) (p : Place) : List Reference :=
  let toType (kind : ReferenceKind) (t : Place) : Reference :=
    d.reference kind (baseTypeName d t) p (some owner)
  let types (clause : Option Place) : List Place := (clause.map heritageTypes).getD []
  ((types (p.field? "superclass")).take 1).map (toType .inherits) ++
    (types (p.field? "interfaces")).map (toType .implements) ++
    (types (p.childOf? "extends_interfaces")).map (toType .inherits)

/-- The kinds of type declarations. -/
def typeKinds : List String :=
  ["class_declaration", "interface_declaration", "enum_declaration", "record_declaration",
    "annotation_type_declaration"]

/-- What one child uses. -/
def childSteps (s : Scope) (c : Place) : List (Step Task Reference) :=
  match c.kind with
  | "import_declaration" => Step.emit? (import? d s.name c)
  | "method_invocation" => invocationSteps d s c
  | "object_creation_expression" => creationSteps d s c
  | "method_declaration" | "constructor_declaration" =>
      [.visit (.inside (s.enter? (namedScope d s c))) c]
  | kind =>
      if typeKinds.contains kind then
        let inner := namedScope d s c
        Step.emitAll ((inner.map fun owner => heritage d owner c).getD []) ++
          [.visit (.inside (s.enter? inner)) c]
      else
        [.visit (.inside s.deeper) c]

/-- The uses at a place. -/
def rule : Rule Task Reference
  | .inside s, p => if d.tooDeep s.depth then [] else p.children.flatMap (childSteps d s)
  | .invocation s, p => invocationSteps d s p

/-- The uses of a file. -/
def references (root : Place) : List Reference :=
  (rule d).walk (.inside {}) root

end SourceIndex.Uses.Java
