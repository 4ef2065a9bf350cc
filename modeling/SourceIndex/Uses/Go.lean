import SourceIndex.Declarations.Go
import SourceIndex.Tree.Walk

/-!
# Uses in Go

Imports and calls where they stand, and after them the embedding of types.
-/

namespace SourceIndex.Uses.Go

open SourceIndex.Idiom.Go

variable (d : Document)

/-- What to look for at a place: the uses among its children, or the imports. -/
inductive Task where
  | inside (scope : Scope)
  | imports (scope : Option String)

/-- An import of a path, under the name it is given or else under the last part of the path. -/
def importOf (scope : Option String) (p : Place) (name : Option String) (path : Place) :
    Reference :=
  let path := Text.trimChar '"' (d.text path)
  (d.reference .imports (name.getD (Text.afterLast "/" path)) p scope).from path

/-- The imports among the children of a declaration or of a list. -/
def importSteps (scope : Option String) (p : Place) : List (Step Task Reference) :=
  p.children.flatMap fun c =>
    match c.kind with
    | "import_spec" =>
        Step.emit? ((c.field? "path").map (importOf d scope c (d.fieldText c "name")))
    | "import_spec_list" => [.visit (.imports scope) c]
    | "interpreted_string_literal" => [.emit (importOf d scope c none c)]
    | _ => []

/-- The name of what is called: of a selector its field. -/
def calleeName (f : Place) : String :=
  if f.kind == "selector_expression" then (d.fieldText f "field").getD (d.text f) else d.text f

/-- A call, and then the uses in its arguments. -/
def callSteps (s : Scope) (p : Place) : List (Step Task Reference) :=
  match p.field? "function" with
  | none => []
  | some f =>
      .emit (d.reference .call (calleeName d f) f s.name) ::
        Step.visit? (.inside s.deeper) (p.field? "arguments")

/-- The name of a method behind the type of its receiver. -/
def methodName (p : Place) : Option String :=
  (d.fieldText p "name").map fun name =>
    match receiverType d (p.field? "receiver") with
    | some owner => owner ++ "." ++ name
    | none => name

/-- What one child uses. -/
def childSteps (s : Scope) (c : Place) : List (Step Task Reference) :=
  match c.kind with
  | "import_declaration" => importSteps d s.name c
  | "call_expression" => callSteps d s c
  | "function_declaration" => [.visit (.inside (s.enter? (d.fieldText c "name"))) c]
  | "method_declaration" => [.visit (.inside (s.enter? (methodName d c))) c]
  | _ => [.visit (.inside s.deeper) c]

/-- The uses at a place. -/
def rule : Rule Task Reference
  | .inside s, p => if d.tooDeep s.depth then [] else p.children.flatMap (childSteps d s)
  | .imports scope, p => importSteps d scope p

/-- The types that a type embeds: the fields of a struct that have no name, the elements of an
interface. -/
def embedded (owner : String) (type : Place) : List Reference :=
  match type.kind with
  | "struct_type" =>
      ((structFields type).filter fun f => (f.field? "name").isNone).filterMap fun f =>
        (d.fieldText f "type").map fun t =>
          d.reference .inherits (Text.trimStartChar '*' t) f (some owner)
  | "interface_type" =>
      (type.childrenOf "type_elem").map fun e => d.reference .inherits (d.text e) e (some owner)
  | _ => []

/-- The embeddings of all types that a file declares. -/
def embeddings (root : Place) : List Reference :=
  (root.childrenOf "type_declaration").flatMap fun declaration =>
    declaration.children.flatMap fun spec =>
      match d.fieldText spec "name", spec.field? "type" with
      | some name, some type => embedded d name type
      | _, _ => []

/-- The uses of a file. -/
def references (root : Place) : List Reference :=
  (rule d).walk (.inside {}) root ++ embeddings d root

end SourceIndex.Uses.Go
