import SourceIndex.Idiom.C
import SourceIndex.Tree.Walk

/-!
# Uses in C and C++

Includes, calls, object creation and base classes. A dialect may know further uses, which come
first.
-/

namespace SourceIndex.Uses.C

open SourceIndex.Idiom.C

/-- Further uses: the steps for a place that holds some. -/
abbrev Dialect :=
  Document → Scope → Place → Option (List (Step Scope Reference))

variable (d : Document)

/-- The header that a file includes. -/
def include? (scope : Option String) (p : Place) : Option Reference :=
  ((p.field? "path").or (p.childOfAny? ["string_literal", "system_lib_string"])).map fun q =>
    let path := Text.trimWhere (fun c => c == '<' || c == '>' || c == '"') (d.text q)
    (d.reference .imports path p scope).from path

/-- A call, and then the uses in its arguments. -/
def callSteps (s : Scope) (p : Place) : List (Step Scope Reference) :=
  match p.field? "function" with
  | none => []
  | some f =>
      .emit (d.reference .call (d.text f) f s.name) ::
        Step.visit? s.deeper (p.field? "arguments")

/-- The creation of an object counts as a call of its class. -/
def creationSteps (s : Scope) (p : Place) : List (Step Scope Reference) :=
  Step.emit? ((d.fieldText p "type").map fun t => d.reference .call (typeHead t) p s.name) ++
    Step.visit? s.deeper (p.field? "arguments")

/-- The classes that a class inherits from. -/
def bases (owner : String) (p : Place) : List Reference :=
  match p.childOf? "base_class_clause" with
  | none => []
  | some clause =>
      (clause.children.filter fun c =>
          c.isOneOf ["type_identifier", "qualified_identifier", "template_type"]).map fun c =>
        d.reference .inherits (typeHead (d.text c)) p (some owner)

/-- The name of the scope that a definition of a function opens. -/
def functionScope (s : Scope) (p : Place) : Option String :=
  ((p.field? "declarator").bind (functionParts d)).map fun (name, _) =>
    Text.qualify s.name name "::"

/-- The name of the scope that a named declaration opens. -/
def namedScope (s : Scope) (p : Place) : Option String :=
  (d.fieldText p "name").map fun name => Text.qualify s.name name "::"

/-- What one child uses. -/
def childSteps (s : Scope) (c : Place) : List (Step Scope Reference) :=
  match c.kind with
  | "preproc_include" => Step.emit? (include? d s.name c)
  | "call_expression" => callSteps d s c
  | "new_expression" => creationSteps d s c
  | "function_definition" => [.visit (s.enter? (functionScope d s c)) c]
  | "namespace_definition" => [.visit (s.enter? (namedScope d s c)) c]
  | "class_specifier" | "struct_specifier" =>
      let inner := namedScope d s c
      Step.emitAll ((inner.map fun owner => bases d owner c).getD []) ++
        [.visit (s.enter? inner) c]
  | _ => [.visit s.deeper c]

/-- The uses among the children of a place. -/
def rule (dialect : Dialect) : Rule Scope Reference := fun s p =>
  if d.tooDeep s.depth then
    []
  else
    p.children.flatMap fun c => (dialect d s c).getD (childSteps d s c)

/-- The uses of a file. -/
def references (dialect : Dialect) (root : Place) : List Reference :=
  (rule d dialect).walk {} root

/-- C and C++ know no further uses. -/
def c : Dialect :=
  fun _ _ _ => none

end SourceIndex.Uses.C
