import SourceIndex.Idiom.PHP
import SourceIndex.Tree.Walk

/-!
# Uses in PHP

Imports, traits, calls, object creation and the heritage of types.
-/

namespace SourceIndex.Uses.PHP

open SourceIndex.Idiom.PHP

variable (d : Document)

/-- What to look for at a place: the uses among its children, or the call it is. -/
inductive Task where
  | inside (scope : Scope)
  | memberCall (scope : Scope)
  | scopedCall (scope : Scope)
  | functionCall (scope : Scope)

/-- One thing that an import brings in: the name it gets here, and its path. -/
structure Import where
  target : String
  path : String

/-- What one clause of an import brings in. -/
def importOf? (clause : Place) : Option Import := do
  let path := d.text (← clause.childOfAny? ["qualified_name", "namespace_name", "name"])
  let givenName :=
    match clause.childOf? "namespace_aliasing_clause" with
    | some a => d.text? (a.childOf? "name")
    | none => d.fieldText clause "alias"
  some { target := givenName.getD (shortName path), path := relative path }

/-- What the clauses of a group bring in, under the path before the group. -/
def importsOfGroup (declaration group : Place) : List Import :=
  let base := relative
    (((declaration.childOfAny? ["namespace_name", "qualified_name", "name"]).map d.text).getD "")
  let clauses := group.children.filter fun c =>
    c.isOneOf ["namespace_use_clause", "namespace_use_group_clause"]
  (clauses.filterMap (importOf? d)).map fun i =>
    { i with path := Text.qualify (some base) i.path separator }

/-- The names that a declaration imports. -/
def imports (scope : Option String) (p : Place) : List Reference :=
  let all := p.children.flatMap fun c =>
    match c.kind with
    | "namespace_use_clause" => (importOf? d c).toList
    | "namespace_use_group" => importsOfGroup d p c
    | _ => []
  all.map fun i => (d.reference .imports i.target p scope).from i.path

/-- The traits that a class uses. -/
def traits (scope : Option String) (p : Place) : List Reference :=
  (p.children.filter fun c => c.isOneOf ["name", "qualified_name"]).map fun c =>
    d.reference .usesTrait (shortName (d.text c)) p scope

/-- The uses in the arguments of a call. -/
def argumentSteps (s : Scope) (p : Place) : List (Step Task Reference) :=
  Step.visit? (.inside s.deeper) (p.field? "arguments")

/-- The call of a method, its receiver, which may itself be a call, and its arguments. -/
def memberCallSteps (s : Scope) (p : Place) : List (Step Task Reference) :=
  match d.fieldText p "name" with
  | none => []
  | some name =>
      let task (object : Place) : Task :=
        match object.kind with
        | "member_call_expression" | "nullsafe_member_call_expression" => .memberCall s.deeper
        | "scoped_call_expression" => .scopedCall s.deeper
        | "function_call_expression" => .functionCall s.deeper
        | _ => .inside s.deeper
      .emit (d.reference .call name p s.name) ::
        (((p.field? "object").toList.map fun o => .visit (task o) o) ++ argumentSteps s p)

/-- Does a scope stand for the class itself or its parent? -/
def isOwnFamily (scope : String) : Bool :=
  ["self", "static", "parent"].contains scope

/-- The call of a class's own method. Of calls within the same family the method's name counts. -/
def scopedCallSteps (s : Scope) (p : Place) : List (Step Task Reference) :=
  match d.fieldText p "name" with
  | none => []
  | some name =>
      let owner := (d.fieldText p "scope").filter fun o => !isOwnFamily o
      let target := (owner.map fun o => o ++ "." ++ name).getD name
      .emit (d.reference .call target p s.name) :: argumentSteps s p

/-- The call of a function; one through a variable has no name. -/
def functionCallSteps (s : Scope) (p : Place) : List (Step Task Reference) :=
  match d.fieldText p "function" with
  | none => []
  | some function =>
      let call : List (Step Task Reference) :=
        if Text.startsWith "$" function then []
        else [.emit (d.reference .call (shortName function) p s.name)]
      call ++ argumentSteps s p

/-- The creation of an object. -/
def creationSteps (s : Scope) (p : Place) : List (Step Task Reference) :=
  Step.emit? ((p.childOfAny? ["name", "qualified_name"]).map fun c =>
      d.reference .call (shortName (d.text c)) p s.name) ++
    argumentSteps s p

/-- What a type inherits from and implements. -/
def heritage (owner : String) (p : Place) : List Reference :=
  p.children.flatMap fun c =>
    let clause (kind : ReferenceKind) : List Reference :=
      (clauseNames d c).map fun name => d.reference kind (shortName name) p (some owner)
    match c.kind with
    | "base_clause" => clause .inherits
    | "class_interface_clause" => clause .implements
    | _ => []

/-- The kinds of type declarations. -/
def typeKinds : List String :=
  ["class_declaration", "interface_declaration", "trait_declaration", "enum_declaration"]

/-- What one child uses. -/
def childSteps (s : Scope) (c : Place) : List (Step Task Reference) :=
  let inner : Option String :=
    (d.fieldText c "name").map fun name => Text.qualify s.name name separator
  match c.kind with
  | "namespace_use_declaration" => Step.emitAll (imports d s.name c)
  | "use_declaration" => Step.emitAll (traits d s.name c)
  | "member_call_expression" | "nullsafe_member_call_expression"
  | "nullsafe_member_access_expression" => memberCallSteps d s c
  | "scoped_call_expression" => scopedCallSteps d s c
  | "object_creation_expression" => creationSteps d s c
  | "function_call_expression" => functionCallSteps d s c
  | "namespace_definition" =>
      Step.visit? (.inside (s.enter? (d.fieldText c "name"))) (c.field? "body")
  | "method_declaration" | "function_definition" => [.visit (.inside (s.enter? inner)) c]
  | kind =>
      if typeKinds.contains kind then
        Step.emitAll ((inner.map fun owner => heritage d owner c).getD []) ++
          [.visit (.inside (s.enter? inner)) c]
      else
        [.visit (.inside s.deeper) c]

/-- Siblings, each with the namespace without a body that holds for it. -/
def withSpace (space : Option String) : List Place → List (Option String × Place)
  | [] => []
  | c :: rest =>
      let opens := c.kind == "namespace_definition" && (c.field? "body").isNone
      (space, c) :: withSpace (if opens then d.fieldText c "name" else space) rest

/-- The uses at a place. -/
def rule : Rule Task Reference
  | .inside s, p =>
      if d.tooDeep s.depth then
        []
      else
        (withSpace d none p.children).flatMap fun (space, c) =>
          childSteps d { s with name := space.or s.name } c
  | .memberCall s, p => memberCallSteps d s p
  | .scopedCall s, p => scopedCallSteps d s p
  | .functionCall s, p => functionCallSteps d s p

/-- The uses of a file. -/
def references (root : Place) : List Reference :=
  (rule d).walk (.inside {}) root

end SourceIndex.Uses.PHP
