import SourceIndex.Declarations.Python
import SourceIndex.Text.Pattern
import SourceIndex.Tree.Walk

/-!
# Uses in Python

Imports, calls, decorators, bases, exceptions and type annotations.
-/

namespace SourceIndex.Uses.Python

open SourceIndex.Idiom.Python
open SourceIndex.Text (Pattern)

variable (d : Document)

/-- What to look for at a place: the uses among its children, or the types that it names as an
annotation or as what an `except` catches. -/
inductive Task where
  | inside (scope : Scope)
  | typeHint (scope : Scope)
  | caught (scope : Scope)

/-- Types of the language, which are not worth a reference. -/
def builtinTypes : List String :=
  ["int", "str", "float", "bool", "bytes", "None", "list", "dict", "set", "tuple", "type",
    "object"]

/-- A name in an annotation that is written as a string. -/
def quotedName : Pattern Char :=
  let first : Pattern Char := .one fun c => c.isAlpha || c == '_'
  let word : Pattern Char := .seq first (.star (.one fun c => c.isAlphanum || c == '_'))
  .seq word (.star (.seq (.char '.') word))

/-- The module that a part of an import names. -/
def importedName? (p : Place) : Option String :=
  match p.kind with
  | "dotted_name" => some (d.text p)
  | "aliased_import" => d.fieldText p "name"
  | _ => none

/-- The modules of an import. -/
def imports (scope : Option String) (p : Place) : List Reference :=
  p.children.filterMap fun c =>
    (importedName? d c).map fun module => (d.reference .imports module c scope).from module

/-- The names imported from a module. -/
def importsFrom (scope : Option String) (p : Place) : List Reference :=
  let moduleNode := p.field? "module_name"
  let module := (moduleNode.map d.text).getD ""
  p.children.filterMap fun c =>
    if moduleNode.map Place.index == some c.index then
      none
    else
      let name := if c.kind == "wildcard_import" then some "*" else importedName? d c
      name.map fun name =>
        (d.reference .imports name c scope).from
          (if module.isEmpty then name else module ++ "." ++ name)

/-- A call, and then the uses in its arguments. -/
def callSteps (s : Scope) (p : Place) : List (Step Task Reference) :=
  match p.field? "function" with
  | none => []
  | some f =>
      .emit (d.reference .call (d.text f) f s.name) ::
        Step.visit? (.inside s.deeper) (p.field? "arguments")

/-- A name that is called without being written as a call, or a call. -/
def namedOrCalled? (s : Scope) (p : Place) : Option (List (Step Task Reference)) :=
  match p.kind with
  | "identifier" | "attribute" => some [.emit (d.reference .call (d.text p) p s.name)]
  | "call" => some (callSteps d s p)
  | _ => none

/-- The decorators of a definition count as calls. -/
def decoratorSteps (s : Scope) (p : Place) : List (Step Task Reference) :=
  (p.childrenOf "decorator").flatMap fun decorator =>
    decorator.children.flatMap fun c => (namedOrCalled? d s c).getD []

/-- The classes that a class inherits from. -/
def bases (owner : Option String) (p : Place) : List Reference :=
  let children := ((p.field? "superclasses").map Place.children).getD []
  children.filterMap fun c =>
    let target :=
      match c.kind with
      | "identifier" => d.text c
      | "attribute" => Text.afterLast "." (d.text c)
      | _ => ""
    if target.isEmpty then none else some (d.reference .inherits target p owner)

/-- The name of the scope inside a definition. -/
def innerName (s : Scope) (p : Place) : Option String :=
  let name :=
    match d.fieldText p "name" with
    | some name => Text.qualify s.name name "."
    | none => s.name.getD ""
  if name.isEmpty then none else some name

/-- The annotations of a definition, or its bases, and then the uses inside it. -/
def definitionSteps (s : Scope) (p : Place) : List (Step Task Reference) :=
  let inner := innerName d s p
  let header : List (Step Task Reference) :=
    if p.kind == "function_definition" then
      let params := ((p.field? "parameters").map Place.children).getD []
      let annotations := params.filterMap fun c => c.field? "type"
      Step.visitAll (.typeHint ⟨inner, s.depth⟩)
        (annotations ++ (p.field? "return_type").toList)
    else
      Step.emitAll (bases d inner p)
  header ++ [.visit (.inside ⟨inner, s.depth + 1⟩) p]

/-- What is raised counts as a call. -/
def raiseSteps (s : Scope) (p : Place) : List (Step Task Reference) :=
  match p.namedChildren with
  | [] => []
  | first :: rest =>
      (namedOrCalled? d s first).getD [.visit (.inside s.deeper) first] ++
        rest.flatMap fun c =>
          if c.kind == "call" then callSteps d s c else [.visit (.inside s.deeper) c]

/-- What is caught, and then the uses in the handler. -/
def exceptSteps (s : Scope) (p : Place) : List (Step Task Reference) :=
  let givenName := (p.field? "alias").map Place.index
  (p.namedChildren.filter fun c => givenName != some c.index).map fun c =>
    if c.kind == "block" then .visit (.inside s.deeper) c else .visit (.caught s.deeper) c

/-- What one child uses. -/
def childSteps (s : Scope) (c : Place) : List (Step Task Reference) :=
  match c.kind with
  | "import_statement" => Step.emitAll (imports d s.name c)
  | "import_from_statement" => Step.emitAll (importsFrom d s.name c)
  | "call" => callSteps d s c
  | "decorated_definition" =>
      decoratorSteps d s c ++ ((c.field? "definition").map (definitionSteps d s)).getD []
  | "function_definition" | "class_definition" => definitionSteps d s c
  | "raise_statement" => raiseSteps d s c
  | "except_clause" => exceptSteps s c
  | "assignment" =>
      Step.visit? (.typeHint s) (c.field? "type") ++ [.visit (.inside s.deeper) c]
  | _ => [.visit (.inside s.deeper) c]

/-- The types that an annotation names, also inside a string. -/
def typeHintSteps (s : Scope) (p : Place) : List (Step Task Reference) :=
  let toType (name : String) : Reference := d.reference .typeRef name p s.name
  match p.kind with
  | "identifier" =>
      let name := d.text p
      if builtinTypes.contains name then [] else [.emit (toType name)]
  | "attribute" => [.emit (toType (d.text p))]
  | "string" =>
      let content := (stringContent d p).toList
      let names := (quotedName.findAll content).map fun m => String.ofList (m.span content)
      (names.filter fun name => !builtinTypes.contains name).map fun name => .emit (toType name)
  | _ => Step.visitAll (.typeHint s.deeper) p.children

/-- The types that an `except` catches; of `E as e` the left side names the type. -/
def caughtSteps (s : Scope) (p : Place) : List (Step Task Reference) :=
  match p.kind with
  | "identifier" | "attribute" => [.emit (d.reference .typeRef (d.text p) p s.name)]
  | "as_pattern" => Step.visitAll (.caught s.deeper) (p.namedChildren.take 1)
  | "tuple" | "parenthesized_expression" | "expression_list" =>
      Step.visitAll (.caught s.deeper) p.namedChildren
  | _ => []

/-- The uses at a place. -/
def rule : Rule Task Reference
  | .inside s, p => if d.tooDeep s.depth then [] else p.children.flatMap (childSteps d s)
  | .typeHint s, p => if d.tooDeep s.depth then [] else typeHintSteps d s p
  | .caught s, p => if d.tooDeep s.depth then [] else caughtSteps d s p

/-- The uses of a file. -/
def references (root : Place) : List Reference :=
  (rule d).walk (.inside {}) root

end SourceIndex.Uses.Python
