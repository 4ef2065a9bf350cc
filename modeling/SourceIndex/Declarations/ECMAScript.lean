import SourceIndex.Idiom.ECMAScript
import SourceIndex.Text.Number
import SourceIndex.Tree.Walk

/-!
# Declarations of ECMAScript

Functions, classes with their members, variables, and the names that a module exports by
assignment. A dialect may know further declarations, which come first.
-/

namespace SourceIndex.Declarations.ECMAScript

open SourceIndex.Idiom.ECMAScript

/-- The setting of the walk: the scope, and whether an export stands above. -/
structure Setting extends Scope where
  exported : Bool := false

/-- Further declarations: the steps for a place that holds one. -/
abbrev Dialect :=
  Document → Setting → Place → Option (List (Step Setting Symbol))

variable (d : Document)

/-- A symbol in a scope. -/
def symbolIn (owner : Option String) (p : Place) (name : String) (kind : SymbolKind)
    (details : Symbol.Details) : Symbol :=
  d.symbol p name kind
    { details with
      qualifiedName := some (Text.qualify owner name ".")
      parentName := owner }

/-- The word `async` with a blank, where the function is asynchronous. -/
def asyncMark (p : Place) : String :=
  if p.hasToken "async" then "async " else ""

/-- The text of a literal that is kept as a default value. -/
def literal (p : Place) : Option String :=
  let text := d.text p
  match p.kind with
  | "string" | "number" | "true" | "false" | "null" | "undefined" | "template_string" =>
      if Text.size text ≤ d.limits.literalSize.toNat then some text else none
  | "unary_expression" =>
      if Text.isFloat (Text.trim (Text.trimStartChar '-' text)) then some text else none
  | _ => none

/-- The visibility of a member: its modifier if it has one; else a hash makes it private and an
underscore protected. -/
def memberVisibility (p : Place) (name : String) : Visibility :=
  let modifier := (p.childOf? "accessibility_modifier").bind fun m =>
    Visibility.ofModifier? (Text.trim (d.text m))
  modifier.getD
    (if Text.startsWith "#" name then .private
    else if Text.startsWith "_" name then .protected
    else .public)

/-- A function. -/
def function? (s : Setting) (p : Place) : Option Symbol := do
  let name ← d.fieldText p "name"
  let word := if p.kind == "generator_function_declaration" then "function* " else "function "
  let header := asyncMark p ++ word ++ withTypeParameters d p name ++
    parameters d (p.field? "parameters") ++ returnType d p
  some (symbolIn d s.name p name .function
    { signature := some (withDecorators d p header)
      docstring := documentation d p
      isExported := some s.exported })

/-- A method, accessor or constructor. -/
def method? (owner : String) (p : Place) : Option Symbol := do
  let name ← d.fieldText p "name"
  let marks := ((["static", "async", "get", "set"].filter p.hasToken).map (· ++ " "))
  let header := String.join marks ++ withTypeParameters d p name ++
    parameters d (p.field? "parameters") ++ returnType d p
  some (symbolIn d (some owner) p name (if name == "constructor" then .constructor else .method)
    { signature := some (withDecorators d p header)
      docstring := documentation d p
      visibility := some (memberVisibility d p name) })

/-- A field of a class. -/
def field? (owner : String) (p : Place) : Option Symbol := do
  let name ← (d.fieldText p "name").or (d.fieldText p "property")
  some (symbolIn d (some owner) p name .property
    { signature := some (name ++ declaredType d p)
      docstring := documentation d p
      visibility := some (memberVisibility d p name)
      defaultValue := (p.field? "value").bind (literal d) })

/-- The members of a class body. -/
def members (s : Scope) (owner : String) (body : Place) : List Symbol :=
  if d.tooDeep s.depth then
    []
  else
    body.children.filterMap fun m =>
      match m.kind with
      | "method_definition" | "method_signature" | "abstract_method_signature" =>
          method? d owner m
      | "public_field_definition" | "field_definition" | "property_signature" => field? d owner m
      | _ => none

/-- The members of the class whose body is a field of a place. -/
def membersOf (s : Scope) (owner : String) (p : Place) : List Symbol :=
  ((p.field? "body").map (members d s owner)).getD []

/-- A class with its members. -/
def classSymbols (s : Setting) (p : Place) : List Symbol :=
  match d.fieldText p "name" with
  | none => []
  | some name =>
      let mark := if p.kind == "abstract_class_declaration" then "abstract " else ""
      let heritage := ((p.childOf? "class_heritage").map fun h =>
        " " ++ Text.squeeze (d.text h)).getD ""
      let header := mark ++ "class " ++ withTypeParameters d p name ++ heritage
      symbolIn d s.name p name .class
          { signature := some (withDecorators d p header)
            docstring := documentation d p
            isExported := some s.exported } ::
        membersOf d s.deeper (Text.qualify s.name name ".") p

/-- A variable that is bound to neither a function nor a class. -/
def plainVariable (s : Setting) (declaration : Place) (keyword name : String) (v : Place) :
    Symbol :=
  symbolIn d s.name v name (if keyword == "const" then .constant else .variable)
    { signature := some (keyword ++ " " ++ name ++ declaredType d v)
      docstring := documentation d declaration
      isExported := some s.exported
      defaultValue := (v.field? "value").bind (literal d) }

/-- What one variable of a declaration declares, under the word that opens the declaration. A
variable that is bound to a function or a class is one. -/
def variableSymbols (s : Setting) (declaration : Place) (keyword : String) (v : Place) :
    List Symbol :=
  match (v.field? "name").filter fun n => n.kind == "identifier" with
  | none => []
  | some nameNode =>
      let name := d.text nameNode
      let opening := keyword ++ " " ++ name
      let declare (kind : SymbolKind) (signature : String) : Symbol :=
        symbolIn d s.name v name kind
          { signature := some signature
            docstring := documentation d declaration
            isExported := some s.exported }
      let plain := [plainVariable d s declaration keyword name v]
      match v.field? "value" with
      | none => plain
      | some value =>
          match value.kind with
          | "arrow_function" =>
              let params := (value.field? "parameters").or (value.field? "parameter")
              [declare .function (opening ++ " = " ++ asyncMark value ++ parameters d params ++
                returnType d value ++ " =>")]
          | "function_expression" | "function" | "generator_function" =>
              [declare .function (opening ++ " = function" ++
                parameters d (value.field? "parameters"))]
          | "class" =>
              declare .class (opening ++ " = class") ::
                membersOf d { depth := 1 } (Text.qualify s.name name ".") value
          | _ => plain

/-- The variables of a declaration. -/
def declarators (s : Setting) (p : Place) : List Symbol :=
  let keyword := (p.children.head?.map d.text).getD "var"
  (p.childrenOf "variable_declarator").flatMap (variableSymbols d s p keyword)

/-- The name that an assignment exports from its module. -/
def exportedName? (target : String) : Option String :=
  ((Text.dropPrefix? "module.exports." target).or (Text.dropPrefix? "exports." target)).filter
    fun name => !name.isEmpty && !Text.has "." name

/-- The export that a statement makes by assignment. -/
def exportSymbol? (owner : Option String) (p : Place) : Option Symbol := do
  let assignment ← p.childOf? "assignment_expression"
  let left ← assignment.field? "left"
  let right ← assignment.field? "right"
  if left.kind != "member_expression" then none
  let target := d.text left
  let name ← exportedName? target
  let kind : SymbolKind :=
    match right.kind with
    | "arrow_function" | "function_expression" | "function" => .function
    | "class" => .class
    | _ => .variable
  some (symbolIn d owner assignment name kind
    { signature := some ((d.signature assignment).getD target)
      docstring := documentation d p
      isExported := some true })

/-- What one child declares. -/
def childSteps (s : Setting) (c : Place) : List (Step Setting Symbol) :=
  match c.kind with
  | "function_declaration" | "generator_function_declaration" => Step.emit? (function? d s c)
  | "class_declaration" | "abstract_class_declaration" | "class" =>
      Step.emitAll (classSymbols d s c)
  | "lexical_declaration" | "variable_declaration" => Step.emitAll (declarators d s c)
  | "export_statement" => [.visit { s with exported := true, depth := s.depth + 1 } c]
  | "expression_statement" => Step.emit? (exportSymbol? d s.name c)
  | _ => [.visit { s with depth := s.depth + 1 } c]

/-- The declarations among the children of a place. -/
def rule (dialect : Dialect) : Rule Setting Symbol := fun s p =>
  if d.tooDeep s.depth then
    []
  else
    p.children.flatMap fun c => (dialect d s c).getD (childSteps d s c)

/-- The declarations of a file. -/
def symbols (dialect : Dialect) (root : Place) : List Symbol :=
  (rule d dialect).walk {} root

/-- JavaScript knows no further declarations. -/
def javascript : Dialect :=
  fun _ _ _ => none

end SourceIndex.Declarations.ECMAScript
