import SourceIndex.Idiom.PHP

/-!
# Declarations of PHP

Namespaces, types and their members, functions and constants. A namespace with a body holds for the
body alone, one without holds for the siblings after it. A parameter of the constructor with a
visibility declares a property.
-/

namespace SourceIndex.Declarations.PHP

open SourceIndex.Idiom.PHP

variable (d : Document)

/-- What encloses a place: a type, or else a namespace. -/
structure Setting where
  owner : Option String := none
  space : Option String := none
  depth : Nat := 0

/-- The qualified name of a declaration in a setting. -/
def Setting.qualify (s : Setting) (name : String) : String :=
  Text.qualify (s.owner.or s.space) name separator

/-- A symbol of a declaration that states no visibility. -/
def symbol (s : Setting) (p : Place) (name : String) (kind : SymbolKind) (signature : String) :
    Symbol :=
  d.symbol p name kind
    { qualifiedName := some (s.qualify name)
      signature := some signature
      docstring := documentation d p
      parentName := s.owner }

/-- What is said of a member with a visibility. -/
def memberDetails (owner : Option String) (qualified signature : String)
    (visibility : Visibility) : Symbol.Details :=
  { qualifiedName := some qualified
    signature := some signature
    visibility := some visibility
    isExported := some (visibility == .public)
    parentName := owner }

/-- A constructor parameter that is also a property. -/
def promoted? (owner : String) (parameter : Place) : Option Symbol := do
  let modifier ← parameter.childOf? "visibility_modifier"
  let sigil ← parameter.childOf? "variable_name"
  let raw := d.text sigil
  let name := variableName raw
  some (d.symbol parameter name .property
    (memberDetails (some owner) (Text.qualify (some owner) name separator) ("promoted " ++ raw)
      (modifierVisibility d modifier)))

/-- The properties that the constructors in a body promote. -/
def promotedProperties (owner : String) (body : Place) : List Symbol :=
  let constructors := (body.childrenOf "method_declaration").filter fun m =>
    d.fieldText m "name" == some "__construct"
  (constructors.filterMap fun m => m.field? "parameters").flatMap fun parameters =>
    (parameters.children.filter fun c =>
      c.isOneOf ["simple_parameter", "property_promotion_parameter"]).filterMap
        (promoted? d owner)

/-- The texts of some clauses of a declaration, each after a blank. -/
def clauses (p : Place) (kinds : List String) : String :=
  String.join ((kinds.filterMap p.childOf?).map fun c => " " ++ d.text c)

/-- A class, interface or trait, its body, and then its promoted properties. -/
def typeSteps (s : Setting) (kind : SymbolKind) (keyword : String) (p : Place) :
    List (Step Setting Symbol) :=
  match d.fieldText p "name" with
  | none => []
  | some name =>
      let qualified := s.qualify name
      let signature := String.join
        [if hasModifier d p "final" then "final " else "",
          if hasModifier d p "abstract" then "abstract " else "",
          keyword, " ", name, clauses d p ["base_clause", "class_interface_clause"]]
      let body := p.field? "body"
      .emit (symbol d s p name kind signature) ::
        (Step.visit? { s with owner := some qualified, depth := s.depth + 1 } body ++
          Step.emitAll ((body.map (promotedProperties d qualified)).getD []))

/-- The type that backs an enum stands right after the colon. -/
def backing (p : Place) : String :=
  match p.children.dropWhile fun c => c.kind != ":" with
  | _ :: type :: _ => ": " ++ d.text type
  | _ => ""

/-- One case of an enum. -/
def enumCase? (owner : String) (p : Place) : Option Symbol :=
  ((d.fieldText p "name").or (d.text? (p.childOf? "name"))).map fun name =>
    d.symbol p name .constant
      { qualifiedName := some (Text.qualify (some owner) name separator)
        defaultValue := d.fieldText p "value"
        parentName := some owner }

/-- An enum, its cases, and then the other declarations of its body. -/
def enumSteps (s : Setting) (p : Place) : List (Step Setting Symbol) :=
  match d.fieldText p "name" with
  | none => []
  | some name =>
      let qualified := s.qualify name
      let signature := "enum " ++ name ++ backing d p ++ clauses d p ["class_interface_clause"]
      let body := p.field? "body"
      let cases := (body.map fun b => b.childrenOf "enum_case").getD []
      .emit (symbol d s p name .enum signature) ::
        (Step.emitAll (cases.filterMap (enumCase? d qualified)) ++
          Step.visit? { s with owner := some qualified, depth := s.depth + 1 } body)

/-- The signature of a function or method: keyword, name, parameters and result. -/
def callSignature (p : Place) (name : String) : String :=
  "function " ++ name ++ "(" ++ d.paramsText (p.field? "parameters") ++ ")" ++
    ((d.fieldText p "return_type").map (": " ++ ·)).getD ""

/-- A function. -/
def function? (s : Setting) (p : Place) : Option Symbol :=
  (d.fieldText p "name").map fun name => symbol d s p name .function (callSignature d p name)

/-- A method or the constructor. -/
def method? (s : Setting) (p : Place) : Option Symbol :=
  (d.fieldText p "name").map fun name =>
    let visibility := visibility d p
    let signature := String.join
      [visibility.word, " ", if hasModifier d p "abstract" then "abstract " else "",
        if hasModifier d p "static" then "static " else "", callSignature d p name]
    d.symbol p name (if name == "__construct" then .constructor else .method)
      { memberDetails s.owner (s.qualify name) signature visibility with
        docstring := documentation d p }

/-- The properties of one declaration, which namespaces do not qualify. -/
def properties (owner : Option String) (p : Place) : List Symbol :=
  let visibility := visibility d p
  let words := String.join
    [if hasModifier d p "readonly" then "readonly " else "",
      if hasModifier d p "static" then "static " else "", visibility.word, " "]
  (p.childrenOf "property_element").filterMap fun element => do
    let raw ← (d.fieldText element "name").or (d.text? (element.childOf? "variable_name"))
    let name := variableName raw
    let initial := (element.childOf? "property_initializer").bind fun i => i.namedChildren.head?
    some (d.symbol p name .property
      { memberDetails owner (Text.qualify owner name separator) (words ++ raw) visibility with
        docstring := documentation d p
        defaultValue := (d.fieldText element "default_value").or (d.text? initial) })

/-- The constants of one declaration. -/
def constants (s : Setting) (p : Place) : List Symbol :=
  (p.childrenOf "const_element").filterMap fun element => do
    let nameNode ← element.childOf? "name"
    let name := d.text nameNode
    let values := element.namedChildren.filter fun c => c.index != nameNode.index
    some (d.symbol p name .constant
      { memberDetails s.owner (s.qualify name) ("const " ++ name) (visibility d p) with
        defaultValue := d.text? values.getLast? })

/-- A namespace, and then its body if it has one. -/
def namespaceSteps (s : Setting) (p : Place) : List (Step Setting Symbol) :=
  match d.fieldText p "name" with
  | none => []
  | some name =>
      .emit (d.symbol p name .module { signature := some ("namespace " ++ name) }) ::
        Step.visit? { owner := none, space := some name, depth := s.depth + 1 } (p.field? "body")

/-- What one child declares. -/
def childSteps (s : Setting) (c : Place) : List (Step Setting Symbol) :=
  match c.kind with
  | "namespace_definition" => namespaceSteps d s c
  | "class_declaration" => typeSteps d s .class "class" c
  | "interface_declaration" => typeSteps d s .interface "interface" c
  | "trait_declaration" => typeSteps d s .trait "trait" c
  | "enum_declaration" => enumSteps d s c
  | "function_definition" => Step.emit? (function? d s c)
  | "method_declaration" => Step.emit? (method? d s c)
  | "property_declaration" => Step.emitAll (properties d s.owner c)
  | "const_declaration" => Step.emitAll (constants d s c)
  | "declaration_list" | "compound_statement" => [.visit { s with depth := s.depth + 1 } c]
  | _ => []

/-- Siblings, each with the namespace that holds for it. -/
def withSpace (space : Option String) : List Place → List (Option String × Place)
  | [] => []
  | c :: rest =>
      let opens := c.kind == "namespace_definition" && (c.field? "body").isNone
      let after := if opens then (d.fieldText c "name").or space else space
      (space, c) :: withSpace after rest

/-- The declarations among the children of a place. -/
def rule : Rule Setting Symbol := fun s p =>
  if d.tooDeep s.depth then
    []
  else
    (withSpace d s.space p.children).flatMap fun (space, c) => childSteps d { s with space } c

/-- The declarations of a file. -/
def symbols (root : Place) : List Symbol :=
  (rule d).walk {} root

end SourceIndex.Declarations.PHP
