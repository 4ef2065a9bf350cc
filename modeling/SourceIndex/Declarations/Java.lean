import SourceIndex.Idiom.Apex
import SourceIndex.Idiom.Java
import SourceIndex.Tree.Walk

/-!
# Declarations of Java and Apex

Packages, types, enum constants, methods, constructors and fields. The walk goes from type body to
type body and never into the body of a method. In Apex the trigger that a trigger file declares
stands before what the grammar of Java finds.
-/

/-! ## Java -/

namespace SourceIndex.Declarations.Java

open SourceIndex.Idiom.Java

variable (dialect : Dialect) (d : Document)

/-- The details that all declarations with modifiers share. -/
def details (owner : Option String) (p : Place) (name signature : String)
    (visibility : Visibility) : Symbol.Details :=
  { qualifiedName := some (Text.qualify owner name ".")
    signature := some signature
    docstring := documentation d p
    visibility := some visibility
    isExported := some (visibility == .public)
    parentName := owner }

/-- The word that opens a type declaration. -/
def typeKeyword (kind : String) : String :=
  match kind with
  | "record_declaration" => "record"
  | "annotation_type_declaration" => "@interface"
  | "interface_declaration" => "interface"
  | _ => "class"

/-- The signature of a type: keyword, name, parameters and heritage. -/
def typeSignature (p : Place) (name : String) : String :=
  let header := typeKeyword p.kind ++ " " ++ name ++ (d.fieldText p "type_parameters").getD ""
  let params := if p.kind == "record_declaration" then (d.fieldText p "parameters").getD "" else ""
  let clauses := [d.fieldText p "superclass", d.fieldText p "interfaces",
    d.text? (p.childOf? "extends_interfaces")]
  clauses.foldl (fun s clause => (clause.map (s ++ " " ++ ·)).getD s) (header ++ params)

/-- A class, record, interface or annotation type, and then its body. -/
def typeSteps (s : Scope) (kind : SymbolKind) (p : Place) : List (Step Scope Symbol) :=
  match d.fieldText p "name" with
  | none => []
  | some name =>
      let visibility := dialect.visibility (modifiers d p)
      let signature := withAnnotations d p (typeSignature d p name)
      let symbol := d.symbol p name kind (details d s.name p name signature visibility)
      .emit (dialect.adjust d p symbol) ::
        Step.visit? (s.enter (Text.qualify s.name name ".")) (p.field? "body")

/-- An enum, its constants, and then the declarations in its body. -/
def enumSteps (s : Scope) (p : Place) : List (Step Scope Symbol) :=
  match d.fieldText p "name" with
  | none => []
  | some name =>
      let visibility := dialect.visibility (modifiers d p)
      let qualified := Text.qualify s.name name "."
      let header := "enum " ++ name
      let header := ((d.fieldText p "interfaces").map (header ++ " " ++ ·)).getD header
      let members := ((p.field? "body").map Place.children).getD []
      .emit (d.symbol p name .enum
          (details d s.name p name (withAnnotations d p header) visibility)) ::
        members.flatMap fun c =>
          match c.kind with
          | "enum_constant" =>
              Step.emit? ((d.fieldText c "name").map fun constant =>
                d.symbol c constant .constant
                  { qualifiedName := some (Text.qualify (some qualified) constant ".")
                    visibility := some visibility
                    isExported := some (visibility == .public)
                    parentName := some qualified })
          | "enum_body_declarations" => [.visit (s.enter qualified) c]
          | _ => []

/-- A method. -/
def method? (owner : Option String) (p : Place) : Option Symbol := do
  let name ← d.fieldText p "name"
  let words := modifiers d p
  let header := String.join
    [if words.contains "static" then "static " else "",
      ((d.fieldText p "type_parameters").map (· ++ " ")).getD "",
      ((d.fieldText p "type").map (· ++ " ")).getD "",
      name, "(", d.paramsText (p.field? "parameters"), ")",
      ((p.childOf? "throws").map fun t => " " ++ d.text t).getD ""]
  some (d.symbol p name .method
    (details d owner p name (withAnnotations d p header) (dialect.visibility words)))

/-- A constructor. -/
def constructor? (owner : Option String) (p : Place) : Option Symbol := do
  let name ← d.fieldText p "name"
  let header := name ++ "(" ++ d.paramsText (p.field? "parameters") ++ ")"
  some (d.symbol p name .constructor
    (details d owner p name (withAnnotations d p header) (dialect.visibility (modifiers d p))))

/-- The kinds of literals. -/
def literalKinds : List String :=
  ["decimal_integer_literal", "hex_integer_literal", "octal_integer_literal",
    "binary_integer_literal", "decimal_floating_point_literal", "string_literal",
    "character_literal", "true", "false", "null_literal"]

/-- The literal that a variable starts with, if it is short enough to keep. -/
def initialLiteral (p : Place) : Option String :=
  (((p.field? "value").filter fun v => v.isOneOf literalKinds).map d.text).filter fun v =>
    Text.size v ≤ d.limits.literalSize.toNat

/-- The fields of one declaration; those of an interface are constants. -/
def fields (owner : Option String) (p : Place) : List Symbol :=
  let words := modifiers d p
  let isStatic := words.contains "static"
  let isFinal := words.contains "final"
  let kind : SymbolKind :=
    if (isStatic && isFinal) || p.kind == "constant_declaration" then .constant else .field
  let type := (d.fieldText p "type").getD ""
  (p.childrenOf "variable_declarator").filterMap fun v => do
    let name ← d.fieldText v "name"
    let signature := String.join
      [if isStatic then "static " else "", if isFinal then "final " else "", type, " ", name]
    some (d.symbol p name kind
      { details d owner p name signature (dialect.visibility words) with
        defaultValue := initialLiteral d v })

/-- The package of the file. -/
def package? (p : Place) : Option Symbol :=
  (p.childOfAny? ["scoped_identifier", "identifier"]).map fun path =>
    let name := d.text path
    d.symbol p name .module { signature := some ("package " ++ name) }

/-- What one child of a body declares. -/
def childSteps (s : Scope) (c : Place) : List (Step Scope Symbol) :=
  match c.kind with
  | "class_declaration" | "record_declaration" => typeSteps dialect d s .class c
  | "interface_declaration" | "annotation_type_declaration" => typeSteps dialect d s .interface c
  | "enum_declaration" => enumSteps dialect d s c
  | "method_declaration" => Step.emit? (method? dialect d s.name c)
  | "constructor_declaration" => Step.emit? (constructor? dialect d s.name c)
  | "field_declaration" | "constant_declaration" => Step.emitAll (fields dialect d s.name c)
  | "package_declaration" => Step.emit? (package? d c)
  | _ => []

/-- The declarations among the children of a place. -/
def rule : Rule Scope Symbol := fun s p =>
  if d.tooDeep s.depth then [] else p.children.flatMap (childSteps dialect d s)

/-- The declarations of a file. -/
def symbols (root : Place) : List Symbol :=
  (rule dialect d).walk {} root

end SourceIndex.Declarations.Java

/-! ## Apex -/

namespace SourceIndex.Declarations.Apex

open SourceIndex.Text (Pattern)

/-- A trigger with its name and its object. -/
def triggerPattern : Pattern Char :=
  .seqs [.wordAnyCase "trigger", .blanks1, .group 1 (.plus .wordChar), .blanks1,
    .wordAnyCase "on", .blanks1, .group 2 (.plus .wordChar)]

/-- The first trigger in a text. -/
def trigger? (text : List Char) : Option Symbol := do
  let m ← triggerPattern.find? text
  let name ← m.text? 1 text
  let object ← m.text? 2 text
  let line := Text.lineOf text m.start
  some (Symbol.ofDetails name .trigger line line
    { signature := some ("trigger " ++ name ++ " on " ++ object) })

/-- The declarations of a file. -/
def symbols (parse : Parser) (d : Document) (root : Option Place) : List Symbol :=
  let trigger := if Idiom.Apex.isTrigger d.path then (trigger? d.fullText).toList else []
  match Idiom.Apex.root? parse d root with
  | some r => trigger ++ Java.symbols Idiom.Apex.dialect d r
  | none => trigger

end SourceIndex.Declarations.Apex
