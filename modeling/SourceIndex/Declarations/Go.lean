import SourceIndex.Document
import SourceIndex.Text.Word

/-!
# Declarations of Go

The declarations at the level of a file: its package, functions, methods, types with their fields
and methods, variables and constants.
-/

/-! ## Exported names, documentation and receivers -/

namespace SourceIndex.Idiom.Go

/-- A name is exported if it starts with an upper-case letter. -/
def isExported (name : String) : Bool :=
  name.toList.head?.any Text.isUppercase

/-- The comments right above a declaration, without their slashes. -/
def documentation (d : Document) (p : Place) : Option String :=
  let comments := (d.precedingComments p ["comment"]).map fun c =>
    ((Text.dropPrefix? "//" c).map Text.trim).getD c
  if comments.isEmpty then none else some ("\n".intercalate comments)

/-- The type of the receiver of a method, without the stars of a pointer. -/
def receiverType (d : Document) (receiver : Option Place) : Option String := do
  let params := (← receiver).childrenOf "parameter_declaration"
  let type ← params.findSome? fun q => d.fieldText q "type"
  some (Text.trimStartChar '*' type)

/-- The fields of a struct type. -/
def structFields (p : Place) : List Place :=
  ((p.childOf? "field_declaration_list").map fun l => l.childrenOf "field_declaration").getD []

end SourceIndex.Idiom.Go

/-! ## Declarations -/

namespace SourceIndex.Declarations.Go

open SourceIndex.Idiom.Go

variable (d : Document)

/-- A symbol whose visibility follows from its name. -/
def symbol (p : Place) (name : String) (kind : SymbolKind) (details : Symbol.Details) : Symbol :=
  d.symbol p name kind
    { details with
      visibility := some (if isExported name then .public else .private)
      isExported := some (isExported name) }

/-- A member of a type. -/
def memberOf (owner : String) (p : Place) (name : String) (kind : SymbolKind)
    (signature : String) : Symbol :=
  symbol d p name kind
    { qualifiedName := some (Text.qualify (some owner) name ".")
      signature := some signature
      parentName := some owner }

/-- The parameters in parentheses, and the result after a blank. -/
def callSignature (p : Place) : String :=
  "(" ++ d.paramsText (p.field? "parameters") ++ ")" ++
    ((d.fieldText p "result").map (" " ++ ·)).getD ""

/-- A function. -/
def function? (p : Place) : Option Symbol := do
  let name ← d.fieldText p "name"
  let params := (d.fieldText p "type_parameters").getD ""
  some (symbol d p name .function
    { signature := some ("func " ++ name ++ params ++ callSignature d p)
      docstring := documentation d p })

/-- A method, which belongs to the type of its receiver. -/
def method? (p : Place) : Option Symbol := do
  let name ← d.fieldText p "name"
  let receiver := p.field? "receiver"
  let owner := receiverType d receiver
  let text := (receiver.map d.text).getD ""
  some (symbol d p name .method
    { qualifiedName := some (Text.qualify owner name ".")
      signature := some ("func " ++ text ++ " " ++ name ++ callSignature d p)
      docstring := documentation d p
      parentName := owner })

/-- The fields of a struct. -/
def fields (owner : String) (p : Place) : List Symbol :=
  (structFields p).flatMap fun f =>
    let type := ((d.fieldText f "type").map (" " ++ ·)).getD ""
    ((f.fieldAll "name").map d.text).map fun name => memberOf d owner f name .field (name ++ type)

/-- The methods that an interface asks for. -/
def interfaceMethods (owner : String) (p : Place) : List Symbol :=
  (p.children.filter fun c => c.isOneOf ["method_spec", "method_elem"]).filterMap fun c =>
    (d.fieldText c "name").map fun name =>
      memberOf d owner c name .method (name ++ callSignature d c)

/-- The kinds of the parts of a type declaration that declare a type. -/
def typeKinds : List String :=
  ["type_spec", "type_alias"]

/-- The type of one part of a type declaration, after its members. A type that is declared alone
spans the whole declaration. -/
def typeSymbols (declaration p : Place) : List Symbol :=
  match d.fieldText p "name", p.field? "type" with
  | some name, some type =>
      let alone := (declaration.children.filter fun c => c.isOneOf typeKinds).length ≤ 1
      let declare (kind : SymbolKind) (form : String) : Symbol :=
        symbol d (if alone then declaration else p) name kind
          { signature := some ("type " ++ name ++ " " ++ form)
            docstring := documentation d declaration }
      match type.kind with
      | "struct_type" => fields d name type ++ [declare .struct "struct"]
      | "interface_type" => interfaceMethods d name type ++ [declare .interface "interface"]
      | _ =>
          let mark := if p.kind == "type_alias" then "= " else ""
          [declare .typeAlias (mark ++ Text.take 60 (d.text type))]
  | _, _ => []

/-- The package of the file. -/
def package? (p : Place) : Option Symbol :=
  (p.childOf? "package_identifier").map fun i =>
    let name := d.text i
    d.symbol p name .module { signature := some ("package " ++ name), isExported := some true }

/-- The names that a declaration of variables or constants declares, directly or in a list. -/
def specSymbols (p : Place) (specKind keyword : String) (kind : SymbolKind) : List Symbol :=
  let specs := p.children.flatMap fun c =>
    if c.kind == specKind then [c]
    else if Text.endsWith "_spec_list" c.kind then c.childrenOf specKind
    else []
  specs.flatMap fun spec =>
    let type := ((d.fieldText spec "type").map (" " ++ ·)).getD ""
    ((spec.fieldAll "name").map d.text).map fun name =>
      symbol d spec name kind { signature := some (keyword ++ " " ++ name ++ type) }

/-- What one child of the file declares. -/
def childSymbols (c : Place) : List Symbol :=
  match c.kind with
  | "function_declaration" => (function? d c).toList
  | "method_declaration" => (method? d c).toList
  | "type_declaration" =>
      (c.children.filter fun q => q.isOneOf typeKinds).flatMap (typeSymbols d c)
  | "package_clause" => (package? d c).toList
  | "var_declaration" => specSymbols d c "var_spec" "var" .variable
  | "const_declaration" => specSymbols d c "const_spec" "const" .constant
  | _ => []

/-- The declarations of a file. -/
def symbols (root : Place) : List Symbol :=
  root.children.flatMap (childSymbols d)

end SourceIndex.Declarations.Go
