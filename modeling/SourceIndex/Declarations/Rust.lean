import SourceIndex.Idiom.Rust
import SourceIndex.Tree.Walk

/-!
# Declarations of Rust

Items, the fields and variants of types, and the members of traits and implementations. A member
of an implementation belongs to its type, or to its type and trait together.
-/

namespace SourceIndex.Declarations.Rust

open SourceIndex.Idiom.Rust

variable (d : Document)

/-- A symbol that is exported if it is public. -/
def symbol (owner : Option String) (p : Place) (name : String) (kind : SymbolKind)
    (visibility : Visibility) (signature docstring : Option String) : Symbol :=
  d.symbol p name kind
    { qualifiedName := some (Text.qualify owner name "::")
      signature
      docstring
      visibility := some visibility
      isExported := some (visibility == .public)
      parentName := owner }

/-- Name, type parameters, parameters and result of a function. -/
def callSignature (p : Place) (name : String) : String :=
  "fn " ++ name ++ (d.fieldText p "type_parameters").getD "" ++ "(" ++
    d.paramsText (p.field? "parameters") ++ ")" ++
    ((d.fieldText p "return_type").map (" -> " ++ ·)).getD ""

/-- A function or method with a body. -/
def function? (owner : Option String) (kind : SymbolKind) (p : Place) : Option Symbol := do
  let name ← d.fieldText p "name"
  let v := visibility d p
  some (symbol d owner p name kind v
    (some (publicMark v ++ functionModifiers d p ++ callSignature d p name)) (documentation d p))

/-- A method that a trait asks for; it can be seen where the trait can. -/
def requiredMethod? (owner : String) (p : Place) : Option Symbol := do
  let name ← d.fieldText p "name"
  some (symbol d (some owner) p name .method .public (some (callSignature d p name))
    (documentation d p))

/-- The head of the declaration of a type. -/
def typeSignature (p : Place) (keyword name : String) (v : Visibility) : String :=
  publicMark v ++ keyword ++ " " ++ name ++ (d.fieldText p "type_parameters").getD ""

/-- The children of the body of an item. -/
def bodyChildren (p : Place) : List Place :=
  ((p.field? "body").map Place.children).getD []

/-- A field of a struct or union. -/
def field? (owner : String) (p : Place) : Option Symbol := do
  let name ← d.fieldText p "name"
  let type := ((d.fieldText p "type").map (": " ++ ·)).getD ""
  some (symbol d (some owner) p name .field (visibility d p) (some (name ++ type))
    (documentation d p))

/-- A struct or union with its fields. -/
def structSymbols (owner : Option String) (p : Place) : List Symbol :=
  match d.fieldText p "name" with
  | none => []
  | some name =>
      let v := visibility d p
      let keyword := if p.kind == "union_item" then "union" else "struct"
      symbol d owner p name .struct v (some (typeSignature d p keyword name v))
          (documentation d p) ::
        ((bodyChildren p).filter fun c => c.kind == "field_declaration").filterMap
          (field? d (Text.qualify owner name "::"))

/-- An enum with its variants, which can be seen where the enum can. -/
def enumSymbols (owner : Option String) (p : Place) : List Symbol :=
  match d.fieldText p "name" with
  | none => []
  | some name =>
      let v := visibility d p
      symbol d owner p name .enum v (some (typeSignature d p "enum" name v))
          (documentation d p) ::
        ((bodyChildren p).filter fun c => c.kind == "enum_variant").filterMap fun c =>
          (d.fieldText c "name").map fun variant =>
            symbol d (some (Text.qualify owner name "::")) c variant .field v none none

/-- A trait with its methods. -/
def traitSymbols (owner : Option String) (p : Place) : List Symbol :=
  match d.fieldText p "name" with
  | none => []
  | some name =>
      let v := visibility d p
      let bounds := (d.fieldText p "bounds").getD ""
      let qualified := Text.qualify owner name "::"
      symbol d owner p name .trait v (some (typeSignature d p "trait" name v ++ bounds))
          (documentation d p) ::
        (bodyChildren p).filterMap fun c =>
          match c.kind with
          | "function_item" => function? d (some qualified) .method c
          | "function_signature_item" => requiredMethod? d qualified c
          | _ => none

/-- A type alias, with its value if that is short. -/
def typeAlias? (owner : Option String) (p : Place) : Option Symbol := do
  let name ← d.fieldText p "name"
  let v := visibility d p
  let value := ((d.fieldText p "type").filter fun t => Text.size t ≤ 60).map (" = " ++ ·)
  some (symbol d owner p name .typeAlias v
    (some (typeSignature d p "type" name v ++ value.getD "")) (documentation d p))

/-- A constant or a static variable. -/
def value? (owner : Option String) (keyword : String) (kind : SymbolKind) (p : Place) :
    Option Symbol := do
  let name ← d.fieldText p "name"
  let v := visibility d p
  let type := ((d.fieldText p "type").map (": " ++ ·)).getD ""
  some (symbol d owner p name kind v
    (some (publicMark v ++ keyword ++ " " ++ name ++ type)) (documentation d p))

/-- A macro, which is always exported. -/
def macroSymbol? (owner : Option String) (p : Place) : Option Symbol := do
  let name ← d.fieldText p "name"
  some (d.symbol p name .function
    { qualifiedName := some (Text.qualify owner name "::")
      signature := some ("macro_rules! " ++ name)
      docstring := documentation d p
      isExported := some true
      parentName := owner })

/-- To whom the members of an implementation belong. -/
def implOwner? (p : Place) : Option String :=
  (d.fieldText p "type").map fun type =>
    match d.fieldText p "trait" with
    | some traitName => type ++ "::" ++ traitName
    | none => type

/-- The members of an implementation. -/
def implSymbols (p : Place) : List Symbol :=
  match implOwner? d p with
  | none => []
  | some owner =>
      (bodyChildren p).filterMap fun c =>
        match c.kind with
        | "function_item" => function? d (some owner) .method c
        | "type_item" => typeAlias? d (some owner) c
        | "const_item" => value? d (some owner) "const" .constant c
        | _ => none

/-- A module, and then its body. -/
def moduleSteps (s : Scope) (p : Place) : List (Step Scope Symbol) :=
  match d.fieldText p "name" with
  | none => []
  | some name =>
      let v := visibility d p
      .emit (symbol d s.name p name .module v (some (publicMark v ++ "mod " ++ name))
          (documentation d p)) ::
        Step.visit? (s.enter (Text.qualify s.name name "::")) (p.field? "body")

/-- What one child declares. -/
def childSteps (s : Scope) (c : Place) : List (Step Scope Symbol) :=
  match c.kind with
  | "function_item" => Step.emit? (function? d s.name .function c)
  | "struct_item" | "union_item" => Step.emitAll (structSymbols d s.name c)
  | "enum_item" => Step.emitAll (enumSymbols d s.name c)
  | "trait_item" => Step.emitAll (traitSymbols d s.name c)
  | "impl_item" => Step.emitAll (implSymbols d c)
  | "mod_item" => moduleSteps d s c
  | "type_item" => Step.emit? (typeAlias? d s.name c)
  | "const_item" => Step.emit? (value? d s.name "const" .constant c)
  | "static_item" => Step.emit? (value? d s.name "static" .variable c)
  | "macro_definition" => Step.emit? (macroSymbol? d s.name c)
  | _ => []

/-- The declarations among the children of a place. -/
def rule : Rule Scope Symbol := fun s p =>
  if d.tooDeep s.depth then [] else p.children.flatMap (childSteps d s)

/-- The declarations of a file. -/
def symbols (root : Place) : List Symbol :=
  (rule d).walk {} root

end SourceIndex.Declarations.Rust
