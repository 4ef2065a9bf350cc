import SourceIndex.Idiom.CSharp
import SourceIndex.Tree.Walk

/-!
# Declarations of C#

Namespaces, types, their members, and the functions inside the bodies of members.
-/

namespace SourceIndex.Declarations.CSharp

open SourceIndex.Idiom.CSharp

variable (d : Document)

/-- What to look for at a place: the declarations among its children, or the functions declared
somewhere inside it. -/
inductive Task where
  | inside (scope : Scope) (around : Enclosure)
  | functions (scope : Scope)

/-- A member of a scope. -/
def member (owner : Option String) (p : Place) (name : String) (kind : SymbolKind)
    (signature : String) (visibility : Visibility) : Symbol :=
  d.symbol p name kind
    { qualifiedName := some (Text.qualify owner name ".")
      signature := some signature
      docstring := documentation d p
      visibility := some visibility
      isExported := some (visibility == .public)
      parentName := owner }

/-- The functions in the body of a member. -/
def functionSteps (s : Scope) (p : Place) (name : String) : List (Step Task Symbol) :=
  Step.visit? (.functions (s.enter (Text.qualify s.name name "."))) (p.field? "body")

/-- The word of a modifier with a blank after it, if the declaration has the modifier. -/
def modifierWord (p : Place) (word : String) : String :=
  if hasModifier d p word then word ++ " " else ""

/-- The parameters in parentheses. -/
def parameters (p : Place) : String :=
  "(" ++ d.paramsText (p.field? "parameters") ++ ")"

/-- The name of a callable with its type parameters, parameters and constraints. -/
def callable (p : Place) (name : String) : String :=
  name ++ typeParameters d p ++ parameters d p ++ constraints d p

/-- The type of a member; empty if there is none. -/
def typeText (p : Place) : String :=
  (d.fieldText p "type").getD ""

/-- The base types of a type after a blank. -/
def bases (p : Place) : String :=
  ((p.childOf? "base_list").map fun b => " " ++ d.text b).getD ""

/-- A namespace, and then its body. -/
def namespaceSteps (s : Scope) (p : Place) : List (Step Task Symbol) :=
  match namespaceName d p with
  | none => []
  | some name =>
      let qualified := Text.qualify s.name name "."
      [.emit (d.symbol p name .module
          { qualifiedName := some qualified, signature := some ("namespace " ++ name) }),
        .visit (.inside (s.enter qualified) .space) ((p.field? "body").getD p)]

/-- The constructor that the parameters after the name of a type declare. -/
def primaryConstructor? (qualified name : String) (visibility : Visibility) (p : Place) :
    Option Symbol :=
  (p.childOf? "parameter_list").map fun list =>
    let line := d.startLine p
    Symbol.ofDetails name .constructor line line
      { qualifiedName := some (qualified ++ "." ++ name)
        signature := some (name ++ "(" ++ d.paramsText (some list) ++ ")")
        visibility := some visibility
        isExported := some (visibility == .public)
        parentName := some qualified }

/-- A class, interface, struct or record, and then its body. A type for one file only is not
exported. -/
def typeSteps (s : Scope) (around : Enclosure) (kind : SymbolKind) (keyword : String)
    (p : Place) : List (Step Task Symbol) :=
  match d.fieldText p "name" with
  | none => []
  | some name =>
      let visibility := visibility d p around
      let words := typeModifiers d p
      let qualified := Text.qualify s.name name "."
      let signature := String.join
        [" ".intercalate (words ++ [keyword, name]), typeParameters d p, bases d p,
          constraints d p]
      let symbol := member d s.name p name kind signature visibility
      let inner : Enclosure := if kind == .interface then .interface else .type
      .emit { symbol with isExported := symbol.isExported && !words.contains "file" } ::
        (Step.emit? (primaryConstructor? d qualified name visibility p) ++
          Step.visit? (.inside (s.enter qualified) inner) (p.field? "body"))

/-- A record, which is a class unless it says that it is a struct. -/
def recordSteps (s : Scope) (around : Enclosure) (p : Place) : List (Step Task Symbol) :=
  if p.hasChild "struct" then typeSteps d s around .struct "record struct" p
  else typeSteps d s around .class "record" p

/-- An enum and its members. -/
def enumSymbols (owner : Option String) (around : Enclosure) (p : Place) : List Symbol :=
  match d.fieldText p "name" with
  | none => []
  | some name =>
      let visibility := visibility d p around
      let qualified := Text.qualify owner name "."
      let members := ((p.field? "body").map fun b => b.childrenOf "enum_member_declaration").getD []
      member d owner p name .enum ("enum " ++ name ++ bases d p) visibility ::
        members.filterMap fun m =>
          ((d.fieldText m "name").or (d.childText m "identifier")).map fun constant =>
            d.symbol m constant .constant
              { qualifiedName := some (qualified ++ "." ++ constant)
                isExported := some (visibility == .public)
                parentName := some qualified
                defaultValue := d.fieldText m "value" }

/-- A method or a function inside one, and then the functions in its body. -/
def methodSteps (s : Scope) (visibility : Visibility) (result : Option String) (p : Place) :
    List (Step Task Symbol) :=
  match d.fieldText p "name" with
  | none => []
  | some name =>
      let signature := String.join
        [modifierWord d p "static", modifierWord d p "async", (result.map (· ++ " ")).getD "",
          callable d p name]
      .emit (member d s.name p name .method signature visibility) :: functionSteps s p name

/-- A function inside a member, which only the member sees. -/
def localFunctionSteps (s : Scope) (p : Place) : List (Step Task Symbol) :=
  methodSteps d s .private (d.fieldText p "type") p

/-- One variable of a declaration: its name, its type and where it stands. -/
structure Declarator where
  name : String
  type : String
  place : Place

/-- The variables of a declaration. -/
def declarators (p : Place) : List Declarator :=
  (p.childrenOf "variable_declaration").flatMap fun declaration =>
    (declaration.childrenOf "variable_declarator").filterMap fun v =>
      ((d.fieldText v "name").or (d.text? (v.childOf? "identifier"))).map fun name =>
        { name, type := typeText d declaration, place := v }

/-- The literal that a variable starts with. -/
def initialLiteral (v : Place) : Option String :=
  d.text? ((v.descendants 2).find? fun q => Text.endsWith "_literal" q.kind)

/-- The fields of a declaration; those that never change are constants. -/
def fields (owner : Option String) (around : Enclosure) (p : Place) : List Symbol :=
  let isFixed := hasModifier d p "const" || (hasModifier d p "static" && hasModifier d p "readonly")
  let words := String.join (["static", "readonly", "const"].map (modifierWord d p))
  (declarators d p).map fun v =>
    { member d owner p v.name (if isFixed then .constant else .field)
        (words ++ v.type ++ " " ++ v.name) (visibility d p around) with
      defaultValue := initialLiteral d v.place }

/-- The events of a declaration that has the form of a field. -/
def eventFields (owner : Option String) (around : Enclosure) (p : Place) : List Symbol :=
  (declarators d p).map fun v =>
    member d owner p v.name .event
      (modifierWord d p "static" ++ "event " ++ v.type ++ " " ++ v.name) (visibility d p around)

/-- The name of a member that has neither a body of declarations nor functions inside, with its
kind and signature. -/
def plainMember? (p : Place) : Option (String × SymbolKind × String) :=
  match p.kind with
  | "property_declaration" =>
      (d.fieldText p "name").map fun name =>
        (name, .property, String.join
          [modifierWord d p "static", modifierWord d p "required", typeText d p, " ", name,
            accessors d p])
  | "indexer_declaration" =>
      some ("this", .property,
        typeText d p ++ " this" ++ (d.fieldText p "parameters").getD "[]" ++ accessors d p)
  | "event_declaration" =>
      (d.fieldText p "name").map fun name =>
        (name, .event, modifierWord d p "static" ++ "event " ++ typeText d p ++ " " ++ name)
  | "delegate_declaration" =>
      (d.fieldText p "name").map fun name =>
        (name, .delegate, "delegate " ++ ((d.fieldText p "type").map (· ++ " ")).getD "" ++
          callable d p name)
  | "operator_declaration" =>
      (d.fieldText p "operator").map fun op =>
        ("operator" ++ op, .method,
          "static " ++ typeText d p ++ " operator " ++ op ++ parameters d p)
  | "conversion_operator_declaration" =>
      (d.fieldText p "type").map fun type =>
        let conversion := if p.hasChild "implicit" then "implicit" else "explicit"
        ("operator " ++ type, .method,
          "static " ++ conversion ++ " operator " ++ type ++ parameters d p)
  | _ => none

/-- A destructor, which nobody else sees. -/
def destructor? (owner : Option String) (p : Place) : Option Symbol :=
  (d.fieldText p "name").map fun name =>
    member d owner p ("~" ++ name) .method ("~" ++ name ++ "()") .private

/-- A constructor, and then the functions in its body. -/
def constructorSteps (s : Scope) (around : Enclosure) (p : Place) : List (Step Task Symbol) :=
  match d.fieldText p "name" with
  | none => []
  | some name =>
      .emit (member d s.name p name .constructor (name ++ parameters d p)
          (visibility d p around)) ::
        functionSteps s p name

/-- What one child declares. -/
def childSteps (s : Scope) (around : Enclosure) (c : Place) : List (Step Task Symbol) :=
  match c.kind with
  | "namespace_declaration" | "file_scoped_namespace_declaration" => namespaceSteps d s c
  | "class_declaration" => typeSteps d s around .class "class" c
  | "interface_declaration" => typeSteps d s around .interface "interface" c
  | "struct_declaration" => typeSteps d s around .struct "struct" c
  | "record_declaration" => recordSteps d s around c
  | "enum_declaration" => Step.emitAll (enumSymbols d s.name around c)
  | "method_declaration" =>
      methodSteps d s (visibility d c around)
        ((d.fieldText c "returns").or (d.fieldText c "type")) c
  | "local_function_statement" => localFunctionSteps d s c
  | "constructor_declaration" => constructorSteps d s around c
  | "destructor_declaration" => Step.emit? (destructor? d s.name c)
  | "field_declaration" => Step.emitAll (fields d s.name around c)
  | "event_field_declaration" => Step.emitAll (eventFields d s.name around c)
  | _ =>
      Step.emit? ((plainMember? d c).map fun (name, kind, signature) =>
        member d s.name c name kind signature (visibility d c around))

/-- The functions that one child is or holds. -/
def functionSearchSteps (s : Scope) (c : Place) : List (Step Task Symbol) :=
  if c.kind == "local_function_statement" then localFunctionSteps d s c
  else if c.isNamed then [.visit (.functions s.deeper) c]
  else []

/-- The qualified name of a file-wide namespace after another one, in a scope. -/
def fileSpace (scope : Option String) (before : Option String) (p : Place) : Option String :=
  (namespaceName d p).map fun name => Text.qualify (before.or scope) name "."

/-- The declarations at a place. -/
def rule : Rule Task Symbol
  | .inside s around, p =>
      if d.tooDeep s.depth then
        []
      else
        (withFileSpace (fileSpace d s.name) none p.children).flatMap fun (space, c) =>
          childSteps d { s with name := space.or s.name } around c
  | .functions s, p =>
      if d.tooDeep s.depth then [] else p.children.flatMap (functionSearchSteps d s)

/-- The declarations of a file. -/
def symbols (root : Place) : List Symbol :=
  (rule d).walk (.inside {} .space) root

end SourceIndex.Declarations.CSharp
