import SourceIndex.Declarations.ECMAScript

/-!
# Declarations of TypeScript

Interfaces, type aliases, enums and namespaces, which TypeScript adds to ECMAScript.
-/

namespace SourceIndex.Declarations.TypeScript

open SourceIndex.Idiom.ECMAScript
open SourceIndex.Declarations.ECMAScript

variable (d : Document)

/-- A member of an interface. -/
def interfaceMember? (owner : String) (p : Place) : Option Symbol := do
  let name ← d.fieldText p "name"
  match p.kind with
  | "method_signature" =>
      some (symbolIn d (some owner) p name .method
        { signature := some (name ++ parameters d (p.field? "parameters") ++ returnType d p) })
  | "property_signature" =>
      some (symbolIn d (some owner) p name .property
        { signature := some (name ++ declaredType d p) })
  | _ => none

/-- The children of the body of a declaration. -/
def bodyChildren (p : Place) : List Place :=
  ((p.field? "body").map Place.children).getD []

/-- An interface with its members. -/
def interfaceSymbols (s : Setting) (p : Place) : List Symbol :=
  match d.fieldText p "name" with
  | none => []
  | some name =>
      let bases := ((p.childOf? "extends_type_clause").map fun e => " " ++ d.text e).getD ""
      symbolIn d s.name p name .interface
          { signature := some ("interface " ++ withTypeParameters d p name ++ bases)
            docstring := documentation d p
            isExported := some s.exported } ::
        (bodyChildren p).filterMap (interfaceMember? d (Text.qualify s.name name "."))

/-- A type alias, with its value if that is short. -/
def typeAlias? (s : Setting) (p : Place) : Option Symbol := do
  let name ← d.fieldText p "name"
  let value := ((d.fieldText p "value").filter fun v => Text.size v ≤ 80).map (" = " ++ ·)
  some (symbolIn d s.name p name .typeAlias
    { signature := some ("type " ++ withTypeParameters d p name ++ value.getD "")
      docstring := documentation d p
      isExported := some s.exported })

/-- A member of an enum. -/
def enumMember? (owner : String) (p : Place) : Option Symbol :=
  match p.kind with
  | "property_identifier" => some (symbolIn d (some owner) p (d.text p) .field {})
  | "enum_assignment" =>
      p.namedChildren.head?.map fun n =>
        symbolIn d (some owner) p (d.text n) .field { defaultValue := d.fieldText p "value" }
  | _ => none

/-- An enum with its members. -/
def enumSymbols (s : Setting) (p : Place) : List Symbol :=
  match d.fieldText p "name" with
  | none => []
  | some name =>
      let mark := if p.hasToken "const" then "const " else ""
      symbolIn d s.name p name .enum
          { signature := some (mark ++ "enum " ++ name)
            docstring := documentation d p
            isExported := some s.exported } ::
        (bodyChildren p).filterMap (enumMember? d (Text.qualify s.name name "."))

/-- A namespace, and then its body, from which nothing is exported that does not say so. -/
def namespaceSteps (s : Setting) (p : Place) : List (Step Setting Symbol) :=
  match d.fieldText p "name" with
  | none => []
  | some name =>
      let keyword := if p.kind == "module" then "module " else "namespace "
      .emit (symbolIn d s.name p name .module
          { signature := some (keyword ++ name)
            docstring := documentation d p
            isExported := some s.exported }) ::
        Step.visit? { name := some (Text.qualify s.name name "."), depth := 1 } (p.field? "body")

/-- The declarations that TypeScript adds. A namespace may stand inside a statement. -/
def typescript : Dialect := fun d s p =>
  match p.kind with
  | "interface_declaration" => some (Step.emitAll (interfaceSymbols d s p))
  | "type_alias_declaration" => some (Step.emit? (typeAlias? d s p))
  | "enum_declaration" => some (Step.emitAll (enumSymbols d s p))
  | "internal_module" | "module" => some (namespaceSteps d s p)
  | "expression_statement" => (p.childOf? "internal_module").map (namespaceSteps d s)
  | _ => none

end SourceIndex.Declarations.TypeScript
