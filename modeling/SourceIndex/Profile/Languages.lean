import SourceIndex.Profile.Basic

/-!
# The profiles of languages
-/

/-!
## Kotlin

One kind of node declares classes, interfaces and enums, and a word among its children tells them
apart. Parameters of the primary constructor may be properties.
-/

namespace SourceIndex.Profile.Kotlin

/-- The rules of the language. -/
def rules : Rules :=
  Rules.ofLanguage "kotlin"

/-- What a node declares. -/
def declared? (p : Place) : Option SymbolKind :=
  match p.kind with
  | "object_declaration" => some .class
  | "class_declaration" =>
      if p.hasToken "interface" then some .interface
      else if p.hasChild "enum_class_body" || p.hasToken "enum" then some .enum
      else some .class
  | "function_declaration" =>
      some (if p.isBelow ["class_body", "enum_class_body"] then .method else .function)
  | _ => none

/-- Who sees a declaration; everybody, unless a modifier says otherwise. -/
def visibility (d : Document) (p : Place) : Visibility :=
  (modifierVisibility? d p).getD .public

/-- A parameter of the primary constructor with one of the words that make it a property. -/
def parameterProperty? (d : Document) (owner : String) (p : Place) : Option Symbol := do
  let word ← (p.children.filter fun c =>
    c.isOneOf ["binding_pattern_kind", "val", "var"]).getLast?
  let nameNode ← p.childOfAny? ["simple_identifier", "identifier"]
  let word := Text.trim (d.text word)
  let name := Text.trim (d.text nameNode)
  if ["val", "var"].contains word && !name.isEmpty then
    some (Rules.property d owner p name (some (word ++ " " ++ name)) (visibility d p) none)
  else
    none

/-- The properties in the body of a class, and then those of its primary constructor. -/
def properties (d : Document) (owner : String) (p : Place) : List Symbol :=
  let declared := ((Rules.body? p).map (rules.properties d owner)).getD []
  let constructor :=
    if p.kind == "class_declaration" then p.childOf? "primary_constructor" else none
  let parameters := ((constructor.map (Place.descendants 2)).getD []).filter fun q =>
    q.kind == "class_parameter"
  declared ++ parameters.filterMap (parameterProperty? d owner)

/-- The type that a specifier names; what it is delegated to does not count. -/
def delegationTarget? (d : Document) (p : Place) : Option String :=
  let rest := Text.trim (Text.beforeFirst "(" (Text.beforeFirst " by " (d.text p)))
  (Rules.clauseTarget? d p).or (if rest.isEmpty then none else some rest)

/-- A class inherits from what it constructs and implements the rest. Anything else inherits
only. -/
def delegation? (d : Document) (kind : SymbolKind) (owner : String) (p spec : Place) :
    Option Reference := do
  let target ← delegationTarget? d spec
  let constructs := (spec.descendantOfAny? ["constructor_invocation"] 3).isSome
  Rules.edge? d (if kind != .class || constructs then .inherits else .implements) p owner target

/-- What a class inherits from and implements. -/
def heritage (d : Document) (kind : SymbolKind) (owner : String) (p : Place) : List Reference :=
  if p.isOneOf ["class_declaration", "object_declaration"] then
    ((p.descendants 2).filter fun q => q.kind == "delegation_specifier").filterMap
      (delegation? d kind owner p)
  else
    rules.heritage d owner p

end Profile.Kotlin

/-- The profile of Kotlin. -/
def Profile.kotlin : Profile where
  endings := [".kt", ".kts"]
  declared? := Kotlin.declared?
  visibility := Kotlin.visibility
  properties := Kotlin.properties
  heritage := Kotlin.heritage

end SourceIndex

/-!
## Swift

One kind of node declares classes, structs, enums and extensions, and a word among its children
tells them apart. What says nothing about it is seen in its own module only.
-/

namespace SourceIndex.Profile.Swift

/-- What a node declares. -/
def declared? (p : Place) : Option SymbolKind :=
  match p.kind with
  | "protocol_declaration" => some .interface
  | "class_declaration" =>
      if p.hasToken "struct" then some .struct
      else if p.hasToken "enum" || p.hasChild "enum_class_body" then some .enum
      else some .class
  | "init_declaration" => some .constructor
  | "function_declaration" | "protocol_function_declaration" =>
      some (if p.isBelow ["class_body", "protocol_body", "enum_class_body"] then .method
        else .function)
  | _ => none

/-- Constructors all have one name. -/
def fixedName? (p : Place) : Option String :=
  if p.kind == "init_declaration" then some "init" else none

/-- Who sees a declaration. -/
def visibility (d : Document) (p : Place) : Visibility :=
  (modifierVisibility? d p).getD .internal

/-- The name of a property: its pattern, or else the first name below. -/
def propertyName? (d : Document) (p : Place) : Option String :=
  ((d.childText p "pattern").map Text.trim).or
    (((p.descendants d.limits.genericDepth.toNat).filter fun q =>
      q.isOneOf ["simple_identifier", "identifier"]).findSome? fun q =>
        (some (Text.trim (d.text q))).filter fun t => !t.isEmpty)

/-- The text of a string literal or of its content, if there is any. -/
def stringText? (d : Document) (p : Place) : Option String :=
  let text :=
    match p.kind with
    | "line_str_text" => Text.trim (d.text p)
    | "line_string_literal" | "multiline_string_literal" => Text.unquote (d.text p)
    | _ => ""
  if text.isEmpty then none else some text

/-- The literal that a property starts with, without quotes. -/
def initialLiteral (d : Document) (p : Place) : Option String :=
  ((Rules.literalBelow? d 2 p).map Text.unquote).or
    ((p.descendants d.limits.genericDepth.toNat).findSome? (stringText? d))

/-- A property, with the word that binds it. -/
def property? (d : Document) (owner : String) (p : Place) : Option Symbol :=
  (propertyName? d p).map fun name =>
    let word := Text.trim ((d.childText p "value_binding_pattern").getD "")
    let signature := if word.isEmpty then name else word ++ " " ++ name
    Rules.property d owner p name (some signature) (visibility d p) (initialLiteral d p)

/-- The properties in the body of a type. -/
def properties (d : Document) (owner : String) (p : Place) : List Symbol :=
  (((Rules.body? p).getD p).childrenOf "property_declaration").filterMap (property? d owner)

/-- The type that a specifier names. -/
def specifierTarget? (d : Document) (p : Place) : Option String :=
  let rest := Text.trim (Text.beforeFirst "<" (d.text p))
  (Rules.clauseTarget? d p).or (if rest.isEmpty then none else some rest)

/-- A class inherits from what it names first and implements the rest, a protocol inherits only,
and anything else implements only. -/
def heritage (d : Document) (kind : SymbolKind) (owner : String) (p : Place) : List Reference :=
  (p.childrenOf "inheritance_specifier").zipIdx.filterMap fun (spec, position) => do
    let target ← specifierTarget? d spec
    let inherits := kind == .interface || (kind == .class && position == 0)
    Rules.edge? d (if inherits then .inherits else .implements) p owner target

end Profile.Swift

/-- The profile of Swift. -/
def Profile.swift : Profile where
  endings := [".swift"]
  declared? := Swift.declared?
  fixedName? := Swift.fixedName?
  visibility := Swift.visibility
  properties := Swift.properties
  heritage := Swift.heritage

end SourceIndex

/-!
## Every language
-/

namespace SourceIndex.Profile

/-- The profile of a language: its own, or else the one that its rules give. -/
def ofLanguage (language : String) : Profile :=
  match language with
  | "kotlin" => kotlin
  | "swift" => swift
  | _ => ofRules (.ofLanguage language)

end SourceIndex.Profile
