import SourceIndex.Declarations.C
import SourceIndex.Idiom.ObjC

/-!
# Declarations of Objective-C

Interfaces, implementations and protocols with their methods, properties and instance variables,
which Objective-C adds to C.
-/

namespace SourceIndex.Declarations.ObjC

open SourceIndex.Idiom.ObjC
open SourceIndex.Idiom.C (declaratorName documentation)

variable (d : Document)

/-- The type that a method returns. -/
def returnType (p : Place) : String :=
  (((p.childOf? "method_type").bind fun t => t.childOf? "type_name").map d.text).getD "void"

/-- A method of a class. One that is only declared can be seen from outside. -/
def method? (owner : String) (declared : Bool) (p : Place) : Option Symbol := do
  let selector ← selector d p
  let mark := if p.children.any fun c => d.text c == "+" then "+" else "-"
  some (d.symbol p selector .method
    { qualifiedName := some (owner ++ "." ++ selector)
      signature := some (mark ++ " (" ++ returnType d p ++ ")" ++ selector)
      isExported := some declared
      parentName := some owner })

/-- The name that a declarator declares, or else the first name that stands in it. -/
def firstName (p : Place) : Option String :=
  (declaratorName d p).or
    ((p.descendantOfAny? ["field_identifier", "identifier"] 8).map d.text)

/-- The names that the declarations in a place declare, with their declarations. -/
def declaredNames (p : Place) : List (Place × String) :=
  (p.childrenOf "struct_declaration").flatMap fun declaration =>
    (declaration.childrenOf "struct_declarator").filterMap fun c =>
      (firstName d c).map fun name => (declaration, name)

/-- The properties of one declaration. -/
def properties (owner : String) (p : Place) : List Symbol :=
  let declared := Text.trim (Text.beforeFirst ";" (d.text p))
  let declared := Text.trim (Text.dropPrefix "@property" declared)
  (declaredNames d p).map fun (_, name) =>
    d.symbol p name .property
      { qualifiedName := some (owner ++ "." ++ name)
        signature := some ("@property " ++ declared)
        parentName := some owner }

/-- The instance variables of a class. -/
def instanceVariables (owner : String) (p : Place) : List Symbol :=
  ((p.childrenOf "instance_variable").flatMap (declaredNames d)).map fun (declaration, name) =>
    d.symbol declaration name .field
      { qualifiedName := some (owner ++ "." ++ name)
        visibility := some .protected
        isExported := some false
        parentName := some owner }

/-- An interface with its members. -/
def interfaceSymbols (p : Place) : List Symbol :=
  match className d p with
  | none => []
  | some name =>
      let base := ((superclassName d p).map (" : " ++ ·)).getD ""
      let protocols := protocolNames d p
      let adopted := if protocols.isEmpty then "" else " <" ++ ", ".intercalate protocols ++ ">"
      d.symbol p name .class
          { signature := some ("@interface " ++ name ++ base ++ adopted)
            docstring := documentation d p } ::
        p.children.flatMap fun c =>
          match c.kind with
          | "method_declaration" => (method? d name true c).toList
          | "property_declaration" => properties d name c
          | "instance_variables" => instanceVariables d name c
          | _ => []

/-- An implementation with its members. -/
def implementationSymbols (p : Place) : List Symbol :=
  match className d p with
  | none => []
  | some name =>
      d.symbol p name .class
          { signature := some ("@implementation " ++ name), isExported := some false } ::
        p.children.flatMap fun c =>
          match c.kind with
          | "implementation_definition" =>
              (c.childrenOf "method_definition").filterMap (method? d name false)
          | "method_definition" => (method? d name false c).toList
          | "instance_variables" => instanceVariables d name c
          | _ => []

/-- A protocol with its methods. -/
def protocolSymbols (p : Place) : List Symbol :=
  match (p.childOf? "identifier").map d.text with
  | none => []
  | some name =>
      d.symbol p name .interface
          { signature := some ("@protocol " ++ name), docstring := documentation d p } ::
        (p.childrenOf "method_declaration").filterMap (method? d name true)

/-- Objective-C as a dialect of C. -/
def dialect : C.Dialect where
  cpp := false
  extra := fun d p =>
    match p.kind with
    | "class_interface" => some (interfaceSymbols d p)
    | "class_implementation" => some (implementationSymbols d p)
    | "protocol_declaration" => some (protocolSymbols d p)
    | _ => none

end SourceIndex.Declarations.ObjC
