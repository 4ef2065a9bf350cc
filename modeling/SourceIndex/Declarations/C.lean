import SourceIndex.Idiom.C
import SourceIndex.Tree.Walk

/-!
# Declarations of C and C++

Functions, prototypes, variables, records with their members, enums, typedefs and namespaces. A
dialect may know further declarations, which come first.
-/

namespace SourceIndex.Declarations.C

open SourceIndex.Idiom.C

/-- Rules in which the languages of the family differ. -/
structure Dialect where
  /-- Do records have member functions, and may functions be defined outside their class? -/
  cpp : Bool
  /-- Further declarations: the symbols of a place that holds some. -/
  extra : Document → Place → Option (List Symbol) := fun _ _ => none

/-- What to look for at a place: the declarations among its children, or the members of the record
that is the scope, with the access that holds at first. -/
inductive Task where
  | inside (scope : Scope)
  | members (scope : Scope) (access : Visibility)

variable (dialect : Dialect) (d : Document)

/-- Does the file export its declarations? -/
def exports : Bool :=
  isHeader d.path

/-- A symbol in a scope. -/
def symbolIn (owner : Option String) (p : Place) (name : String) (kind : SymbolKind)
    (details : Symbol.Details) : Symbol :=
  d.symbol p name kind
    { details with
      qualifiedName := some (Text.qualify owner name "::")
      parentName := owner }

/-- Visibility and export of a declaration: members have the access of their place, and at file
level `static` hides. -/
def linkage (p : Place) (access : Option Visibility) : Visibility × Bool :=
  match access with
  | some v => (v, exports d && v == .public)
  | none => if isStatic d p then (.private, false) else (.public, exports d)

/-- Type, name and parameters of a function. -/
def callSignature (type name params : String) : String :=
  Text.trim (type ++ " " ++ name ++ "(" ++ params ++ ")")

/-- To whom a function belongs, and its own name. A function that C++ defines outside its class
belongs to that class. -/
def functionOwner (owner : Option String) (name : String) : Option String × String :=
  match Text.splitLast? "::" name with
  | some (path, short) =>
      if dialect.cpp && !path.isEmpty then (some (Text.qualify owner path "::"), short)
      else (owner, name)
  | none => (owner, name)

/-- A function, or a method if it belongs to a class. -/
def functionSymbol (owner : Option String) (access : Option Visibility) (p : Place)
    (type name params : String) : Symbol :=
  let (realOwner, short) := functionOwner dialect owner name
  let isMethod := access.isSome || (realOwner.isSome && realOwner != owner)
  let (visibility, exported) := linkage d p access
  symbolIn d realOwner p short (if isMethod then .method else .function)
    { signature := some (callSignature type name params)
      docstring := documentation d p
      visibility := some visibility
      isExported := some exported }

/-- The type of a declaration as text, empty if it has none. -/
def typeText (p : Place) : String :=
  (d.fieldText p "type").getD ""

/-- The definition of a function. -/
def function? (owner : Option String) (access : Option Visibility) (p : Place) :
    Option Symbol := do
  let (name, params) ← functionParts d (← p.field? "declarator")
  some (functionSymbol dialect d owner access p (typeText d p) name params)

/-- The literal that a variable starts with, if it is short enough to keep. -/
def initialLiteral (p : Place) : Option String :=
  (((p.field? "value").filter fun v => v.isOneOf literalKinds).map d.text).filter fun v =>
    Text.size v ≤ d.limits.literalSize.toNat

/-- What one declarator of a declaration declares: a function, or a variable of its type. -/
def declared? (owner : Option String) (access : Option Visibility) (p c : Place) :
    Option Symbol :=
  let type := typeText d p
  if declaresFunction c then
    (functionParts d c).map fun (name, params) =>
      functionSymbol dialect d owner access p type name params
  else if c.isOneOf ["init_declarator", "identifier", "pointer_declarator", "array_declarator"] then
    ((declaratorName d c).filter fun _ => !type.isEmpty).map fun name =>
      let (visibility, exported) := linkage d p access
      symbolIn d owner p name (if isConst d p then .constant else .variable)
        { signature := some (type ++ " " ++ name)
          visibility := some visibility
          isExported := some exported
          defaultValue := initialLiteral d c }
  else
    none

/-- The prototypes and variables of a declaration. -/
def declaration (owner : Option String) (access : Option Visibility) (p : Place) : List Symbol :=
  p.children.filterMap (declared? dialect d owner access p)

/-- What one declarator of a field declaration declares. -/
def field? (owner : String) (access : Visibility) (p c : Place) : Option Symbol :=
  let type := typeText d p
  if declaresFunction c then
    (functionParts d c).map fun (name, params) =>
      functionSymbol dialect d (some owner) (some access) p type name params
  else if c.isOneOf ["field_identifier", "pointer_declarator", "array_declarator"] then
    (declaratorName d c).map fun name =>
      symbolIn d (some owner) p name .field
        { signature := some (type ++ " " ++ name)
          visibility := some access
          isExported := some (exports d && access == .public) }
  else
    none

/-- The word that opens the declaration of a record. -/
def recordKeyword (kind : String) : String :=
  match kind with
  | "class_specifier" => "class"
  | "union_specifier" => "union"
  | _ => "struct"

/-- A record, and then its members. Those of a class are private at first. -/
def recordSteps (s : Scope) (p : Place) : List (Step Task Symbol) :=
  match d.fieldText p "name" with
  | none => []
  | some name =>
      let isClass := p.kind == "class_specifier"
      let bases := ((p.childOf? "base_class_clause").map fun b => " " ++ d.text b).getD ""
      .emit (symbolIn d s.name p name (if isClass then .class else .struct)
          { signature := some (recordKeyword p.kind ++ " " ++ name ++ bases)
            docstring := documentation d p
            isExported := some (exports d) }) ::
        Step.visit? (.members (s.enter (Text.qualify s.name name "::"))
          (if isClass then .private else .public)) (p.field? "body")

/-- The enumerators of an enum of a name. -/
def enumerators (qualified : String) (p : Place) : List Symbol :=
  match p.field? "body" with
  | none => []
  | some body =>
      (body.childrenOf "enumerator").filterMap fun e =>
        (d.fieldText e "name").map fun name =>
          symbolIn d (some qualified) e name .constant
            { isExported := some (exports d), defaultValue := d.fieldText e "value" }

/-- An enum with its enumerators. -/
def enumSymbols (owner : Option String) (p : Place) : List Symbol :=
  match d.fieldText p "name" with
  | none => []
  | some name =>
      symbolIn d owner p name .enum
          { signature := some ("enum " ++ name)
            docstring := documentation d p
            isExported := some (exports d) } ::
        enumerators d (Text.qualify owner name "::") p

/-- The name that a typedef defines. -/
def typedefName (p : Place) : Option String :=
  ((p.field? "declarator").bind (declaratorName d)).or
    (((p.childrenOf "type_identifier").getLast?).map d.text)

/-- A word without copies of an ending. -/
def dropEndings (ending : String) : Nat → String → String
  | 0, word => word
  | n + 1, word =>
      match Text.dropSuffix? ending word with
      | some rest => dropEndings ending n rest
      | none => word

/-- The type of a typedef as text; of a type with a body only its keyword and its tag. -/
def typedefType (type : Option Place) : String :=
  match type with
  | none => ""
  | some t =>
      if (t.field? "body").isSome then
        let keyword := dropEndings "_specifier" t.kind.length t.kind
        match d.fieldText t "name" with
        | some tag => keyword ++ " " ++ tag
        | none => keyword
      else
        d.text t

/-- What the type of a typedef declares besides. The members of a type without a tag belong to the
name that is defined. -/
def typedefBodySteps (s : Scope) (name : String) (t : Place) : List (Step Task Symbol) :=
  let tagged := (t.field? "name").isSome
  match t.field? "body", t.kind with
  | some body, "struct_specifier" | some body, "union_specifier" =>
      if tagged then
        recordSteps d s.deeper t
      else
        [.visit (.members (s.enter (Text.qualify s.name name "::")) .public) body]
  | some _, "enum_specifier" =>
      if tagged then Step.emitAll (enumSymbols d s.name t)
      else Step.emitAll (enumerators d (Text.qualify s.name name "::") t)
  | _, _ => []

/-- A typedef, and then what its type declares. -/
def typedefSteps (s : Scope) (p : Place) : List (Step Task Symbol) :=
  match typedefName d p with
  | none => []
  | some name =>
      let type := p.field? "type"
      let signature := Text.replace "  " " " ("typedef " ++ typedefType d type ++ " " ++ name)
      .emit (symbolIn d s.name p name .typeAlias
          { signature := some signature
            docstring := documentation d p
            isExported := some (exports d) }) ::
        (type.map (typedefBodySteps d s name)).getD []

/-- A namespace, and then its body; one without a name adds nothing to the scope. -/
def namespaceSteps (s : Scope) (p : Place) : List (Step Task Symbol) :=
  let name := d.fieldText p "name"
  Step.emit? (name.map fun name =>
      symbolIn d s.name p name .module { signature := some ("namespace " ++ name) }) ++
    Step.visit? (.inside (s.enter? (name.map fun name => Text.qualify s.name name "::")))
      (p.field? "body")

/-- The kinds of places that only hold declarations. -/
def containerKinds : List String :=
  ["template_declaration", "linkage_specification", "declaration_list", "preproc_if",
    "preproc_ifdef", "preproc_else", "preproc_elif"]

/-- What one child declares. -/
def childSteps (s : Scope) (c : Place) : List (Step Task Symbol) :=
  match c.kind with
  | "function_definition" => Step.emit? (function? dialect d s.name none c)
  | "declaration" => Step.emitAll (declaration dialect d s.name none c)
  | "struct_specifier" | "union_specifier" | "class_specifier" => recordSteps d s c
  | "enum_specifier" => Step.emitAll (enumSymbols d s.name c)
  | "type_definition" => typedefSteps d s c
  | "namespace_definition" => namespaceSteps d s c
  | kind => if containerKinds.contains kind then [.visit (.inside s.deeper) c] else []

/-- The members of a body, each with the access that holds for it. -/
def withAccess (access : Visibility) : List Place → List (Visibility × Place)
  | [] => []
  | m :: rest =>
      let access :=
        if m.kind == "access_specifier" then
          (Visibility.ofModifier? (Text.trim (Text.trimEndChar ':' (d.text m)))).getD access
        else
          access
      (access, m) :: withAccess access rest

/-- What one member of a record declares. -/
def memberSteps (s : Scope) (access : Visibility) (m : Place) : List (Step Task Symbol) :=
  let owner := s.name.getD ""
  match m.kind with
  | "field_declaration" =>
      Step.emitAll (m.children.filterMap (field? dialect d owner access m))
  | "function_definition" =>
      if dialect.cpp then Step.emit? (function? dialect d s.name (some access) m) else []
  | "declaration" =>
      if dialect.cpp then Step.emitAll (declaration dialect d s.name (some access) m) else []
  | "template_declaration" => [.visit (.members s.deeper access) m]
  | "struct_specifier" | "union_specifier" | "class_specifier" => recordSteps d s.deeper m
  | "enum_specifier" => Step.emitAll (enumSymbols d s.name m)
  | _ => []

/-- The declarations at a place. -/
def rule : Rule Task Symbol
  | .inside s, p =>
      if d.tooDeep s.depth then
        []
      else
        p.children.flatMap fun c =>
          ((dialect.extra d c).map Step.emitAll).getD (childSteps dialect d s c)
  | .members s access, p =>
      if d.tooDeep s.depth then
        []
      else
        (withAccess d access p.children).flatMap fun (access, m) =>
          memberSteps dialect d s access m

/-- The declarations of a file. -/
def symbols (root : Place) : List Symbol :=
  (rule dialect d).walk (.inside {}) root

/-- C. -/
def c : Dialect where
  cpp := false

/-- C++. -/
def cpp : Dialect where
  cpp := true

end SourceIndex.Declarations.C
