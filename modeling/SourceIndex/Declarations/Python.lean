import SourceIndex.Document
import SourceIndex.Text.Word
import SourceIndex.Tree.Walk

/-!
# Declarations of Python

Classes, functions, methods, and the assignments of modules and class bodies. An `__init__` also
declares the attributes that it assigns to `self`; of several assignments to one attribute the
first counts.
-/

/-! ## Strings and docstrings -/

namespace SourceIndex.Idiom.Python

/-- The quotes of a string, the longer ones first. -/
def quotes : List String :=
  ["\"\"\"", "'''", "\"", "'"]

/-- The text between two copies of a quote. -/
def between? (quote text : String) : Option String :=
  (Text.dropPrefix? quote text).bind (Text.dropSuffix? quote)

/-- The content of a string without its quotes and the blanks around it. -/
def stringContent (d : Document) (p : Place) : String :=
  match p.childOf? "string_content" with
  | some c => Text.trim (d.text c)
  | none =>
      let text := d.text p
      ((quotes.findSome? fun q => between? q text).map Text.trim).getD text

/-- The docstring of a definition: the string that comes first in its body, comments aside. -/
def docstring (d : Document) (p : Place) : Option String := do
  let body ← p.field? "body"
  let first ← body.children.find? fun c => c.kind != "comment"
  match first.kind with
  | "expression_statement" => (first.childOf? "string").map (stringContent d)
  | "string" => some (stringContent d first)
  | _ => none

end SourceIndex.Idiom.Python

/-! ## Declarations -/

namespace SourceIndex.Declarations.Python

open SourceIndex.Idiom.Python

variable (d : Document)

/-- A declaration, or an attribute that counts only if its class has no such property yet. -/
inductive Found where
  | declared (symbol : Symbol)
  | attribute (symbol : Symbol)

/-- The declarations, with attributes only where they are new; `seen` holds the owners and names
of the properties before. -/
def settleFrom (seen : List (Option String × String)) : List Found → List Symbol
  | [] => []
  | .declared s :: rest =>
      s :: settleFrom (if s.kind == .property then (s.parentName, s.name) :: seen else seen) rest
  | .attribute s :: rest =>
      if seen.contains (s.parentName, s.name) then
        settleFrom seen rest
      else
        s :: settleFrom ((s.parentName, s.name) :: seen) rest

/-- The assignments that a statement at module level consists of. -/
def assignmentsOf (p : Place) : List Place :=
  match p.kind with
  | "assignment" => [p]
  | "expression_statement" => p.childrenOf "assignment"
  | _ => []

/-- The strings of a list; no other form of `__all__` lists a name. -/
def listedNames (p : Place) : List String :=
  if p.kind == "list" then
    ((p.childrenOf "string").map (stringContent d)).filter fun s => !s.isEmpty
  else
    []

/-- The names that the first assignment to `__all__` lists, if there is one. -/
def exportList (root : Place) : Option (List String) :=
  (root.children.flatMap assignmentsOf).findSome? fun a => do
    let left ← a.field? "left"
    let right ← a.field? "right"
    if d.text left == "__all__" then some (listedNames d right) else none

/-- A leading underscore makes a name private. -/
def visibility (name : String) : Visibility :=
  if Text.startsWith "_" name then .private else .public

/-- A name is exported if it is listed, or, without a list, if it is not private. -/
def isExported (exports : Option (List String)) (name : String) : Bool :=
  match exports with
  | some names => names.contains name
  | none => !Text.startsWith "_" name

/-- Has the name a letter, but no lower-case one? -/
def isUpperName (name : String) : Bool :=
  name.toList.any Text.isAlphabetic && !name.toList.any Text.isLowercase

/-- A signature below the lines of its decorators. -/
def withDecorators (outer : Place) (signature : String) : String :=
  "\n".intercalate ((outer.childrenOf "decorator").map d.text ++ [signature])

/-- Does the text write a number, after minus signs? -/
def isSignedNumber (text : String) : Bool :=
  let digits := (Text.replace "." "" (Text.trim (Text.trimStartChar '-' text))).toList
  !digits.isEmpty && digits.all Char.isDigit

/-- The text of a literal that is kept as a default value. -/
def literal (p : Place) : Option String :=
  let text := d.text p
  match p.kind with
  | "string" | "integer" | "float" | "true" | "false" | "none" | "concatenated_string" =>
      if Text.size text ≤ d.limits.literalSize.toNat then some text else none
  | "unary_operator" => if isSignedNumber text then some text else none
  | "list" | "tuple" | "dictionary" => if Text.size text ≤ 80 then some text else none
  | _ => none

/-- A property of a class. -/
def property (owner : String) (p : Place) (name : String) : Symbol :=
  d.symbol p name .property
    { qualifiedName := some (Text.qualify (some owner) name ".")
      visibility := some (visibility name)
      parentName := some owner
      defaultValue := (p.field? "right").bind (literal d) }

/-- Does a definition stand between a place and an outer one that it is in? -/
def isInInnerDefinition (outer p : Place) : Bool :=
  (p.ancestors.takeWhile fun q => q.level != outer.level).any fun q =>
    q.isOneOf ["function_definition", "class_definition", "lambda"]

/-- The attribute of `self` to which an assignment assigns. -/
def selfAttribute? (p : Place) : Option String := do
  let left ← p.field? "left"
  if left.kind != "attribute" then none
  if (left.field? "object").map d.text != some "self" then none
  d.fieldText left "attribute"

/-- The attributes that an `__init__` assigns. -/
def initAttributes (init : Place) (owner : String) : List Symbol :=
  match init.field? "body" with
  | none => []
  | some body =>
      (body.descendants d.limits.walkDepth.toNat).filterMap fun p =>
        if p.kind == "assignment" && !isInInnerDefinition init p then
          (selfAttribute? d p).map (property d owner p)
        else
          none

/-- A function or method, and the attributes that it declares. -/
def functionSteps (exports : Option (List String)) (s : Scope) (outer p : Place) :
    List (Step Scope Found) :=
  match d.fieldText p "name" with
  | none => []
  | some name =>
      let header := "def " ++ name ++ "(" ++ d.paramsText (p.field? "parameters") ++ ")"
      let header := ((d.fieldText p "return_type").map (header ++ " -> " ++ ·)).getD header
      let kind : SymbolKind := if s.name.isSome then .method else .function
      let symbol := Symbol.ofDetails name kind (d.startLine outer) (d.endLine p)
        { qualifiedName := some (Text.qualify s.name name ".")
          signature := some (withDecorators d outer header)
          docstring := docstring d p
          visibility := some (visibility name)
          isExported := some (isExported exports name)
          parentName := s.name }
      let attributes :=
        match s.name with
        | some owner => if name == "__init__" then initAttributes d p owner else []
        | none => []
      .emit (.declared symbol) :: attributes.map fun a => .emit (.attribute a)

/-- A class, and then its body. -/
def classSteps (exports : Option (List String)) (s : Scope) (outer p : Place) :
    List (Step Scope Found) :=
  match d.fieldText p "name" with
  | none => []
  | some name =>
      let bases :=
        match d.fieldText p "superclasses" with
        | some bases => if Text.startsWith "(" bases then bases else "(" ++ bases ++ ")"
        | none => ""
      let qualified := Text.qualify s.name name "."
      let symbol := Symbol.ofDetails name .class (d.startLine outer) (d.endLine p)
        { qualifiedName := some qualified
          signature := some (withDecorators d outer ("class " ++ name ++ bases))
          docstring := docstring d p
          visibility := some (visibility name)
          isExported := some (isExported exports name)
          parentName := s.name }
      .emit (.declared symbol) :: Step.visit? (s.enter qualified) (p.field? "body")

/-- A definition under its decorators. -/
def definitionSteps (exports : Option (List String)) (s : Scope) (outer p : Place) :
    List (Step Scope Found) :=
  match p.kind with
  | "function_definition" => functionSteps d exports s outer p
  | "class_definition" => classSteps d exports s outer p
  | _ => []

/-- The variable or property that an assignment declares. Attributes, items and `__all__` are no
declarations. -/
def assignment? (exports : Option (List String)) (owner : Option String) (p : Place) :
    Option Symbol := do
  let left ← p.field? "left"
  let name := d.text left
  if Text.has "." name || Text.has "[" name || name == "__all__" then none
  match owner with
  | some owner => some (property d owner p name)
  | none =>
      let signature :=
        match p.field? "right" with
        | some r => name ++ " = " ++ Text.take 80 (d.text r)
        | none => name
      some (d.symbol p name (if isUpperName name then .constant else .variable)
        { signature := some signature
          visibility := some (visibility name)
          isExported := some (isExported exports name) })

/-- What one child of a module or class body declares. -/
def childSteps (exports : Option (List String)) (s : Scope) (c : Place) :
    List (Step Scope Found) :=
  match c.kind with
  | "function_definition" | "class_definition" => definitionSteps d exports s c c
  | "decorated_definition" =>
      ((c.field? "definition").map (definitionSteps d exports s c)).getD []
  | "assignment" | "expression_statement" =>
      ((assignmentsOf c).filterMap (assignment? d exports s.name)).map fun a =>
        .emit (.declared a)
  | _ => []

/-- The declarations among the children of a place. -/
def rule (exports : Option (List String)) : Rule Scope Found := fun s p =>
  if d.tooDeep s.depth then [] else p.children.flatMap (childSteps d exports s)

/-- The declarations of a file. -/
def symbols (root : Place) : List Symbol :=
  settleFrom [] ((rule d (exportList d root)).walk {} root)

end SourceIndex.Declarations.Python
