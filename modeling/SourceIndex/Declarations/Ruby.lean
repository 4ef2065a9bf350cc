import SourceIndex.Document
import SourceIndex.Tree.Walk

/-!
# Declarations of Ruby

Modules, classes, methods, constants and the properties that accessors declare. A bare word such as
`private` changes the visibility of the methods after it, up to the end of the body it stands in.
-/

/-! ## Constants and comments -/

namespace SourceIndex.Idiom.Ruby

/-- The last part of a scoped constant. -/
def shortConstant (name : String) : String :=
  Text.afterLast "::" name

/-- The text of the superclass of a class. -/
def superclass (d : Document) (p : Place) : Option String :=
  d.text? ((p.field? "superclass").bind fun c => c.childOfAny? ["constant", "scope_resolution"])

/-- The comments right before a definition. A comment that opens a body stands before the body, so
the first definition in a body takes those. -/
def commentsAbove (d : Document) (p : Place) : List String :=
  let own := d.precedingComments p ["comment"]
  if own.isEmpty && p.previous?.isNone then
    match p.parent?.filter fun q => q.kind == "body_statement" with
    | some body => d.precedingComments body ["comment"]
    | none => []
  else
    own

/-- The documentation of a definition. -/
def documentation (d : Document) (p : Place) : Option String :=
  let comments := commentsAbove d p
  if comments.isEmpty then
    none
  else
    some ("\n".intercalate (comments.map fun c => Text.trim (Text.trimStartChar '#' c)))

end SourceIndex.Idiom.Ruby

/-! ## Declarations -/

namespace SourceIndex.Declarations.Ruby

open SourceIndex.Idiom.Ruby

variable (d : Document)

/-- The kinds of places that belong to the body around them. -/
def transparentKinds : List String :=
  ["body_statement", "then", "else", "begin"]

/-- The statements of a body, with the depth of each; those of nested places that belong to the body
are among them. -/
def statementRule : Rule Nat (Nat × Place) := fun depth p =>
  if d.tooDeep depth then
    []
  else
    p.children.map fun c =>
      if c.isOneOf transparentKinds then .visit (depth + 1) c else .emit (depth, c)

/-- The visibility that a bare word sets for what follows. -/
def visibilitySet? (p : Place) : Option Visibility :=
  if p.kind == "identifier" then
    [Visibility.private, .protected, .public].find? fun v => v.word == d.text p
  else
    none

/-- The statements of a body, each with the visibility that holds for it. -/
def withVisibility (visibility : Visibility) :
    List (Nat × Place) → List (Visibility × Nat × Place)
  | [] => []
  | (depth, c) :: rest =>
      (visibility, depth, c) ::
        withVisibility ((visibilitySet? d c).getD visibility) rest

/-- A class or module, and then its body. -/
def namespaceSteps (s : Scope) (kind : SymbolKind) (p : Place) : List (Step Scope Symbol) :=
  match d.fieldText p "name" with
  | none => []
  | some name =>
      let qualified := Text.qualify s.name name "::"
      let base :=
        if kind == .class then ((superclass d p).map (" < " ++ ·)).getD "" else ""
      [.emit (d.symbol p name kind
          { qualifiedName := some qualified
            signature := some (kind.word ++ " " ++ name ++ base)
            docstring := documentation d p
            parentName := s.name }),
        .visit (s.enter qualified) ((p.field? "body").getD p)]

/-- The parameters of a method in parentheses. -/
def parameters (p : Place) : String :=
  "(" ++ d.paramsText (p.field? "parameters") ++ ")"

/-- A method, or a function outside all classes. Constructors and functions are public. -/
def method? (owner : Option String) (visibility : Visibility) (p : Place) : Option Symbol :=
  (d.fieldText p "name").map fun name =>
    let (kind, visibility) : SymbolKind × Visibility :=
      if owner.isNone then (.function, .public)
      else if name == "initialize" then (.constructor, .public)
      else (.method, visibility)
    d.symbol p name kind
      { qualifiedName := some (Text.qualify owner name "#")
        signature := some ("def " ++ name ++ parameters d p)
        docstring := documentation d p
        visibility := some visibility
        isExported := some (visibility == .public)
        parentName := owner }

/-- A method of the class itself. -/
def singletonMethod? (owner : Option String) (p : Place) : Option Symbol :=
  (d.fieldText p "name").map fun name =>
    let receiver := (d.fieldText p "object").getD "self"
    d.symbol p name .method
      { qualifiedName := some (Text.qualify owner name ".")
        signature := some ("def " ++ receiver ++ "." ++ name ++ parameters d p)
        docstring := documentation d p
        parentName := owner }

/-- A constant; the first 60 characters of its value are kept. -/
def constant? (owner : Option String) (p : Place) : Option Symbol :=
  ((p.field? "left").filter fun c => c.kind == "constant").map fun left =>
    let name := d.text left
    let value := (d.fieldText p "right").map (Text.take 60)
    d.symbol p name .constant
      { qualifiedName := some (Text.qualify owner name "::")
        signature := some (name ++ (value.map (" = " ++ ·)).getD "")
        parentName := owner
        defaultValue := value }

/-- The properties that an accessor declares. -/
def accessors (owner : Option String) (p : Place) : List Symbol :=
  match d.fieldText p "method", p.field? "receiver", p.field? "arguments" with
  | some method, none, some arguments =>
      if ["attr_reader", "attr_writer", "attr_accessor"].contains method then
        (arguments.childrenOf "simple_symbol").map fun c =>
          let name := Text.trimStartChar ':' (d.text c)
          d.symbol p name .property
            { qualifiedName := some (Text.qualify owner name "#")
              signature := some (method ++ " :" ++ name)
              parentName := owner }
      else
        []
  | _, _, _ => []

/-- What one statement declares. -/
def statementSteps (s : Scope) (visibility : Visibility) (c : Place) : List (Step Scope Symbol) :=
  match c.kind with
  | "module" => namespaceSteps d s .module c
  | "class" => namespaceSteps d s .class c
  | "method" => Step.emit? (method? d s.name visibility c)
  | "singleton_method" => Step.emit? (singletonMethod? d s.name c)
  | "assignment" => Step.emit? (constant? d s.name c)
  | "call" => Step.emitAll (accessors d s.name c)
  | _ => []

/-- The declarations of a body, which starts out public. -/
def rule : Rule Scope Symbol := fun s p =>
  (withVisibility d .public ((statementRule d).walk s.depth p)).flatMap
    fun (visibility, depth, c) => statementSteps d { s with depth } visibility c

/-- The declarations of a file. -/
def symbols (root : Place) : List Symbol :=
  (rule d).walk {} root

end SourceIndex.Declarations.Ruby
