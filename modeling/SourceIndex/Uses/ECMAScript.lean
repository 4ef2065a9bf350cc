import SourceIndex.Idiom.ECMAScript
import SourceIndex.Tree.Walk

/-!
# Uses in ECMAScript

Imports, calls, object creation and heritage, in JavaScript as in TypeScript.
-/

namespace SourceIndex.Uses.ECMAScript

variable (d : Document)

/-- What to look for at a place: the uses among its children, or the call it is. -/
inductive Task where
  | inside (scope : Scope)
  | call (scope : Scope)

/-- The last part of the path of a module, without its ending. -/
def moduleName (path : String) : String :=
  let last := Text.afterLast "/" path
  match Text.splitLast? "." last with
  | some (stem, _) => if stem.isEmpty then last else stem
  | none => last

/-- The names that an import takes from its module, with where they stand. -/
def importedNames (p : Place) : List (String × Place) :=
  match p.childOf? "import_clause" with
  | none => []
  | some clause =>
      clause.children.flatMap fun part =>
        match part.kind with
        | "identifier" => [(d.text part, part)]
        | "namespace_import" => [("*", part)]
        | "named_imports" =>
            (part.childrenOf "import_specifier").filterMap fun spec =>
              (d.fieldText spec "name").map fun name => (name, spec)
        | _ => []

/-- The imports of a statement; one that names nothing imports the module itself. -/
def imports (scope : Option String) (p : Place) : List Reference :=
  match p.field? "source" with
  | none => []
  | some source =>
      let path := Text.unquote (d.text source)
      match importedNames d p with
      | [] => [(d.reference .imports (moduleName path) p scope).from path]
      | names => names.map fun (name, q) => (d.reference .imports name q scope).from path

/-- The first argument, if it is a string. -/
def firstString? (arguments : Place) : Option String :=
  ((arguments.namedChildren.head?).filter fun a => a.isOneOf ["string", "template_string"]).map
    fun a => Text.unquote (d.text a)

/-- The module that a call requires. -/
def required? (p : Place) : Option String := do
  let f ← p.field? "function"
  if f.kind != "identifier" || d.text f != "require" then none
  firstString? d (← p.field? "arguments")

/-- The name of what is called: of a member its own name. -/
def calleeName (f : Place) : String :=
  if f.kind == "member_expression" then (d.fieldText f "property").getD (d.text f) else d.text f

/-- The uses inside what is called. -/
def calleeSteps (s : Scope) (f : Place) : List (Step Task Reference) :=
  match f.kind with
  | "member_expression" =>
      match f.field? "object" with
      | some o =>
          if o.kind == "call_expression" then [.visit (.call s.deeper) o]
          else [.visit (.inside s.deeper) o]
      | none => []
  | "identifier" => []
  | _ => [.visit (.inside s.deeper) f]

/-- A call, or the import that it makes, and then the uses in its callee and its arguments. -/
def callSteps (s : Scope) (p : Place) : List (Step Task Reference) :=
  match p.field? "function" with
  | none => []
  | some f =>
      match required? d p with
      | some path => [.emit ((d.reference .imports (moduleName path) p s.name).from path)]
      | none =>
          .emit (d.reference .call (calleeName d f) f s.name) ::
            (calleeSteps s f ++ Step.visit? (.inside s.deeper) (p.field? "arguments"))

/-- The creation of an object counts as a call of its class. -/
def creationSteps (s : Scope) (p : Place) : List (Step Task Reference) :=
  Step.emit? ((p.field? "constructor").map fun c =>
      d.reference .call (Text.afterLast "." (d.text c)) c s.name) ++
    Step.visit? (.inside s.deeper) (p.field? "arguments")

/-- The bare name of a type: without its arguments and its namespace. -/
def typeName (p : Place) : String :=
  let base := if p.kind == "generic_type" then (p.field? "name").getD p else p
  Text.afterLast "." (Text.trim (Text.beforeFirst "<" (d.text base)))

/-- The types that a heritage clause lists. -/
def clauseTypes (clause : Place) : List Place :=
  clause.namedChildren.filter fun c => !c.isOneOf ["type_arguments", "comment"]

/-- A type that another one builds on. -/
def heritageReference (kind : ReferenceKind) (owner : String) (p : Place) : Reference :=
  d.reference kind (typeName d p) p (some owner)

/-- The heritage of a class. Without clauses, the first thing named is its base. -/
def classHeritage (owner : String) (p : Place) : List Reference :=
  match p.childOf? "class_heritage" with
  | none => []
  | some heritage =>
      if heritage.children.any fun c => c.isOneOf ["extends_clause", "implements_clause"] then
        heritage.children.flatMap fun c =>
          match c.kind with
          | "extends_clause" => (clauseTypes c).map (heritageReference d .inherits owner)
          | "implements_clause" => (clauseTypes c).map (heritageReference d .implements owner)
          | _ => []
      else
        (heritage.namedChildren.take 1).map (heritageReference d .inherits owner)

/-- The interfaces that an interface extends. -/
def interfaceHeritage (owner : String) (p : Place) : List Reference :=
  match p.childOf? "extends_type_clause" with
  | none => []
  | some clause => (clauseTypes clause).map (heritageReference d .inherits owner)

/-- The scope that a named declaration opens. -/
def namedScope (s : Scope) (p : Place) : Option String :=
  (d.fieldText p "name").map fun name => Text.qualify s.name name "."

/-- The uses inside a declaration that is a scope if it has a name. -/
def scopeStep (s : Scope) (p : Place) : Step Task Reference :=
  .visit (.inside (s.enter? (namedScope d s p))) p

/-- Is the variable bound to a function? -/
def bindsFunction (p : Place) : Bool :=
  (p.field? "value").any fun v =>
    v.isOneOf ["arrow_function", "function_expression", "function"]

/-- What one child uses. -/
def childSteps (s : Scope) (c : Place) : List (Step Task Reference) :=
  match c.kind with
  | "import_statement" => Step.emitAll (imports d s.name c)
  | "call_expression" => callSteps d s c
  | "new_expression" => creationSteps d s c
  | "function_declaration" | "generator_function_declaration" | "method_definition" =>
      [scopeStep d s c]
  | "class_declaration" | "abstract_class_declaration" | "class" =>
      Step.emitAll (((namedScope d s c).map fun owner => classHeritage d owner c).getD []) ++
        [scopeStep d s c]
  | "interface_declaration" =>
      Step.emitAll (((namedScope d s c).map fun owner => interfaceHeritage d owner c).getD []) ++
        [scopeStep d s c]
  | "variable_declarator" =>
      if bindsFunction c then [scopeStep d s c] else [.visit (.inside s.deeper) c]
  | _ => [.visit (.inside s.deeper) c]

/-- The uses at a place. -/
def rule : Rule Task Reference
  | .inside s, p => if d.tooDeep s.depth then [] else p.children.flatMap (childSteps d s)
  | .call s, p => callSteps d s p

/-- The uses of a file. -/
def references (root : Place) : List Reference :=
  (rule d).walk (.inside {}) root

end SourceIndex.Uses.ECMAScript
