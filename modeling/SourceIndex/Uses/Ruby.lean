import SourceIndex.Declarations.Ruby
import SourceIndex.Tree.Walk

/-!
# Uses in Ruby

Required files, mixins, calls, superclasses and constants.
-/

namespace SourceIndex.Uses.Ruby

open SourceIndex.Idiom.Ruby

variable (d : Document)

/-- What to look for at a place: the uses among its children, those in the body of a definition, or
the call it is. -/
inductive Task where
  | inside (scope : Scope)
  | definition (scope : Scope)
  | call (scope : Scope)

/-- The name by which a constant or the last part of a scoped constant is known. -/
def constantName? (p : Place) : Option String :=
  match p.kind with
  | "constant" => some (d.text p)
  | "scope_resolution" => d.fieldText p "name"
  | _ => none

/-- The scope that a definition opens. -/
def namedScope (s : Scope) (p : Place) (separator : String) : Option String :=
  (d.fieldText p "name").map fun name => Text.qualify s.name name separator

/-- A superclass, and then the uses in the body. -/
def namespaceSteps (s : Scope) (p : Place) : List (Step Task Reference) :=
  let inner := namedScope d s p "::"
  let inherited : Option Reference := do
    let owner ← inner
    let base ← superclass d p
    some (d.reference .inherits (shortConstant base) p (some owner))
  Step.emit? inherited ++ [.visit (.definition ⟨inner.or s.name, s.depth⟩) p]

/-- What a place uses. -/
def placeSteps (s : Scope) (p : Place) : List (Step Task Reference) :=
  match p.kind with
  | "call" => [.visit (.call s) p]
  | "constant" | "scope_resolution" =>
      Step.emit? ((constantName? d p).map fun name => d.reference .reference name p s.name)
  | "module" | "class" => namespaceSteps d s p
  | "method" => [.visit (.definition ⟨(namedScope d s p "#").or s.name, s.depth⟩) p]
  | "singleton_method" => [.visit (.definition ⟨(namedScope d s p ".").or s.name, s.depth⟩) p]
  | _ => [.visit (.inside s.deeper) p]

/-- The file that a call requires. -/
def required? (scope : Option String) (p arguments : Place) : Option Reference := do
  let content ← (← arguments.childOf? "string").childOf? "string_content"
  let path := d.text content
  some ((d.reference .imports (Text.afterLast "/" path) p scope).from path)

/-- The modules that a call mixes in. -/
def mixins (scope : Option String) (p arguments : Place) : List Reference :=
  (arguments.children.filterMap (constantName? d)).map fun name =>
    d.reference .imports name p scope

/-- What a call without a receiver imports, if that is what the method is for. -/
def imports? (scope : Option String) (p : Place) (method : String) : Option (List Reference) :=
  if (p.field? "receiver").isSome then
    none
  else
    let arguments := p.field? "arguments"
    match method with
    | "require" | "require_relative" => some (arguments.bind (required? d scope p)).toList
    | "include" | "extend" | "prepend" => some ((arguments.map (mixins d scope p)).getD [])
    | _ => none

/-- What a call calls: the creation of an object calls the class. -/
def callTarget (p : Place) (method : String) : String :=
  let made := (p.field? "receiver").filter fun r =>
    method == "new" && r.isOneOf ["constant", "scope_resolution"]
  (made.map fun r => shortConstant (d.text r)).getD method

/-- A call, and then the uses in its receiver, its arguments and its block. -/
def callSteps (s : Scope) (p : Place) : List (Step Task Reference) :=
  match d.fieldText p "method" with
  | none => []
  | some method =>
      match imports? d s.name p method with
      | some imported => Step.emitAll imported
      | none =>
          .emit (d.reference .call (callTarget d p method) p s.name) ::
            ((((p.field? "receiver").map (placeSteps d s.deeper)).getD []) ++
              Step.visit? (.inside s.deeper) (p.field? "arguments") ++
              Step.visit? (.inside s.deeper) (p.field? "block"))

/-- The children of a definition but for its name and its superclass. -/
def definitionParts (p : Place) : List Place :=
  let header := ((p.field? "name").toList ++ (p.field? "superclass").toList).map Place.index
  p.children.filter fun c => !header.contains c.index

/-- The uses at a place. -/
def rule : Rule Task Reference
  | .inside s, p => if d.tooDeep s.depth then [] else p.children.flatMap (placeSteps d s)
  | .definition s, p =>
      if d.tooDeep s.depth then [] else (definitionParts p).flatMap (placeSteps d s.deeper)
  | .call s, p => callSteps d s p

/-- The uses of a file. -/
def references (root : Place) : List Reference :=
  (rule d).walk (.inside {}) root

end SourceIndex.Uses.Ruby
