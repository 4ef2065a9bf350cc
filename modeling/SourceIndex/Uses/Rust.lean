import SourceIndex.Idiom.Rust
import SourceIndex.Tree.Walk

/-!
# Uses in Rust

Use declarations, calls, macros, implemented traits, supertraits and derived traits.
-/

namespace SourceIndex.Uses.Rust

open SourceIndex.Idiom.Rust

variable (d : Document)

/-- What to look for at a place: the uses among its children, or the call it is. -/
inductive Task where
  | inside (scope : Scope)
  | call (scope : Scope)

/-- A part of a use tree: the path above it, empty at the top, and its depth. -/
structure Branch where
  path : String := ""
  depth : Nat := 0

/-- A path below the path of a branch. -/
def Branch.join (b : Branch) (path : String) : String :=
  if b.path.isEmpty then path else b.path ++ "::" ++ path

/-- The name at the end of a path, with the path. -/
def leaf (path : String) : String × String :=
  (path, Text.afterLast "::" path)

/-- The paths and names that a part of a use tree imports. -/
def useRule : Rule Branch (String × String) := fun b p =>
  if d.tooDeep b.depth then
    []
  else
    match p.kind with
    | "identifier" | "scoped_identifier" | "crate" | "self" | "super" =>
        [.emit (leaf (b.join (d.text p)))]
    | "use_as_clause" => Step.emit? ((d.fieldText p "path").map fun path => leaf (b.join path))
    | "use_wildcard" => [.emit (b.join (d.text p), "*")]
    | "use_list" => Step.visitAll { b with depth := b.depth + 1 } p.children
    | "scoped_use_list" =>
        let path := ((d.fieldText p "path").map b.join).getD b.path
        Step.visit? { path, depth := b.depth + 1 } (p.field? "list")
    | _ => []

/-- The imports of a use declaration. -/
def imports (scope : Option String) (p : Place) : List Reference :=
  (p.children.flatMap fun c => (useRule d).walk {} c).map fun (path, name) =>
    (d.reference .imports name p scope).from path

/-- The bare name of a type: without its arguments and its path. -/
def typeName (p : Place) : String :=
  let base := if p.kind == "generic_type" then (p.field? "type").getD p else p
  Text.afterLast "::" (d.text base)

/-- The name of what is called: of a field expression its field. -/
def calleeName (f : Place) : String :=
  if f.kind == "field_expression" then (d.fieldText f "field").getD (d.text f) else d.text f

/-- The uses in the receiver of a call. -/
def receiverSteps (s : Scope) (f : Place) : List (Step Task Reference) :=
  match if f.kind == "field_expression" then f.field? "value" else none with
  | some v =>
      if v.kind == "call_expression" then [.visit (.call s.deeper) v]
      else [.visit (.inside s.deeper) v]
  | none => []

/-- A call, and then the uses in its receiver and its arguments. -/
def callSteps (s : Scope) (p : Place) : List (Step Task Reference) :=
  match p.field? "function" with
  | none => []
  | some f =>
      .emit (d.reference .call (calleeName d f) f s.name) ::
        (receiverSteps s f ++ Step.visit? (.inside s.deeper) (p.field? "arguments"))

/-- The use of a macro counts as a call; its arguments are no syntax. -/
def macroCall? (scope : Option String) (p : Place) : Option Reference :=
  ((p.field? "macro").or (p.childOfAny? ["identifier", "scoped_identifier"])).map fun m =>
    d.reference .call (d.text m ++ "!") p scope

/-- The trait that an implementation implements. -/
def implemented? (p : Place) : Option Reference := do
  let type ← d.fieldText p "type"
  let traitNode ← p.field? "trait"
  some (d.reference .implements (typeName d traitNode) p (some type))

/-- The traits that a trait builds on. -/
def supertraits (p : Place) : List Reference :=
  match d.fieldText p "name", p.field? "bounds" with
  | some name, some bounds =>
      (bounds.children.filter fun c =>
          c.isOneOf ["type_identifier", "scoped_type_identifier", "generic_type"]).map fun c =>
        d.reference .inherits (typeName d c) c (some name)
  | _, _ => []

/-- The traits that a type derives. -/
def derives (p : Place) : List Reference :=
  match d.fieldText p "name" with
  | some name =>
      (derivedTraits d (attributesAbove p)).map fun t => d.reference .implements t p (some name)
  | none => []

/-- What one child uses. -/
def childSteps (s : Scope) (c : Place) : List (Step Task Reference) :=
  match c.kind with
  | "use_declaration" => Step.emitAll (imports d s.name c)
  | "call_expression" => callSteps d s c
  | "macro_invocation" => Step.emit? (macroCall? d s.name c)
  | "function_item" =>
      let inner := (d.fieldText c "name").map fun name => Text.qualify s.name name "::"
      [.visit (.inside (s.enter? inner)) c]
  | "impl_item" =>
      Step.emit? (implemented? d c) ++ [.visit (.inside (s.enter? (d.fieldText c "type"))) c]
  | "trait_item" => Step.emitAll (supertraits d c) ++ [.visit (.inside s.deeper) c]
  | "struct_item" | "enum_item" | "union_item" =>
      Step.emitAll (derives d c) ++ [.visit (.inside s.deeper) c]
  | _ => [.visit (.inside s.deeper) c]

/-- The uses at a place. -/
def rule : Rule Task Reference
  | .inside s, p => if d.tooDeep s.depth then [] else p.children.flatMap (childSteps d s)
  | .call s, p => callSteps d s p

/-- The uses of a file. -/
def references (root : Place) : List Reference :=
  (rule d).walk (.inside {}) root

end SourceIndex.Uses.Rust
