import SourceIndex.Profile.Basic
import SourceIndex.Tree.Walk

/-!
# Uses read by a profile

Calls, and what types inherit from and adopt.
-/

namespace SourceIndex.Uses.Profiled

variable (profile : Profile) (d : Document)

/-- What a call calls. Of a chain of calls the last member counts. -/
def called? (p : Place) : Option String := do
  let callee ← (((p.field? "function").or (p.field? "method")).or (p.field? "name")).or
    (p.childOfAny? Vocabulary.callees)
  let text := d.text callee
  let name :=
    if text.toList.any fun c => c == '(' || c == '\n' then Text.trim (Text.afterLast "." text)
    else text
  if name.isEmpty then none else some name

/-- The kinds of declarations that inherit from others. -/
def inherits : SymbolKind → Bool
  | .class | .interface | .struct => true
  | _ => false

/-- A declaration that may inherit from others, and then what is inside it. -/
def declarationSteps (s : Scope) (kind : SymbolKind) (name : String) (p : Place) :
    List (Step Scope Reference) :=
  let qualified := Text.qualify s.name name "."
  let edges := if inherits kind then profile.heritage d kind qualified p else []
  Step.emitAll edges ++ [.visit (s.enter qualified) p]

/-- What one child uses. -/
def childSteps (s : Scope) (c : Place) : List (Step Scope Reference) :=
  if c.isOneOf Vocabulary.calls then
    Step.emit? ((called? d c).map fun name => d.reference .call name c s.name) ++
      [.visit s.deeper c]
  else
    Step.emit? (profile.blockHeritage? d c) ++
      match profile.kind? c, profile.name? d c with
      | some kind, some name => declarationSteps profile d s kind name c
      | _, _ => [.visit s.deeper c]

/-- The uses among the children of a place. -/
def rule : Rule Scope Reference := fun s p =>
  if s.depth > d.limits.genericDepth.toNat then
    []
  else
    p.children.flatMap (childSteps profile d s)

/-- The uses of a file. -/
def references (root : Place) : List Reference :=
  (rule profile d).walk {} root

end SourceIndex.Uses.Profiled
