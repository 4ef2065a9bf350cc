import SourceIndex.Profile.Basic
import SourceIndex.Tree.Walk

/-!
# Declarations read by a profile

The walk looks for declarations everywhere but in the bodies of functions. The properties of a
container come before the declarations in its body.
-/

namespace SourceIndex.Declarations.Profiled

variable (profile : Profile) (d : Document)

/-- A declaration, and then the body of a container. -/
def declarationSteps (s : Scope) (kind : SymbolKind) (name : String) (p : Place) :
    List (Step Scope Symbol) :=
  let qualified := Text.qualify s.name name "."
  let visibility := profile.visibility d p
  .emit (d.symbol p name kind
      { qualifiedName := some qualified
        signature := d.signature p
        docstring := Rules.documentation d p
        visibility := some visibility
        isExported := some (visibility == .public)
        parentName := s.name }) ::
    if kind.isContainer then
      Step.emitAll (profile.properties d qualified p) ++
        [.visit (s.enter qualified) ((Rules.body? p).getD p)]
    else
      []

/-- What one child declares. -/
def childSteps (s : Scope) (c : Place) : List (Step Scope Symbol) :=
  match profile.kind? c, profile.name? d c with
  | some kind, some name => declarationSteps profile d s kind name c
  | _, _ => [.visit s.deeper c]

/-- The declarations among the children of a place. -/
def rule : Rule Scope Symbol := fun s p =>
  if s.depth > d.limits.genericDepth.toNat then
    []
  else
    p.children.flatMap (childSteps profile d s)

/-- The declarations of a file. -/
def symbols (root : Place) : List Symbol :=
  (rule profile d).walk {} root

end SourceIndex.Declarations.Profiled
