import SourceIndex.Profile.Rules

/-!
# Profiles

A profile says how a language is read with the common vocabulary: what its nodes declare, how the
declarations are named, and who sees them. What a profile does not say follows from the vocabulary
and from the rules of the language.
-/

namespace SourceIndex

/-- How one language is read. -/
structure Profile where
  /-- The endings of file names that the profile stands for. -/
  endings : List String := []
  /-- What a node declares beyond what its kind says by itself. -/
  declared? : Place → Option SymbolKind := fun _ => none
  /-- A name that is not in the text. -/
  fixedName? : Place → Option String := fun _ => none
  /-- Who sees a declaration. -/
  visibility : Document → Place → Visibility := fun _ _ => .public
  /-- The properties of a class of the given qualified name. -/
  properties : Document → String → Place → List Symbol
  /-- What a class of the given kind and qualified name inherits from and adopts. -/
  heritage : Document → SymbolKind → String → Place → List Reference
  /-- What a block of its own implements. -/
  blockHeritage? : Document → Place → Option Reference := fun _ _ => none

namespace Profile

variable (profile : Profile) (d : Document)

/-- What a node declares. -/
def kind? (p : Place) : Option SymbolKind :=
  (profile.declared? p).or (Vocabulary.declared? p.kind)

/-- The name of a declaration: its field, or else the first child that looks like a name. -/
def name? (p : Place) : Option String :=
  ((profile.fixedName? p).or (d.fieldText p "name")).or
    (((p.childOfAny? Vocabulary.names).map fun c => Text.trim (d.text c)).filter fun t =>
      !t.isEmpty)

/-- The profile of a language that is read by its rules alone. -/
def ofRules (rules : Rules) : Profile where
  properties := fun d owner p => rules.properties d owner ((Rules.body? p).getD p)
  heritage := fun d _ owner p => rules.heritage d owner p
  blockHeritage? := fun d p => rules.blockHeritage? d p

end Profile

/-- The visibility among the modifiers of a declaration; what stands in parentheses after the word
does not count. -/
def modifierVisibility? (d : Document) (p : Place) : Option Visibility := do
  let modifiers ← p.childOf? "modifiers"
  ((modifiers.descendants 2).filter fun q => q.kind == "visibility_modifier").findSome? fun q =>
    Visibility.ofModifier? (Text.trim (Text.beforeFirst "(" (d.text q)))

end SourceIndex
