import SourceIndex.Document
import SourceIndex.Tree.Walk

/-!
# PHP: names, modifiers, heritage, documentation

What declarations and uses of PHP have in common. Names are qualified with backslashes, and a
leading backslash says nothing.
-/

namespace SourceIndex.Idiom.PHP

/-- What stands between the parts of a qualified name. -/
def separator : String :=
  "\\"

/-- A name without the backslashes at its start. -/
def relative (name : String) : String :=
  Text.trimStartChar '\\' name

/-- The last part of a qualified name. -/
def shortName (name : String) : String :=
  Text.afterLast separator (relative name)

/-- The name of a variable without its dollar sign. -/
def variableName (raw : String) : String :=
  Text.trimStartChar '$' raw

/-- The kinds of modifiers. -/
def modifierKinds : List String :=
  ["visibility_modifier", "static_modifier", "readonly_modifier", "abstract_modifier",
    "final_modifier"]

/-- Does a modifier of the declaration hold the word? -/
def hasModifier (d : Document) (p : Place) (word : String) : Bool :=
  p.children.any fun c => c.isOneOf modifierKinds && Text.has word (d.text c)

/-- The visibility that a modifier states, public if it states none. -/
def modifierVisibility (d : Document) (modifier : Place) : Visibility :=
  (Visibility.ofModifier? (Text.trim (d.text modifier))).getD .public

/-- The visibility of a member, public without a modifier. -/
def visibility (d : Document) (p : Place) : Visibility :=
  ((p.childOf? "visibility_modifier").map (modifierVisibility d)).getD .public

/-- Names stand in a clause directly or somewhere below. -/
def namesRule : Rule Unit Place := fun _ p =>
  p.children.map fun c =>
    if c.isOneOf ["name", "qualified_name"] then .emit c else .visit () c

/-- The names that a clause lists. -/
def clauseNames (d : Document) (clause : Place) : List String :=
  (namesRule.walk () clause).map d.text

/-- The documentation comment right before a declaration. -/
def documentation (d : Document) (p : Place) : Option String := do
  let q ← p.previous?.filter fun q => q.kind == "comment"
  let body ← Text.dropPrefix? "/**" (Text.trim (d.text q))
  some (Text.trim (Text.dropSuffix "*/" body))

end SourceIndex.Idiom.PHP
