/-!
# Kinds of symbols and references

Each kind has one word. The two lists of kinds are open: a word that is none of the listed ones is
a kind of its own.
-/

namespace SourceIndex

/-- What a symbol declares. -/
inductive SymbolKind where
  | function | method | constructor | «class» | interface | struct | enum | trait | module
  | «variable» | constant | field | property | typeAlias | event | delegate | trigger | page
  | component | application | design | rule
  /-- A kind known by its word alone. -/
  | other (word : String)
  deriving Repr, DecidableEq, Inhabited

namespace SymbolKind

/-- The word of a kind. -/
def word : SymbolKind → String
  | function => "function"
  | method => "method"
  | constructor => "constructor"
  | «class» => "class"
  | interface => "interface"
  | struct => "struct"
  | enum => "enum"
  | trait => "trait"
  | module => "module"
  | «variable» => "variable"
  | constant => "constant"
  | field => "field"
  | property => "property"
  | typeAlias => "type_alias"
  | event => "event"
  | delegate => "delegate"
  | trigger => "trigger"
  | page => "page"
  | component => "component"
  | application => "application"
  | design => "design"
  | rule => "rule"
  | other word => word

/-- The kind of a word. -/
def ofWord : String → SymbolKind
  | "function" => function
  | "method" => method
  | "constructor" => constructor
  | "class" => «class»
  | "interface" => interface
  | "struct" => struct
  | "enum" => enum
  | "trait" => trait
  | "module" => module
  | "variable" => «variable»
  | "constant" => constant
  | "field" => field
  | "property" => property
  | "type_alias" => typeAlias
  | "event" => event
  | "delegate" => delegate
  | "trigger" => trigger
  | "page" => page
  | "component" => component
  | "application" => application
  | "design" => design
  | "rule" => rule
  | w => other w

/-- Is the kind known by its word alone? -/
def isOther : SymbolKind → Bool
  | other _ => true
  | _ => false

/-- Kinds that own a body of nested declarations. -/
def isContainer : SymbolKind → Bool
  | «class» | interface | struct | enum | trait | module => true
  | _ => false

end SymbolKind

/-- How a reference uses its target. -/
inductive ReferenceKind where
  | call | imports | inherits | implements | usesTrait | typeRef | reference | soql | label
  | controller | mergeField | include | componentRef | metadataRef | formulaRef
  /-- A kind known by its word alone. -/
  | other (word : String)
  deriving Repr, DecidableEq, Inhabited

namespace ReferenceKind

/-- The word of a kind. -/
def word : ReferenceKind → String
  | call => "call"
  | imports => "import"
  | inherits => "inherits"
  | implements => "implements"
  | usesTrait => "uses_trait"
  | typeRef => "type_ref"
  | reference => "reference"
  | soql => "soql"
  | label => "label"
  | controller => "controller"
  | mergeField => "merge_field"
  | «include» => "include"
  | componentRef => "component_ref"
  | metadataRef => "metadata_ref"
  | formulaRef => "formula_ref"
  | other word => word

/-- The kind of a word. -/
def ofWord : String → ReferenceKind
  | "call" => call
  | "import" => imports
  | "inherits" => inherits
  | "implements" => implements
  | "uses_trait" => usesTrait
  | "type_ref" => typeRef
  | "reference" => reference
  | "soql" => soql
  | "label" => label
  | "controller" => controller
  | "merge_field" => mergeField
  | "include" => «include»
  | "component_ref" => componentRef
  | "metadata_ref" => metadataRef
  | "formula_ref" => formulaRef
  | w => other w

/-- Is the kind known by its word alone? -/
def isOther : ReferenceKind → Bool
  | other _ => true
  | _ => false

end ReferenceKind

/-- Who may see a symbol. -/
inductive Visibility where
  | «public» | «private» | «protected» | internal | package
  deriving Repr, DecidableEq, Inhabited

namespace Visibility

/-- The word of a visibility. -/
def word : Visibility → String
  | «public» => "public"
  | «private» => "private"
  | «protected» => "protected"
  | internal => "internal"
  | package => "package"

/-- The visibility of its word. -/
def ofWord? : String → Option Visibility
  | "public" => some .public
  | "private" => some .private
  | "protected" => some .protected
  | "internal" => some .internal
  | "package" => some .package
  | _ => none

/-- The visibility of a modifier of any language; `global` and `open` are public. -/
def ofModifier? (w : String) : Option Visibility :=
  match w with
  | "public" | "global" | "open" => some .public
  | "private" | "fileprivate" => some .private
  | "protected" => some .protected
  | "internal" => some .internal
  | "package" => some .package
  | _ => none

end Visibility

end SourceIndex
