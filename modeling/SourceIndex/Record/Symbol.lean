import SourceIndex.Record.Kind

/-!
# Symbols and references

A symbol records one declaration. Lines count from one, and the last line is never before the
first. A reference records one use of a name, which is not resolved.
-/

namespace SourceIndex

/-! ## Symbols -/

/-- One declaration. -/
structure Symbol where
  name : String
  /-- Full scoped name. -/
  qualifiedName : String
  kind : SymbolKind
  /-- Display form of the declaration. -/
  signature : Option String
  lineStart : UInt32
  lineEnd : UInt32
  docstring : Option String
  visibility : Visibility
  isExported : Bool
  /-- Qualified name of the enclosing symbol. -/
  parentName : Option String
  /-- Literal that a field, property or constant starts with. -/
  defaultValue : Option String
  deriving Repr, DecidableEq, Inhabited

/-- What may be said of a symbol beyond its name, kind and lines. -/
structure Symbol.Details where
  qualifiedName : Option String := none
  signature : Option String := none
  docstring : Option String := none
  visibility : Option Visibility := none
  isExported : Option Bool := none
  parentName : Option String := none
  defaultValue : Option String := none
  deriving Repr, DecidableEq, Inhabited

/-- The symbol with the given details: qualified by its name alone, public and exported unless
they say otherwise, with lines from one on and in order. -/
def Symbol.ofDetails (name : String) (kind : SymbolKind) (first last : UInt32)
    (details : Symbol.Details) : Symbol :=
  let first := max first 1
  { name
    qualifiedName := details.qualifiedName.getD name
    kind
    signature := details.signature
    lineStart := first
    lineEnd := max last first
    docstring := details.docstring
    visibility := details.visibility.getD .public
    isExported := details.isExported.getD true
    parentName := details.parentName
    defaultValue := details.defaultValue }

/-- The symbol with another last line. -/
def Symbol.endingOn (y : Symbol) (last : UInt32) : Symbol :=
  { y with lineEnd := max last y.lineStart }

@[simp] theorem Symbol.endingOn_ofDetails (name : String) (kind : SymbolKind)
    (first last last' : UInt32) (details : Details) :
    (ofDetails name kind first last details).endingOn last' =
      ofDetails name kind first last' details :=
  rfl

/-! ## References -/

/-- One use of a name. -/
structure Reference where
  /-- Qualified name of the enclosing scope; none at the level of the file. -/
  sourceName : Option String
  targetName : String
  kind : ReferenceKind
  line : UInt32
  /-- Path of the module that an import names. -/
  importPath : Option String := none
  deriving Repr, DecidableEq, Inhabited

namespace Reference

/-- The same use, of a name from the given module. -/
def «from» (r : Reference) (path : String) : Reference :=
  { r with importPath := some path }

end Reference

/-!
## The first of each key

Of several records with one key only the first is kept.
-/

/-- The items of which the key is neither seen before nor the key of an item before them. -/
def firstOfEachFrom {α κ : Type} [BEq κ] (key : α → κ) (seen : List κ) : List α → List α
  | [] => []
  | a :: rest =>
      if seen.contains (key a) then firstOfEachFrom key seen rest
      else a :: firstOfEachFrom key (key a :: seen) rest

/-- The first item of each key. -/
def firstOfEach {α κ : Type} [BEq κ] (key : α → κ) (items : List α) : List α :=
  firstOfEachFrom key [] items

end SourceIndex
