import SourceIndex.Document
import SourceIndex.Text.Case
import SourceIndex.Vocabulary

/-!
# Rules of a profile

A language that is read with the common vocabulary has rules that say where its classes name what
they inherit from, what they adopt, and how they declare properties. A missing rule finds nothing.
-/

namespace SourceIndex

/-- Where a class names what it inherits from. -/
inductive Superclasses where
  /-- Each clause of a kind names one class, by the first child or grandchild of a kind. -/
  | one (clause name : String)
  /-- Each clause of a kind names several classes by its children of a kind. -/
  | several (clause name : String)

/-- Where a class names what it adopts without inheriting from it. -/
inductive Adoption where
  /-- A statement in the body of the class uses a trait. -/
  | statement (kind name : String)
  /-- A clause of the class lists what it implements. -/
  | clause (kind name : String)
  /-- A block of its own has a field for the trait and one for the type that implements it. -/
  | block (kind traitField typeField : String)

/-- How a property tells its name. -/
inductive PropertyName where
  /-- By a field, or by a child or grandchild of that kind. -/
  | field (name : String)
  /-- By the first child of a kind. -/
  | child (kind : String)
  /-- By what is assigned to. -/
  | target

/-- Which nodes declare properties. -/
structure PropertyRule where
  kind : String
  name : PropertyName

/-- The rules of one language. -/
structure Rules where
  superclasses : Option Superclasses := none
  adoption : Option Adoption := none
  propertyRule : Option PropertyRule := none

namespace Rules

variable (d : Document)

/-- The body of a container: the field, or a child of a kind of body. -/
def body? (p : Place) : Option Place :=
  (p.field? "body").or (p.childOfAny? Vocabulary.bodies)

/-- The comment right before a declaration. -/
def documentation (p : Place) : Option String := do
  let q ← p.previous?.filter fun q => q.isOneOf Vocabulary.comments
  (some (Text.stripCommentMarks (d.text q))).filter fun doc => !doc.isEmpty

/-- The text of a node, if it is a literal short enough to keep. -/
def literal? (p : Place) : Option String :=
  let isShort (text : String) : Bool := text.length ≤ d.limits.literalSize.toNat
  let own := if p.isOneOf Vocabulary.literals then some (Text.trim (d.text p)) else none
  let content := if p.isOneOf Vocabulary.strings then p.childOf? "string_content" else none
  (own.filter isShort).or ((content.map fun c => Text.trim (d.text c)).filter isShort)

/-- The first literal at a place or at most so many levels below it. -/
def literalBelow? (levels : Nat) (p : Place) : Option String :=
  (p :: p.descendants levels).findSome? (literal? d)

/-- The first name of a type below a clause. -/
def clauseTarget? (clause : Place) : Option String :=
  ((clause.descendants d.limits.genericDepth.toNat).filter fun q =>
    q.isOneOf ["type_identifier", "simple_identifier", "identifier"]).findSome? fun q =>
      (some (Text.trim (d.text q))).filter fun t => !t.isEmpty

/-- A property of a class. -/
def property (owner : String) (p : Place) (name : String) (signature : Option String)
    (visibility : Visibility) (initial : Option String) : Symbol :=
  d.symbol p name .property
    { qualifiedName := some (Text.qualify (some owner) name ".")
      signature
      docstring := documentation d p
      visibility := some visibility
      isExported := some (visibility == .public)
      parentName := some owner
      defaultValue := initial }

/-- The place itself if it is of the kind, or the statement of the kind that it wraps. -/
def unwrap? (kind : String) (p : Place) : Option Place :=
  if p.kind == kind then some p
  else if p.isOneOf Vocabulary.wrappers then p.childOf? kind
  else none

/-- The text that names a property. -/
def propertyText? (name : PropertyName) (p : Place) : Option String :=
  match name with
  | .field field => do
      let named ← ((p.field? field).or (p.childOf? field)).or
        (p.children.findSome? fun c => c.childOf? field)
      some (d.text ((named.childOfAny? Vocabulary.names).getD named))
  | .child kind => do
      let declarator ← p.childOf? kind
      let inner := declarator.childOfAny?
        ["identifier", "field_identifier", "property_identifier", "variable_name"]
      some ((d.fieldText declarator "name").getD (d.text (inner.getD declarator)))
  | .target =>
      match p.field? "left" with
      | some left => if left.kind == "identifier" then some (d.text left) else none
      | none => d.childText p "identifier"

/-- The name of a property, without a dollar sign. -/
def propertyName? (name : PropertyName) (p : Place) : Option String :=
  ((propertyText? d name p).map fun t => Text.trimStartChar '$' (Text.trim t)).filter fun t =>
    !t.isEmpty

/-- The visibility that underscores at the start of a name tell; names with two of them at either
end are public. -/
def underscoreVisibility (name : String) : Visibility :=
  if Text.startsWith "__" name && Text.endsWith "__" name then .public
  else if Text.startsWith "__" name then .private
  else if Text.startsWith "_" name then .protected
  else .public

/-- The visibility that one child of a declaration tells by its words or by its kind. -/
def statedVisibility? (c : Place) : Option Visibility :=
  match c.kind with
  | "visibility_modifier" | "accessibility_modifier" | "modifiers" =>
      let words := Text.words (Text.lower (d.text c))
      [Visibility.private, .protected, .internal, .public].find? fun v =>
        words.any (Text.startsWith v.word)
  | "private" | "protected" | "public" => Visibility.ofModifier? c.kind
  | _ => none

/-- The property that one child of a body declares. -/
def property? (rule : PropertyRule) (owner : String) (c : Place) : Option Symbol := do
  let p ← unwrap? rule.kind c
  let name ← propertyName? d rule.name p
  some <| match rule.name with
    | .target =>
        property d owner p name none (underscoreVisibility name)
          ((p.field? "right").bind (literal? d))
    | _ =>
        property d owner p name none ((p.children.findSome? (statedVisibility? d)).getD .public)
          (literalBelow? d 3 p)

/-- The properties that a body declares. -/
def properties (rules : Rules) (owner : String) (body : Place) : List Symbol :=
  match rules.propertyRule with
  | some rule => body.children.filterMap (property? d rule owner)
  | none => []

/-- A reference from a type to another one, unless the other has no name. -/
def edge? (kind : ReferenceKind) (p : Place) (owner target : String) : Option Reference :=
  let target := Text.trim target
  if target.isEmpty then none else some (d.reference kind target p (some owner))

/-- What a class inherits from. -/
def inherited (rule : Superclasses) (owner : String) (p : Place) : List Reference :=
  let targets : List String :=
    match rule with
    | .one clause name => (p.childrenOf clause).filterMap fun c => d.childText c name
    | .several clause name =>
        (p.childrenOf clause).flatMap fun c => (c.childrenOf name).map d.text
  targets.filterMap (edge? d .inherits p owner)

/-- What a class adopts by its statements and clauses. -/
def adopted (rule : Adoption) (owner : String) (p : Place) : List Reference :=
  match rule with
  | .statement kind name =>
      let bodies :=
        match p.field? "body" with
        | some body => [body]
        | none => p.children.filter fun c => c.isOneOf Vocabulary.bodies
      (bodies.flatMap fun body => body.childrenOf kind).filterMap fun s =>
        (d.childText s name).bind (edge? d .usesTrait s owner)
  | .clause kind name =>
      let below := (p.childrenOf kind).flatMap (Place.descendants d.limits.genericDepth.toNat)
      (below.filter fun q => q.kind == name).filterMap fun q =>
        edge? d .implements p owner (d.text q)
  | .block _ _ _ => []

/-- What a class inherits from and adopts. -/
def heritage (rules : Rules) (owner : String) (p : Place) : List Reference :=
  (rules.superclasses.map fun rule => inherited d rule owner p).getD [] ++
    (rules.adoption.map fun rule => adopted d rule owner p).getD []

/-- What a block of its own implements. -/
def blockHeritage? (rules : Rules) (p : Place) : Option Reference :=
  match rules.adoption with
  | some (.block kind traitField typeField) =>
      if p.kind == kind then do
        let target ← d.fieldText p traitField
        let owner ← d.fieldText p typeField
        edge? d .implements p owner target
      else
        none
  | _ => none

/-- The rules of each language that has any. -/
def ofLanguage (language : String) : Rules :=
  match language with
  | "php" =>
      { superclasses := some (.one "base_clause" "name")
        adoption := some (.statement "use_declaration" "name")
        propertyRule := some ⟨"property_declaration", .field "variable_name"⟩ }
  | "python" =>
      { superclasses := some (.several "argument_list" "identifier")
        propertyRule := some ⟨"assignment", .target⟩ }
  | "java" =>
      { superclasses := some (.one "superclass" "type_identifier")
        adoption := some (.clause "super_interfaces" "type_identifier")
        propertyRule := some ⟨"field_declaration", .child "variable_declarator"⟩ }
  | "typescript" | "tsx" =>
      { superclasses := some (.one "extends_clause" "identifier")
        adoption := some (.clause "implements_clause" "type_identifier")
        propertyRule := some ⟨"public_field_definition", .child "property_identifier"⟩ }
  | "javascript" =>
      { superclasses := some (.one "class_heritage" "identifier")
        propertyRule := some ⟨"field_definition", .child "property_identifier"⟩ }
  | "go" =>
      { propertyRule := some ⟨"field_declaration", .child "field_identifier"⟩ }
  | "kotlin" =>
      { superclasses := some (.one "delegation_specifier" "user_type")
        propertyRule := some ⟨"property_declaration", .field "variable_declaration"⟩ }
  | "ruby" =>
      { superclasses := some (.one "superclass" "constant") }
  | "rust" =>
      { adoption := some (.block "impl_item" "trait" "type") }
  | _ => {}

end Rules

end SourceIndex
