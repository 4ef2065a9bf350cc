import SourceIndex.Document
import SourceIndex.Text.Case
import SourceIndex.Text.Pattern
import SourceIndex.Tree.Walk

/-!
# Markup: elements, attributes and formulas

What the languages with the grammar of HTML have in common. Attributes are looked up in the tree
where a tag matters, and in the text where they matter on any tag.
-/

namespace SourceIndex.Idiom.Markup

open SourceIndex.Text (Pattern)

/-- The opening tag of an element; a tag that closes itself is its own. -/
def tag? (p : Place) : Option Place :=
  match p.kind with
  | "self_closing_tag" | "start_tag" => some p
  | "element" => p.childOfAny? ["start_tag", "self_closing_tag"]
  | _ => none

/-- The name of the tag of an element, as written. -/
def tagName? (d : Document) (p : Place) : Option String :=
  d.text? ((tag? p).bind fun tag => tag.childOf? "tag_name")

/-- The name and the value of an attribute that has both, without quotes. -/
def pair? (d : Document) (p : Place) : Option (String × String) := do
  let name ← (p.childrenOf "attribute_name").getLast?
  let value ← (p.children.filter fun c =>
    c.isOneOf ["attribute_value", "quoted_attribute_value"]).getLast?
  some (d.text name, Text.unquote (d.text value))

/-- The value of an attribute of a tag; letter case does not count. -/
def value? (d : Document) (tag : Place) (name : String) : Option String :=
  (((tag.childrenOf "attribute").filterMap (pair? d)).find? fun a =>
    Text.sameAscii a.1 name).map (·.2)

/-- The first text in an element, unless it is blank. -/
def elementText? (d : Document) (p : Place) : Option String :=
  ((p.childOf? "text").map fun t => Text.trim (d.text t)).filter fun t => !t.isEmpty

/-- The text of the first element of a name that is a child or a grandchild. -/
def childElementText? (d : Document) (p : Place) (name : String) : Option String :=
  let isNamed (q : Place) : Bool :=
    q.kind == "element" && (tagName? d q).any fun tag => Text.sameAscii tag name
  ((p.children.flatMap fun c => c :: c.children).find? isNamed).bind (elementText? d)

/-- Every place below is looked at, down to the depth that the limits allow. -/
def elementRule {α : Type} (d : Document) (pick : Place → Option α) : Rule Nat α := fun depth p =>
  if depth > d.limits.markupDepth.toNat then
    []
  else
    p.children.flatMap fun c => Step.emit? (pick c) ++ [.visit (depth + 1) c]

/-- What the places below a root give, from the outside in. -/
def walk {α : Type} (d : Document) (pick : Place → Option α) (root : Place) : List α :=
  (elementRule d pick).walk 0 root

/-- An attribute with a quoted value, whatever tag it belongs to. -/
def quotedAttribute (name : String) : Pattern Char :=
  .seqs [.wordAnyCase name, .blanks, .char '=', .blanks, .char '"', .group 1 (.plus (.noneOf "\"")),
    .char '"']

/-- One find in a text: what it says, and its line. -/
structure Find where
  text : String
  line : UInt32

/-- What a group holds in each match of a pattern. -/
def finds (pattern : Pattern Char) (group : Nat) (text : List Char) : List Find :=
  (pattern.findAll text).filterMap fun m =>
    (m.text? group text).map fun t => { text := t, line := Text.lineOf text m.start }

/-- The values of an attribute on any tag. -/
def values (name : String) (text : List Char) : List Find :=
  finds (quotedAttribute name) 1 text

/-- The parts between the commas of a find that are not blank. -/
def Find.parts (f : Find) : List Find :=
  (((Text.splitChar ',' f.text).map Text.trim).filter fun t => !t.isEmpty).map fun t =>
    { f with text := t }

/-- A use of what a find says. -/
def Find.reference (f : Find) (kind : ReferenceKind) : Reference :=
  { sourceName := none, targetName := f.text, kind, line := f.line }

/-- A name in a formula: a word of two characters or more that starts with a capital letter. -/
def formulaName : Pattern Char :=
  .seqs [.wordEdge,
    .group 1 (.seqs [.capital, .plus .wordChar, .opt (.alt (.word "__c") (.word "__r"))]),
    .wordEdge]

/-- The names in a formula. -/
def formulaNames (text : List Char) : List String :=
  (formulaName.findAll text).filterMap fun m => m.text? 1 text

end SourceIndex.Idiom.Markup
