import SourceIndex.Document

/-!
# Objective-C: classes, categories, selectors
-/

namespace SourceIndex.Idiom.ObjC

variable (d : Document)

/-- The category that a class is extended by: the name between parentheses. -/
def categoryName (p : Place) : Option String :=
  let inner := (p.children.takeWhile fun c => c.kind != ")").dropWhile fun c => c.kind != "("
  (inner.find? fun c => c.kind == "identifier").map d.text

/-- The name of a class, with its category in parentheses. -/
def className (p : Place) : Option String :=
  (d.childText p "identifier").map fun name =>
    match categoryName d p with
    | some category => name ++ "(" ++ category ++ ")"
    | none => name

/-- The class that a class inherits from; a category has none. -/
def superclassName (p : Place) : Option String :=
  if p.hasChild "(" then
    none
  else
    (d.fieldText p "superclass").or
      (((p.children.dropWhile fun c => c.kind != ":").find? fun c =>
        c.isOneOf ["identifier", "type_identifier"]).map d.text)

/-- The protocols that a class adopts. -/
def protocolNames (p : Place) : List String :=
  match p.childOfAny? ["parameterized_arguments", "protocol_qualifiers"] with
  | some list =>
      (list.children.filter fun c =>
        c.isOneOf ["type_name", "type_identifier", "identifier"]).map d.text
  | none => []

/-- A keyword of a selector closed by a colon: the last one, if it is open, or else an empty one. -/
def closeKeyword (parts : List String) : List String :=
  match parts.getLast? with
  | some last => if Text.endsWith ":" last then parts ++ [":"] else parts.dropLast ++ [last ++ ":"]
  | none => [":"]

/-- The selector that the children of a method spell, behind the parts read so far. -/
def selectorFrom (parts : List String) : List Place → Option String
  | [] =>
      let selector := String.join parts
      if selector.isEmpty then none else some selector
  | c :: rest =>
      if c.kind == "identifier" && parts.isEmpty then
        if rest.head?.any fun n => n.kind == "method_parameter" then
          selectorFrom [d.text c] rest
        else
          some (d.text c)
      else if c.kind == "method_parameter" then
        match rest with
        | n :: rest' =>
            if n.kind == "identifier" then
              selectorFrom (closeKeyword parts ++ [d.text n]) rest'
            else
              selectorFrom (closeKeyword parts) (n :: rest')
        | [] => selectorFrom (closeKeyword parts) []
      else
        selectorFrom parts rest

theorem selectorFrom_cons (parts : List String) (c : Place) (rest : List Place) :
    selectorFrom d parts (c :: rest) =
      if c.kind == "identifier" && parts.isEmpty then
        if rest.head?.any fun n => n.kind == "method_parameter" then
          selectorFrom d [d.text c] rest
        else
          some (d.text c)
      else if c.kind == "method_parameter" then
        match rest with
        | n :: rest' =>
            if n.kind == "identifier" then
              selectorFrom d (closeKeyword parts ++ [d.text n]) rest'
            else
              selectorFrom d (closeKeyword parts) (n :: rest')
        | [] => selectorFrom d (closeKeyword parts) []
      else
        selectorFrom d parts rest := by
  cases rest <;> rfl

/-- The selector of a method: its name alone, or keywords with a colon for each parameter. -/
def selector (p : Place) : Option String :=
  selectorFrom d [] p.children

end SourceIndex.Idiom.ObjC
