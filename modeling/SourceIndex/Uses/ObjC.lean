import SourceIndex.Idiom.ObjC
import SourceIndex.Uses.C

/-!
# Uses in Objective-C

Messages, imports of modules and heritage, which Objective-C adds to C.
-/

namespace SourceIndex.Uses.ObjC

open SourceIndex.Idiom.ObjC

variable (d : Document)

/-- The first keyword of the selector that a message sends. -/
def messageName? (p : Place) : Option Place :=
  let receiver := ((p.field? "receiver").or p.namedChildren.head?).map Place.index
  (p.field? "method").or
    (p.children.find? fun c => receiver != some c.index && c.kind == "identifier")

/-- A message counts as a call; the uses inside it follow. -/
def messageSteps (s : Scope) (p : Place) : List (Step Scope Reference) :=
  Step.emit? ((messageName? p).map fun m => d.reference .call (d.text m) m s.name) ++
    [.visit s.deeper p]

/-- The import of a module by its dotted path, of which the first part is the name. -/
def moduleImport? (scope : Option String) (p : Place) : Option Reference :=
  let parts := (p.childrenOf "identifier").map d.text
  parts.head?.map fun first => (d.reference .imports first p scope).from (".".intercalate parts)

/-- The class that a class inherits from, and the protocols that it adopts. -/
def heritage (owner : String) (p : Place) : List Reference :=
  ((superclassName d p).map fun t => d.reference .inherits t p (some owner)).toList ++
    (protocolNames d p).map fun t => d.reference .implements t p (some owner)

/-- An interface: its heritage, and the uses inside it. -/
def interfaceSteps (s : Scope) (p : Place) : List (Step Scope Reference) :=
  match className d p with
  | none => []
  | some owner => Step.emitAll (heritage d owner p) ++ [.visit (s.enter owner) p]

/-- Objective-C as a dialect of C. -/
def dialect : C.Dialect := fun d s p =>
  match p.kind with
  | "message_expression" => some (messageSteps d s p)
  | "module_import" => some (Step.emit? (moduleImport? d s.name p))
  | "preproc_import" => some (Step.emit? (C.include? d s.name p))
  | "class_interface" => some (interfaceSteps d s p)
  | "class_implementation" => some [.visit (s.enter? (className d p)) p]
  | "method_definition" =>
      let inner := (selector d p).map fun name => Text.qualify s.name name "."
      some [.visit (s.enter? inner) p]
  | _ => none

end SourceIndex.Uses.ObjC
