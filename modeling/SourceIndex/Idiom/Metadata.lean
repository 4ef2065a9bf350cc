import SourceIndex.Idiom.Markup

/-!
# Metadata: names and kinds of files

The name of a metadata file holds the name of a component and, after a dot, the type of component.
-/

namespace SourceIndex.Idiom.Metadata

/-- The end of the name of a metadata file. -/
def suffix : String :=
  "-meta.xml"

/-- What a metadata file is about. -/
structure Subject where
  name : String
  type : String

/-- What the file is about; a name without a dot tells no type. -/
def subject (d : Document) : Subject :=
  let base := Text.dropSuffix suffix d.fileName
  match Text.splitLast? "." base with
  | some (name, type) => { name, type }
  | none => { name := base, type := "unknown" }

/-- The kind of component that a root element or a type of file stands for, in lower case. -/
def kind? (key : String) : Option SymbolKind :=
  match key with
  | "apexclass" => some .class
  | "apextrigger" => some .trigger
  | "apexpage" | "flexipage" => some .page
  | "apexcomponent" | "lightningcomponentbundle" => some .component
  | "customfield" => some .field
  | "customapplication" => some .application
  | "assignmentrule" | "autoresponserule" | "escalationrule" | "sharingrule" | "validationrule"
  | "workflowrule" => some .rule
  | "customobject" | "object" => some (.other "object")
  | "custommetadata" => some (.other "metadata")
  | "customlabel" => some (.other "label")
  | "customtab" => some (.other "tab")
  | "layout" => some (.other "layout")
  | "profile" => some (.other "profile")
  | "permissionset" => some (.other "permission_set")
  | "flow" => some (.other "flow")
  | "staticresource" => some (.other "resource")
  | "remotesitesetting" | "connectedapp" => some (.other "config")
  | "emailtemplate" => some (.other "template")
  | "report" => some (.other "report")
  | "dashboard" => some (.other "dashboard")
  | _ => none

/-- The name of an element's tag in lower case. -/
def lowerTag? (d : Document) (p : Place) : Option String :=
  if p.kind == "element" then (Markup.tagName? d p).map Text.lower else none

end SourceIndex.Idiom.Metadata
