import SourceIndex.Record.Kind

/-!
# Vocabulary

The kinds of nodes that many grammars have in common, and what they declare.
-/

namespace SourceIndex.Vocabulary

/-- Kinds that declare a function. -/
def functions : List String :=
  ["function_definition", "function_declaration", "method_definition", "method_declaration",
    "function_item", "fn_item", "function", "singleton_method", "method"]

/-- Kinds that declare a class. -/
def classes : List String :=
  ["class_definition", "class_declaration", "class_specifier", "class", "module", "struct_item",
    "struct_specifier"]

/-- Kinds that declare an interface. -/
def interfaces : List String :=
  ["interface_declaration", "trait_item", "protocol_declaration", "trait_declaration"]

/-- Kinds that declare an enum. -/
def enums : List String :=
  ["enum_declaration", "enum_specifier", "enum_item"]

/-- Kinds that declare a module. -/
def modules : List String :=
  ["module_definition", "module_declaration", "mod_item", "namespace_definition",
    "package_declaration"]

/-- Kinds whose children are the declarations of a body. -/
def bodies : List String :=
  ["declaration_list", "class_body", "block", "body", "field_declaration_list", "enum_body",
    "enum_class_body", "protocol_body"]

/-- Kinds of children that name a declaration without a field for its name. -/
def names : List String :=
  ["identifier", "type_identifier", "simple_identifier", "constant", "property_identifier",
    "field_identifier"]

/-- Kinds of calls. -/
def calls : List String :=
  ["call_expression", "call", "method_invocation"]

/-- Kinds of children that a call without a field for its callee calls. -/
def callees : List String :=
  ["identifier", "simple_identifier", "member_expression", "navigation_expression", "attribute",
    "scoped_identifier", "field_expression"]

/-- Kinds that wrap one statement. -/
def wrappers : List String :=
  ["expression_statement"]

/-- Kinds of comments. -/
def comments : List String :=
  ["comment", "block_comment", "line_comment", "multiline_comment"]

/-- Kinds of strings, which may hold their content as a child. -/
def strings : List String :=
  ["string", "encapsed_string", "string_literal", "interpreted_string_literal",
    "raw_string_literal"]

/-- Kinds of literals. -/
def literals : List String :=
  strings ++
    ["string_content", "number", "integer", "float", "integer_literal", "float_literal",
      "decimal_integer_literal", "decimal_floating_point_literal", "true", "false", "boolean",
      "null", "nil", "none", "None", "number_literal"]

/-- What a kind of node declares. -/
def declared? (kind : String) : Option SymbolKind :=
  if functions.contains kind then some .function
  else if classes.contains kind then some .class
  else if interfaces.contains kind then some .interface
  else if enums.contains kind then some .enum
  else if modules.contains kind then some .module
  else none

end SourceIndex.Vocabulary
