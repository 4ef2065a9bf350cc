import SourceIndex.Text.Name

/-!
# Languages

Which language a path belongs to, and which grammar parses a language. Some languages are parsed
with the grammar of another, and some are read line by line without any grammar.
-/

namespace SourceIndex

/-- What a file lacks that an extraction needs. -/
inductive Lack where
  /-- No language claims the path. -/
  | language (path : String)
  /-- The parser gives no tree of the octets. -/
  | tree (path : String)
  deriving Repr, DecidableEq

/-- Why no extraction takes place. -/
inductive ExtractError where
  /-- The file has no language, or no tree under the grammar of its language. -/
  | unsupported (lack : Lack)
  /-- The language is read line by line. -/
  | noGrammar (language : String)
  /-- There is no grammar of the name. -/
  | unknownGrammar (grammar : String)
  /-- The file does not exist. -/
  | missingFile (path : String)
  deriving Repr, DecidableEq

namespace Language

/-- The language of each ending of a file name, in lower case and with its dot. -/
def endings : List (String × String) :=
  [(".py", "python"), (".pyi", "python"),
    (".js", "javascript"), (".jsx", "javascript"), (".mjs", "javascript"), (".cjs", "javascript"),
    (".ts", "typescript"), (".mts", "typescript"), (".cts", "typescript"), (".tsx", "tsx"),
    (".go", "go"), (".rs", "rust"), (".c", "c"), (".h", "c"),
    (".cpp", "cpp"), (".cc", "cpp"), (".cxx", "cpp"), (".hpp", "cpp"), (".hxx", "cpp"),
    (".hh", "cpp"), (".m", "objc"), (".mm", "objc"),
    (".java", "java"), (".cs", "c_sharp"), (".php", "php"),
    (".rb", "ruby"), (".rake", "ruby"), (".gemspec", "ruby"),
    (".kt", "kotlin"), (".kts", "kotlin"), (".swift", "swift"),
    (".cls", "apex"), (".trigger", "apex"),
    (".cmp", "aura"), (".app", "aura"), (".evt", "aura"), (".intf", "aura"), (".design", "aura"),
    (".page", "visualforce"), (".component", "visualforce"),
    (".html", "html"), (".htm", "html"),
    (".prg", "foxpro"), (".scx", "foxpro"),
    (".tf", "hcl"), (".tfvars", "hcl"), (".hcl", "hcl"),
    (".yml", "yaml"), (".yaml", "yaml")]

/-- The language of metadata files. -/
def metadata : String :=
  "sfxml"

/-- The end of the path of a metadata file, which no ending overrides. -/
def metadataSuffix : String :=
  "-meta.xml"

/-- The languages that are parsed with another language's grammar. -/
def aliases : List (String × String) :=
  [("apex", "java"), ("aura", "html"), ("visualforce", "html"), ("sfxml", "html")]

/-- The languages that are read line by line. -/
def withoutGrammar : List String :=
  ["foxpro", "yaml", "hcl"]

/-- The grammars. -/
def grammars : List String :=
  ["rust", "c", "cpp", "go", "objc", "typescript", "tsx", "javascript", "html", "python", "java",
    "c_sharp", "php", "ruby", "swift", "kotlin"]

/-- Is the language read line by line? -/
def hasNoGrammar (language : String) : Bool :=
  withoutGrammar.contains language

/-- The language whose grammar parses another one. -/
def aliasTarget? (language : String) : Option String :=
  (aliases.find? fun a => a.1 == language).map (·.2)

/-- The name of the grammar that parses a language. -/
def grammarName (language : String) : String :=
  (aliasTarget? language).getD language

/-- The grammar of a name, aliases not counted. -/
def grammar (name : String) : Except ExtractError String :=
  if grammars.contains name then .ok name else .error (.unknownGrammar name)

/-- The grammar that parses a language. -/
def grammarOf (language : String) : Except ExtractError String :=
  if hasNoGrammar language then .error (.noGrammar language) else grammar (grammarName language)

/-- The language of a path. -/
def ofPath? (path : String) : Option String :=
  if Text.endsWith metadataSuffix path then
    some metadata
  else do
    let ending ← Text.extension? path
    (endings.find? fun e => e.1 == ending).map (·.2)

/-- All that a path may end in to be of some language. -/
def supportedEndings : List String :=
  endings.map (·.1) ++ [metadataSuffix]

/-- The languages that some path belongs to, each once and in order. -/
def supported : List String :=
  (((endings.map (·.2)) ++ [metadata]).mergeSort (fun a b => a ≤ b)).eraseReps

end Language

namespace ExtractError

/-- What is wrong with the grammar of an unknown name. -/
def grammarMessage (grammar : String) : String :=
  "Unsupported grammar: '" ++ grammar ++ "'. Supported grammars: " ++
    ", ".intercalate Language.grammars

/-- The text of an error. -/
def message : ExtractError → String
  | unsupported (.language path) => "unsupported language or file type: " ++ path
  | unsupported (.tree path) => "tree-sitter could not parse " ++ path
  | noGrammar language =>
      "language '" ++ language ++ "' is regex-only and has no tree-sitter grammar"
  | unknownGrammar grammar => "failed to load grammar: " ++ grammarMessage grammar
  | missingFile path => "failed to read " ++ path ++ ": No such file or directory (os error 2)"

end ExtractError

end SourceIndex
