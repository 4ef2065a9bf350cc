import SourceIndex.Declarations.CSharp
import SourceIndex.Declarations.FoxPro
import SourceIndex.Declarations.Go
import SourceIndex.Declarations.HCL
import SourceIndex.Declarations.Java
import SourceIndex.Declarations.Markup
import SourceIndex.Declarations.Metadata
import SourceIndex.Declarations.ObjC
import SourceIndex.Declarations.PHP
import SourceIndex.Declarations.Profiled
import SourceIndex.Declarations.Python
import SourceIndex.Declarations.Ruby
import SourceIndex.Declarations.Rust
import SourceIndex.Declarations.TypeScript
import SourceIndex.Declarations.YAML
import SourceIndex.Language
import SourceIndex.Profile.Languages
import SourceIndex.Uses.Apex
import SourceIndex.Uses.CSharp
import SourceIndex.Uses.ECMAScript
import SourceIndex.Uses.FoxPro
import SourceIndex.Uses.Go
import SourceIndex.Uses.HCL
import SourceIndex.Uses.Markup
import SourceIndex.Uses.Metadata
import SourceIndex.Uses.ObjC
import SourceIndex.Uses.PHP
import SourceIndex.Uses.Profiled
import SourceIndex.Uses.Python
import SourceIndex.Uses.Ruby
import SourceIndex.Uses.Rust
import SourceIndex.Uses.YAML

/-!
# The extractor of each language
-/

namespace SourceIndex

namespace Extractor

/-- Java. -/
def java : Extractor :=
  .ofTree "java" [".java"] (Declarations.Java.symbols Idiom.Java.dialect) Uses.Java.references
    Idiom.Java.documentation

/-- Apex. -/
def apex : Extractor where
  language := "apex"
  endings := [".cls", ".trigger"]
  symbols := Declarations.Apex.symbols
  references := Uses.Apex.references
  docstring := Idiom.Java.documentation

/-- Python. -/
def python : Extractor :=
  .ofTree "python" [".py", ".pyi"] Declarations.Python.symbols Uses.Python.references
    Idiom.Python.docstring

/-- JavaScript. -/
def javascript : Extractor :=
  .ofTree "javascript" [".js", ".jsx", ".mjs", ".cjs"]
    (Declarations.ECMAScript.symbols · Declarations.ECMAScript.javascript)
    Uses.ECMAScript.references Idiom.ECMAScript.documentation

/-- TypeScript under one of its names. -/
def typescriptAs (language : String) (endings : List String) : Extractor :=
  .ofTree language endings
    (Declarations.ECMAScript.symbols · Declarations.TypeScript.typescript)
    Uses.ECMAScript.references Idiom.ECMAScript.documentation

/-- TypeScript. -/
def typescript : Extractor :=
  typescriptAs "typescript" [".ts", ".mts", ".cts"]

/-- TypeScript with markup. -/
def tsx : Extractor :=
  typescriptAs "tsx" [".tsx"]

/-- Go. -/
def go : Extractor :=
  .ofTree "go" [".go"] Declarations.Go.symbols Uses.Go.references Idiom.Go.documentation

/-- Rust. -/
def rust : Extractor :=
  .ofTree "rust" [".rs"] Declarations.Rust.symbols Uses.Rust.references Idiom.Rust.documentation

/-- C. -/
def c : Extractor :=
  .ofTree "c" [".c", ".h"] (Declarations.C.symbols Declarations.C.c)
    (Uses.C.references · Uses.C.c) Idiom.C.documentation

/-- C++. -/
def cpp : Extractor :=
  .ofTree "cpp" [".cpp", ".cc", ".cxx", ".hpp", ".hxx", ".hh"]
    (Declarations.C.symbols Declarations.C.cpp) (Uses.C.references · Uses.C.c)
    Idiom.C.documentation

/-- Objective-C. -/
def objc : Extractor :=
  .ofTree "objc" [".m", ".mm"] (Declarations.C.symbols Declarations.ObjC.dialect)
    (Uses.C.references · Uses.ObjC.dialect) Idiom.C.documentation

/-- PHP. -/
def php : Extractor :=
  .ofTree "php" [".php"] Declarations.PHP.symbols Uses.PHP.references Idiom.PHP.documentation

/-- Ruby. -/
def ruby : Extractor :=
  .ofTree "ruby" [".rb", ".rake", ".gemspec"] Declarations.Ruby.symbols Uses.Ruby.references
    Idiom.Ruby.documentation

/-- C#. -/
def csharp : Extractor :=
  .ofTree "c_sharp" [".cs"] Declarations.CSharp.symbols Uses.CSharp.references
    Idiom.CSharp.documentation

/-- Aura. -/
def aura : Extractor where
  language := "aura"
  endings := [".cmp", ".app", ".evt", ".intf", ".design"]
  symbols := fun _ d root => Declarations.Aura.symbols d root
  references := fun _ d _ => Uses.Aura.references d

/-- Visualforce. -/
def visualforce : Extractor where
  language := "visualforce"
  endings := [".page", ".component"]
  symbols := fun _ d _ => Declarations.Visualforce.symbols d
  references := fun _ d _ => Uses.Visualforce.references d

/-- Metadata files. -/
def metadata : Extractor where
  language := Language.metadata
  endings := []
  symbols := fun _ d root => Declarations.Metadata.symbols d root
  references := fun _ d root => Uses.Metadata.references d root

/-- FoxPro: programs and forms. -/
def foxpro : Extractor where
  language := "foxpro"
  endings := [".prg", ".scx"]
  symbols := fun _ d _ =>
    if Idiom.FoxPro.isForm d.path then Declarations.Form.symbols d
    else Declarations.FoxPro.symbols d
  references := fun _ d _ =>
    if Idiom.FoxPro.isForm d.path then Uses.Form.references d else Uses.FoxPro.references d

/-- YAML. -/
def yaml : Extractor where
  language := "yaml"
  endings := [".yml", ".yaml"]
  symbols := fun _ d _ => Declarations.YAML.symbols d
  references := fun _ d _ => Uses.YAML.references d

/-- HCL. -/
def hcl : Extractor where
  language := "hcl"
  endings := [".tf", ".hcl", ".tfvars"]
  symbols := fun _ d _ => Declarations.HCL.symbols d
  references := fun _ d _ => Uses.HCL.references d

/-- The extractor of a language that is read by its profile. -/
def profiled (language : String) : Extractor :=
  let profile := Profile.ofLanguage language
  .ofTree language profile.endings (Declarations.Profiled.symbols profile)
    (Uses.Profiled.references profile) Rules.documentation

/-- The extractors made for one language. -/
def dedicated : List Extractor :=
  [java, apex, python, javascript, typescript, tsx, go, rust, c, cpp, objc, php, ruby, csharp,
    aura, visualforce, metadata, foxpro, yaml, hcl]

/-- The extractor made for a language, if there is one. -/
def dedicated? (language : String) : Option Extractor :=
  dedicated.find? fun e => e.language == language

/-- The extractor of any language: the one made for it, or the one made for the language whose
grammar it shares, or else the one that its profile gives. -/
def ofLanguage (language : String) : Extractor :=
  ((dedicated? language).or ((Language.aliasTarget? language).bind dedicated?)).getD
    (profiled language)

end Extractor

end SourceIndex
