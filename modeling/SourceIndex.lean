import SourceIndex.Backends
import SourceIndex.Declarations.C
import SourceIndex.Declarations.CSharp
import SourceIndex.Declarations.ECMAScript
import SourceIndex.Declarations.FoxPro
import SourceIndex.Declarations.Go
import SourceIndex.Declarations.HCL
import SourceIndex.Declarations.Java
import SourceIndex.Declarations.Markup
import SourceIndex.Declarations.Metadata
import SourceIndex.Declarations.ObjC
import SourceIndex.Declarations.PHP
import SourceIndex.Declarations.Profiled
import SourceIndex.Declarations.Python
import SourceIndex.Declarations.Ruby
import SourceIndex.Declarations.Rust
import SourceIndex.Declarations.TypeScript
import SourceIndex.Declarations.YAML
import SourceIndex.Digest
import SourceIndex.Document
import SourceIndex.Extraction
import SourceIndex.Idiom.Apex
import SourceIndex.Idiom.C
import SourceIndex.Idiom.CSharp
import SourceIndex.Idiom.ECMAScript
import SourceIndex.Idiom.FoxPro.Builtin
import SourceIndex.Idiom.FoxPro.Form
import SourceIndex.Idiom.FoxPro.Statement
import SourceIndex.Idiom.HCL
import SourceIndex.Idiom.Java
import SourceIndex.Idiom.Markup
import SourceIndex.Idiom.Metadata
import SourceIndex.Idiom.ObjC
import SourceIndex.Idiom.PHP
import SourceIndex.Idiom.Pipeline
import SourceIndex.Idiom.Rust
import SourceIndex.Idiom.YAML
import SourceIndex.Json.Basic
import SourceIndex.Json.Reader
import SourceIndex.Language
import SourceIndex.Profile.Basic
import SourceIndex.Profile.Languages
import SourceIndex.Profile.Rules
import SourceIndex.Proofs.Apex.Hiding
import SourceIndex.Proofs.Apex.Masking
import SourceIndex.Proofs.Apex.Surroundings
import SourceIndex.Proofs.Apex.Words
import SourceIndex.Proofs.Declarations.Depth.C
import SourceIndex.Proofs.Declarations.Depth.ECMAScript
import SourceIndex.Proofs.Declarations.Depth.ObjC
import SourceIndex.Proofs.Declarations.Go
import SourceIndex.Proofs.Declarations.ObjC
import SourceIndex.Proofs.Declarations.Python
import SourceIndex.Proofs.Declarations.Ruby
import SourceIndex.Proofs.Declarations.Rust
import SourceIndex.Proofs.Extents.HCL
import SourceIndex.Proofs.Extents.YAML
import SourceIndex.Proofs.FoxPro.Attribution
import SourceIndex.Proofs.FoxPro.Forms
import SourceIndex.Proofs.FoxPro.Lines
import SourceIndex.Proofs.FoxPro.Packing
import SourceIndex.Proofs.FoxPro.Records
import SourceIndex.Proofs.FoxPro.Routines
import SourceIndex.Proofs.FoxPro.Symbols
import SourceIndex.Proofs.FoxPro.Units
import SourceIndex.Proofs.Hierarchy.C
import SourceIndex.Proofs.Hierarchy.ECMAScript
import SourceIndex.Proofs.Hierarchy.Extractor
import SourceIndex.Proofs.Hierarchy.FoxPro
import SourceIndex.Proofs.Hierarchy.Java
import SourceIndex.Proofs.Hierarchy.Owner
import SourceIndex.Proofs.Hierarchy.Scripts
import SourceIndex.Proofs.Json.Reading
import SourceIndex.Proofs.Kinds.Declared
import SourceIndex.Proofs.Kinds.Extractor
import SourceIndex.Proofs.Kinds.Used
import SourceIndex.Proofs.Lines.C
import SourceIndex.Proofs.Lines.Classes
import SourceIndex.Proofs.Lines.Configuration
import SourceIndex.Proofs.Lines.ECMAScript
import SourceIndex.Proofs.Lines.Extractor
import SourceIndex.Proofs.Lines.FoxPro
import SourceIndex.Proofs.Lines.Markup
import SourceIndex.Proofs.Lines.Scripts
import SourceIndex.Proofs.Lines.Standing
import SourceIndex.Proofs.Lines.Systems
import SourceIndex.Proofs.Literals.C
import SourceIndex.Proofs.Literals.ECMAScript
import SourceIndex.Proofs.Literals.Extractor
import SourceIndex.Proofs.Literals.Fields
import SourceIndex.Proofs.Literals.Initial
import SourceIndex.Proofs.Literals.Limit
import SourceIndex.Proofs.Literals.Plain
import SourceIndex.Proofs.Literals.Profiled
import SourceIndex.Proofs.Literals.Scripts
import SourceIndex.Proofs.Markup
import SourceIndex.Proofs.Octets
import SourceIndex.Proofs.Paths.Headers
import SourceIndex.Proofs.Paths.LetterCase
import SourceIndex.Proofs.Paths.Readers
import SourceIndex.Proofs.Profile
import SourceIndex.Proofs.Record.Kind
import SourceIndex.Proofs.Scopes.C
import SourceIndex.Proofs.Scopes.CSharp
import SourceIndex.Proofs.Scopes.ECMAScript
import SourceIndex.Proofs.Scopes.Java
import SourceIndex.Proofs.Scopes.PHP
import SourceIndex.Proofs.Scopes.Profiled
import SourceIndex.Proofs.Scopes.Python
import SourceIndex.Proofs.Scopes.Ruby
import SourceIndex.Proofs.Scopes.Rust
import SourceIndex.Proofs.Session
import SourceIndex.Proofs.Text.Ending
import SourceIndex.Proofs.Text.Glyphs
import SourceIndex.Proofs.Text.Lines
import SourceIndex.Proofs.Text.Name
import SourceIndex.Proofs.Text.Pattern
import SourceIndex.Proofs.Text.Search
import SourceIndex.Proofs.Text.Utf8
import SourceIndex.Proofs.Texts
import SourceIndex.Proofs.Tree.Descent
import SourceIndex.Proofs.Tree.Emission
import SourceIndex.Proofs.Tree.Extent
import SourceIndex.Proofs.Tree.Preorder
import SourceIndex.Proofs.Tree.Scoped
import SourceIndex.Proofs.Tree.Sight
import SourceIndex.Proofs.Tree.TruncatedWalk
import SourceIndex.Proofs.Tree.Truncation
import SourceIndex.Proofs.Uses.Account
import SourceIndex.Proofs.Uses.Calls.C
import SourceIndex.Proofs.Uses.Calls.CSharp
import SourceIndex.Proofs.Uses.Calls.ECMAScript
import SourceIndex.Proofs.Uses.Calls.Java
import SourceIndex.Proofs.Uses.Calls.Nested
import SourceIndex.Proofs.Uses.Calls.Profiled
import SourceIndex.Proofs.Uses.Calls.Python
import SourceIndex.Proofs.Uses.Calls.Rust
import SourceIndex.Proofs.Uses.Depth.CSharp
import SourceIndex.Proofs.Uses.Depth.ECMAScript
import SourceIndex.Proofs.Uses.Depth.Java
import SourceIndex.Proofs.Uses.Depth.PHP
import SourceIndex.Proofs.Uses.Depth.Profiled
import SourceIndex.Proofs.Uses.Depth.Python
import SourceIndex.Proofs.Uses.Depth.Ruby
import SourceIndex.Proofs.Uses.Depth.Rust
import SourceIndex.Proofs.Uses.DepthCap
import SourceIndex.Proofs.Uses.GitHub
import SourceIndex.Proofs.Uses.GitLab
import SourceIndex.Proofs.Uses.Go
import SourceIndex.Proofs.Uses.HCL
import SourceIndex.Proofs.Uses.LowerLimit
import SourceIndex.Proofs.Uses.Rust
import SourceIndex.Proofs.Uses.YAML
import SourceIndex.Record.Coding
import SourceIndex.Record.Kind
import SourceIndex.Record.Symbol
import SourceIndex.Registry
import SourceIndex.Text.Blank
import SourceIndex.Text.Case
import SourceIndex.Text.CodePage
import SourceIndex.Text.LineIndex
import SourceIndex.Text.Name
import SourceIndex.Text.Number
import SourceIndex.Text.Part
import SourceIndex.Text.Pattern
import SourceIndex.Text.Utf8
import SourceIndex.Text.Word
import SourceIndex.Tree.Node
import SourceIndex.Tree.Place
import SourceIndex.Tree.Walk
import SourceIndex.Uses.Apex
import SourceIndex.Uses.C
import SourceIndex.Uses.CSharp
import SourceIndex.Uses.ECMAScript
import SourceIndex.Uses.FoxPro
import SourceIndex.Uses.Go
import SourceIndex.Uses.HCL
import SourceIndex.Uses.Java
import SourceIndex.Uses.Markup
import SourceIndex.Uses.Metadata
import SourceIndex.Uses.ObjC
import SourceIndex.Uses.PHP
import SourceIndex.Uses.Profiled
import SourceIndex.Uses.Python
import SourceIndex.Uses.Ruby
import SourceIndex.Uses.Rust
import SourceIndex.Uses.YAML
import SourceIndex.Vocabulary
