import SourceIndex.Document
import SourceIndex.Idiom.FoxPro.Builtin
import SourceIndex.Idiom.FoxPro.Form
import SourceIndex.Idiom.FoxPro.Statement

/-!
# Uses in FoxPro: programs and forms
-/

/-!
## Programs

Programs, forms, libraries and functions that statements call or bring in, and the bases of classes.
-/

namespace SourceIndex.Uses.FoxPro

open SourceIndex.Idiom.FoxPro
open SourceIndex.Idiom.FoxPro.Statement (name opening)
open SourceIndex.Text (Pattern)

/-- Anything without blanks. -/
def solid : Pattern Char :=
  .plus (.one fun c => !Text.isBlank c)

/-- A quote of either kind. -/
def quote : Pattern Char :=
  .oneOf "\"'"

/-- Something in quotes. -/
def quoted (content : Pattern Char) : Pattern Char :=
  .seqs [quote, content, quote]

/-- The call of a routine in a library. -/
def callInLibrary : Pattern Char :=
  opening [.wordAnyCase "DO", .group 1 name, .wordAnyCase "IN", .group 2 solid]

/-- The call of a form. -/
def callForm : Pattern Char :=
  opening [.wordAnyCase "DO", .wordAnyCase "FORM", .group 1 solid]

/-- The call of a program. -/
def callProgram : Pattern Char :=
  opening [.wordAnyCase "DO", .group 1 name]

/-- A line that brings in a library of a kind. -/
def setLibrary (kind : String) : Pattern Char :=
  opening [.wordAnyCase "SET", .wordAnyCase kind, .wordAnyCase "TO", .group 1 solid]

/-- A line that brings in a header file. -/
def header : Pattern Char :=
  opening [.wordAnyCase "#INCLUDE", .seq (.opt quote) (.group 1 (.plus (.noneOf "\"'")))]

/-- The lines that bring in a file. -/
def imports : List (Pattern Char) :=
  [setLibrary "PROCEDURE", setLibrary "CLASSLIB", header]

/-- A function call with its opening parenthesis. -/
def functionCall (function : String) : Pattern Char :=
  .seqs [.wordEdge, .wordAnyCase function, .blanks, .char '(', .blanks]

/-- The creation of an object. -/
def creation : Pattern Char :=
  .seq (functionCall "CREATEOBJECT") (quoted (.group 1 name))

/-- The creation of an object of a class in a library. -/
def creationFromLibrary : Pattern Char :=
  .seqs [functionCall "NEWOBJECT", quoted (.group 1 name), .blanks, .char ',', .blanks,
    quoted (.group 2 (.plus (.noneOf "\"'")))]

/-- A line that declares a function of another library. -/
def foreign : Pattern Char :=
  opening [.wordAnyCase "DECLARE", name, .group 1 name, .wordAnyCase "IN", .group 2 solid]

/-- A line that evaluates the call of a function. -/
def evaluation : Pattern Char :=
  .seqs [.atStart, .blanks, .char '=', .group 1 name, .blanks, .char '(']

/-- The call of a method. -/
def methodCall : Pattern Char :=
  .seqs [.wordEdge, name, .char '.', .group 1 name, .blanks, .char '(']

/-- The text of the first group of a pattern at the start of a line. -/
def first? (pattern : Pattern Char) (line : List Char) : Option String :=
  (pattern.matchAt? [] line).bind fun m => m.text? 1 line

/-- A text without quotes at either end. -/
def unquote (text : String) : String :=
  Text.trimWhere (fun c => c == '"' || c == '\'') text

/-- A path without its ending. -/
def withoutEnding (path : String) : String :=
  match Text.splitLast? "." path with
  | some (stem, ending) =>
      if !stem.isEmpty && !(ending.any fun c => c == '/' || c == '\\') then stem else path
  | none => path

/-- The name of the file that a path leads to. -/
def moduleName (path : String) : String :=
  withoutEnding (Text.fileName path)

variable (line : UInt32) (scope : Option String)

/-- A call of a name on a line. -/
def call (target : String) : Reference :=
  { sourceName := scope, targetName := target, kind := .call, line }

/-- An import of a path on a line. -/
def «import» (path : String) : Reference :=
  { sourceName := scope, targetName := moduleName path, kind := .imports, line,
    importPath := some path }

/-- Does the word after `DO` begin a control structure? -/
def isControl (word : String) : Bool :=
  ["CASE", "WHILE"].contains (Text.upper word)

/-- The program or form that a statement runs. -/
def run? (text : List Char) : Option Reference :=
  let inLibrary := (Statement.groups? callInLibrary text).map fun (routine, library) =>
    (call line scope routine).from (unquote library)
  let form := (first? callForm text).map fun path =>
    call line scope (withoutEnding (unquote path))
  let program := ((first? callProgram text).filter fun target => !isControl target).map
    (call line scope)
  (inLibrary.or form).or program

/-- The file that a statement brings in. -/
def import? (text : List Char) : Option Reference :=
  (imports.findSome? fun pattern => first? pattern text).map fun path =>
    «import» line scope (unquote (Text.trim path))

/-- The objects that a statement creates. -/
def creations (text : List Char) : List Reference :=
  ((creation.findAll text).filterMap fun m => (m.text? 1 text).map (call line scope)) ++
    (creationFromLibrary.findAll text).filterMap fun m => do
      some ((call line scope (← m.text? 1 text)).from (← m.text? 2 text))

/-- The functions and methods that a statement calls. -/
def calls (text : List Char) : List Reference :=
  let targets := (first? evaluation text).toList ++
    (methodCall.findAll text).filterMap fun m => m.text? 1 text
  (targets.filter fun target => !Builtin.isFunction target).map (call line scope)

/-- The uses of one statement. -/
def statementUses (text : List Char) : List Reference :=
  match (run? line scope text).or (import? line scope text) with
  | some r => [r]
  | none =>
      creations line scope text ++
        match Statement.groups? foreign text with
        | some (function, library) => [(call line scope function).from (unquote library)]
        | none => calls line scope text

/-- The class and the routine around a statement. -/
structure Surroundings where
  className : Option String := none
  routine : Option String := none

/-- The qualified name of what is around. -/
def Surroundings.qualified (s : Surroundings) : Option String :=
  match s.className, s.routine with
  | some c, some r => some (c ++ "." ++ r)
  | some c, none => some c
  | none, routine => routine

/-- The uses of some statements on their lines. -/
def usesFrom (s : Surroundings) : List (Nat × List Char) → List Reference
  | [] => []
  | (line, text) :: rest =>
      match Statement.ofLine text with
      | .classOpen name base =>
          let inherited : Reference :=
            { sourceName := some name, targetName := base, kind := .inherits,
              line := line.toUInt32 }
          (if Builtin.isClass base then [] else [inherited]) ++
            usesFrom { s with className := some name } rest
      | .classClose => usesFrom {} rest
      | .routineOpen _ name => usesFrom { s with routine := some name } rest
      | .routineClose => usesFrom { s with routine := none } rest
      | _ => statementUses line.toUInt32 s.qualified text ++ usesFrom s rest

/-- The uses of a program. -/
def references (d : Document) : List Reference :=
  usesFrom {} (Program.ofBytes d.bytes).statements

end SourceIndex.Uses.FoxPro

/-!
## Forms

The libraries that the classes of controls come from, and the uses in the routines of controls.
-/

namespace SourceIndex.Uses.Form

open SourceIndex.Idiom.FoxPro

/-- The library that the class of a control comes from. -/
def library (form : String) (c : Control) : List Reference :=
  if c.classLocation.isEmpty then
    []
  else
    let file := Text.fileName c.classLocation
    let name := ((Text.splitLast? "." file).map (·.1)).getD file
    [{ sourceName := some form, targetName := name, kind := .imports, line := formLine c.index 0,
       importPath := some c.classLocation }]

/-- The uses in a routine of a control. -/
def procedureUses (form : String) (c : Control) (offset : Nat) (p : Procedure) : List Reference :=
  let owner := if c.path.isEmpty then form else form ++ "." ++ c.path
  let scope := owner ++ "." ++ p.name
  p.code.zipIdx.flatMap fun (code, lineOffset) =>
    let text := Text.Chars.trim code.toList
    if text.isEmpty then []
    else FoxPro.statementUses (formLine c.index (offset + lineOffset)) (some scope) text

/-- The uses of a control. -/
def controlUses (form : String) (c : Control) : List Reference :=
  library form c ++
    ((Procedure.split c.methods).zipIdx.filter fun p => !p.1.name.isEmpty).flatMap
      fun (p, offset) => procedureUses form c offset p

/-- The uses of a form with a name, from its octets; none if they cannot be read. -/
def referencesOf (form : String) (limits : Limits) (bytes : List UInt8) : List Reference :=
  match Form.controls? limits bytes with
  | none => []
  | some controls => (controls.filter Control.isLive).flatMap (controlUses form)

/-- The uses of a form, which is named after its file. -/
def references (d : Document) : List Reference :=
  referencesOf d.fileStem d.limits d.bytes

end SourceIndex.Uses.Form
