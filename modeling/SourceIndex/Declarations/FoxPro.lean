import SourceIndex.Document
import SourceIndex.Idiom.FoxPro.Form
import SourceIndex.Idiom.FoxPro.Statement

/-!
# Declarations of FoxPro: programs and forms
-/

/-!
## Programs

Classes and routines end where they are closed, or where the next one begins, or with the program.
A program without classes and routines is one function.
-/

namespace SourceIndex.Declarations.FoxPro

open SourceIndex.Idiom.FoxPro

/-- A class or routine that is open. -/
structure Opened where
  name : String
  /-- The base of a class, or the keyword of a routine. -/
  detail : String
  start : Nat
  deriving Repr, DecidableEq

/-- Where a program stands, and what is open there. -/
structure Machine where
  phase : Phase := .topLevel
  classOpen : Option Opened := none
  routineOpen : Option Opened := none
  deriving Repr, DecidableEq

/-- A symbol of some lines of a program. -/
def symbol (name : String) (kind : SymbolKind) (first last : Nat) (details : Symbol.Details) :
    Symbol :=
  Symbol.ofDetails name kind first.toUInt32 last.toUInt32 details

namespace Machine

variable (m : Machine)

/-- The open routine, if it ends on a line. It is a method if a class is open. -/
def endRoutine (last : Nat) : List Symbol :=
  m.routineOpen.toList.map fun r =>
    let owner := m.classOpen.map Opened.name
    symbol r.name (if owner.isSome then .method else .function) r.start last
      { qualifiedName := some ((owner.map fun o => o ++ "." ++ r.name).getD r.name)
        signature := some (r.detail ++ " " ++ r.name)
        parentName := owner }

/-- The open class, if it ends on a line. -/
def endClass (last : Nat) : List Symbol :=
  m.classOpen.toList.map fun c =>
    symbol c.name .class c.start last
      { signature := some ("DEFINE CLASS " ++ c.name ++ " AS " ++ c.detail) }

/-- The open routine and the open class, if both end on a line. -/
def endAll (last : Nat) : List Symbol :=
  m.endRoutine last ++ m.endClass last

/-- The constant that a line defines; the first 60 characters of its value are kept. -/
def constant (name value : String) (line : Nat) : Symbol :=
  symbol name .constant line line
    { signature := some ("#DEFINE " ++ name ++ " " ++ Text.take 60 value) }

/-- The property that a line declares, if it stands in a class but in no routine; the first 40
characters of its value are shown. -/
def property? (name value : String) (line : Nat) : Option Symbol :=
  if m.phase == .inClass && m.routineOpen.isNone then
    m.classOpen.map fun c =>
      symbol name .property line line
        { qualifiedName := some (c.name ++ "." ++ name)
          signature := some (name ++ " = " ++ Text.take 40 value)
          parentName := some c.name }
  else
    none

/-- What a statement on a line completes. -/
def emit (s : Statement) (line : Nat) : List Symbol :=
  match s with
  | .classClose => m.endAll line
  | .routineClose => m.endRoutine line
  | .classOpen _ _ => m.endAll (line - 1)
  | .routineOpen _ _ => m.endRoutine (line - 1)
  | .constant name value => [constant name value line]
  | .assignment name value => (m.property? name value line).toList
  | .other => []

/-- The program after a statement on a line. -/
def step (s : Statement) (line : Nat) : Machine :=
  let m := { m with phase := m.phase.next s }
  match s with
  | .classClose => { m with classOpen := none, routineOpen := none }
  | .routineClose => { m with routineOpen := none }
  | .classOpen name base => { m with classOpen := some ⟨name, base, line⟩, routineOpen := none }
  | .routineOpen keyword name => { m with routineOpen := some ⟨name, keyword, line⟩ }
  | _ => m

/-- What the statements from here on complete, where the program ends on line `last`. -/
def symbolsFrom (last : Nat) (m : Machine) : List (Nat × Statement) → List Symbol
  | [] => m.endAll last
  | (line, s) :: rest => m.emit s line ++ symbolsFrom last (m.step s line) rest

end Machine

/-- Does the statement begin a class or a routine? -/
def opensUnit : Statement → Bool
  | .classOpen _ _ | .routineOpen _ _ => true
  | _ => false

/-- The declarations of a program. -/
def symbols (d : Document) : List Symbol :=
  let program := Program.ofBytes d.bytes
  let statements := program.statements.map fun (line, text) => (line, Statement.ofLine text)
  let isScript := !statements.isEmpty && !statements.any fun s => opensUnit s.2
  let script :=
    symbol d.fileStem .function 1 program.lastLine { signature := some ("DO " ++ d.fileStem) }
  Machine.symbolsFrom program.lastLine {} statements ++ if isScript then [script] else []

end SourceIndex.Declarations.FoxPro

/-!
## Forms

A form is a class, and the routines of its controls are its methods.
-/

namespace SourceIndex.Declarations.Form

open SourceIndex.Idiom.FoxPro

/-- The qualified name of a control of a form. -/
def controlName (form : String) (c : Control) : String :=
  if c.path.isEmpty then form else form ++ "." ++ c.path

/-- A routine of a control. -/
def method (owner : String) (c : Control) (offset : Nat) (p : Procedure) : Symbol :=
  let line := formLine c.index offset
  Symbol.ofDetails p.name .method line (line + p.code.length.toUInt32)
    { qualifiedName := some (owner ++ "." ++ p.name)
      signature := some (p.keyword ++ " " ++ p.name)
      parentName := some owner }

/-- The routines of a control that have a name. -/
def methods (form : String) (c : Control) : List Symbol :=
  ((Procedure.split c.methods).zipIdx.filter fun p => !p.1.name.isEmpty).map fun (p, offset) =>
    method (controlName form c) c offset p

/-- The declarations of a form with a name, from its octets; none if they cannot be read. -/
def symbolsOf (form : String) (limits : Limits) (bytes : List UInt8) : List Symbol :=
  match Form.controls? limits bytes with
  | none => []
  | some controls =>
      Symbol.ofDetails form .class 1 (formLine controls.length 0)
          { signature := some ("FORM " ++ form) } ::
        (controls.filter Control.isLive).flatMap (methods form)

/-- The declarations of a form, which is named after its file. -/
def symbols (d : Document) : List Symbol :=
  symbolsOf d.fileStem d.limits d.bytes

end SourceIndex.Declarations.Form
