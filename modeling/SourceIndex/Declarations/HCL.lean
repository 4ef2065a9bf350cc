import SourceIndex.Idiom.HCL

/-!
# Declarations of HCL

A block declares by its keyword and its labels, at any depth of braces. The keys of a `locals` block
are declared as well; inside it blocks declare nothing.
-/

namespace SourceIndex.Declarations.HCL

open SourceIndex.Idiom.HCL

/-- What is said of a block that everybody may see. -/
def shown (qualified : Option String) (signature : String) : Symbol.Details :=
  { qualifiedName := qualified, signature := some signature }

/-- What is said of a block of settings. -/
def setting (signature : String) : Symbol.Details :=
  { signature := some signature, isExported := some false }

/-- The name, kind and details that the opening of a block declares. -/
def declared? (o : Opening) : Option (String × SymbolKind × Symbol.Details) :=
  match o.labels with
  | [type, name] =>
      let signature := o.keyword ++ " \"" ++ type ++ "\" \"" ++ name ++ "\""
      match o.keyword with
      | "resource" | "source" => some (name, .class, shown (some (type ++ "." ++ name)) signature)
      | "data" => some (name, .class, shown (some ("data." ++ type ++ "." ++ name)) signature)
      | _ => none
  | [label] =>
      let signature := o.keyword ++ " \"" ++ label ++ "\""
      match o.keyword with
      | "variable" => some (label, .variable, shown (some ("var." ++ label)) signature)
      | "output" | "job" | "task" | "group" | "build" =>
          some (label, .function, shown none signature)
      | "module" => some (label, .module, shown none signature)
      | "provider" => some (label, .module, setting signature)
      | _ => none
  | _ =>
      match o.keyword with
      | "terraform" => some ("terraform", .module, setting "terraform \x7b\x7d")
      | "build" => some ("build", .function, shown none "build \x7b\x7d")
      | _ => none

/-- The block that a line opens, as far as the line itself tells: its end is still to come. -/
def opened? (line : Line) : Option Symbol :=
  ((opening? line.text).bind declared?).map fun (name, kind, details) =>
    Symbol.ofDetails name kind line.number.toUInt32 line.number.toUInt32 details

/-- A key of a `locals` block. -/
def local? (line : Line) : Option Symbol :=
  (localKey? line.text).map fun key =>
    let qualified := "local." ++ key
    Symbol.ofDetails key .variable line.number.toUInt32 line.number.toUInt32
      { qualifiedName := some qualified
        signature := some qualified
        visibility := some .private
        isExported := some false }

/-- Does the line open a `locals` block? -/
def opensLocals (line : Line) : Bool :=
  (openingWith? [] (Text.Chars.trim line.text)).any fun o => o.keyword == "locals"

/-- A block whose braces are still open: the depth before it, and its place among the declarations
so far. -/
structure OpenBlock where
  margin : Int32
  index : Nat
  deriving Repr, DecidableEq

/-- What was read of some lines. -/
structure Scan where
  /-- How many more braces were opened than closed. -/
  depth : Int32 := 0
  /-- Inside a `locals` block, the depth before it. -/
  locals : Option Int32 := none
  /-- The declarations, in the order in which they begin. -/
  symbols : List Symbol := []
  /-- The blocks that are still open, the innermost one first. -/
  opened : List OpenBlock := []
  deriving Repr, DecidableEq

namespace Scan

/-- What a line declares, which brings the depth to `after`. -/
def declare (s : Scan) (after : Int32) (line : Line) : Scan :=
  match s.locals with
  | some margin =>
      if after ≤ margin then { s with locals := none }
      else { s with symbols := s.symbols ++ (local? line).toList }
  | none =>
      if opensLocals line then
        { s with locals := if s.depth < after then some s.depth else none }
      else
        match opened? line with
        | none => s
        | some y =>
            { s with
              symbols := s.symbols ++ [y]
              opened :=
                if s.depth < after then ⟨s.depth, s.symbols.length⟩ :: s.opened else s.opened }

/-- Ends on a line the blocks whose braces are balanced there, from the innermost one on. -/
def close (s : Scan) (line : Line) : Scan :=
  let isBalanced := fun b : OpenBlock => decide (s.depth ≤ b.margin)
  { s with
    symbols := (s.opened.takeWhile isBalanced).foldl (fun symbols b =>
      symbols.modify b.index fun y => y.endingOn line.number.toUInt32) s.symbols
    opened := s.opened.dropWhile isBalanced }

/-- One more line is read. -/
def next (s : Scan) (line : Line) : Scan :=
  let after := s.depth + balance line.text
  { s.declare after line with depth := after }.close line

end Scan

/-- The declarations of the blocks of a file, read line by line. -/
def blockSymbols (lines : List Line) : List Symbol :=
  (lines.foldl Scan.next {}).symbols

/-- A value of a file of values. -/
def value? (line : Line) : Option Symbol :=
  (topKey? line.text).map fun key =>
    Symbol.ofDetails key .variable line.number.toUInt32 line.number.toUInt32
      { signature := some (key ++ " = ...") }

/-- The declarations of a file. -/
def symbols (d : Document) : List Symbol :=
  if isValues d.path then (linesOf d).filterMap value? else blockSymbols (linesOf d)

end SourceIndex.Declarations.HCL
