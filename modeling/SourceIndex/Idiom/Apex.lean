import SourceIndex.Document
import SourceIndex.Idiom.Java
import SourceIndex.Text.Case
import SourceIndex.Text.Pattern

/-!
# Apex: a dialect over the grammar of Java

Apex is parsed with the grammar of Java. What that grammar does not know is masked before parsing:
the modifier `global` is overwritten by `public`, and the header of a trigger by spaces. A mask
keeps every offset and every line, so the tree of the masked text slices the text itself.
-/

namespace SourceIndex.Idiom.Apex

open SourceIndex.Text (Pattern)
open SourceIndex.Text.Utf8 (Glyph)

/-- The modifier `global` is public; letter case does not count. -/
def visibility (modifiers : List String) : Visibility :=
  let has := fun word => modifiers.any fun m => Text.sameAscii m word
  if has "global" then .public
  else if has "private" then .private
  else if has "protected" then .protected
  else if has "public" then .public
  else .package

/-- The sharing modes of a class. -/
def sharing : Pattern Char :=
  let mode (first : String) : Pattern Char :=
    .seqs [.word first, .blanks1, .word "sharing"]
  .seqs [.wordEdge, .group 1 (.alts [mode "with", mode "without", mode "inherited"]), .wordEdge]

/-- Is the file a trigger? -/
def isTrigger (path : String) : Bool :=
  Text.endsWith ".trigger" (Text.lower path)

/-- The text around the start of a declaration, from 80 octets before it to 50 after. -/
def surroundings (d : Document) (p : Place) : Option String :=
  let first := p.start - 80
  let last := min (p.start + 50) d.bytes.length
  if first ≤ last then some (d.slice first last) else none

/-- A class may lose its modifiers in the tree. The text around its start then says whether it is
public, and which sharing mode its signature begins with. -/
def adjust (d : Document) (p : Place) (symbol : Symbol) : Symbol :=
  if symbol.kind != .class && symbol.kind != .interface then
    symbol
  else
    match surroundings d p with
    | none => symbol
    | some text =>
        let lower := Text.lower text
        let symbol :=
          if symbol.visibility == .package &&
              (Text.has "global " lower || Text.has "public " lower) then
            { symbol with visibility := .public, isExported := true }
          else
            symbol
        match (sharing.find? text.toList).bind fun m => m.text? 1 text.toList with
        | none => symbol
        | some mode =>
            let mode := Text.squeeze mode
            { symbol with
              signature := symbol.signature.map fun s =>
                if Text.has mode s then s else mode ++ " " ++ s }

/-- The rules of Apex. -/
def dialect : Java.Dialect where
  visibility := visibility
  adjust := adjust

/-- The modifier `global` as a whole word in either case. -/
def globalWord : Pattern Char :=
  .seqs [.wordEdge, .wordAnyCase "global", .wordEdge]

/-- The header of a trigger: its name, its object and its list of events. -/
def triggerHeader : Pattern Char :=
  .seqs [.wordEdge, .wordAnyCase "trigger", .blanks1, .plus .wordChar, .blanks1,
    .wordAnyCase "on", .blanks1, .plus .wordChar, .blanks, .char '(', .star (.noneOf ")"),
    .char ')']

/-- The octets that replace `global`. -/
def publicWord : List UInt8 :=
  Text.Utf8.encode "public".toList

/-- The octets of a glyph under a mask: those of `public` where a `global` stands, spaces for all
but line feeds where the header stands, and its own elsewhere. -/
def maskGlyph (globals : List Pattern.Match) (header : Option Pattern.Match) (i : Nat)
    (g : Glyph) : List UInt8 :=
  let bytes :=
    match globals.find? fun m => m.start ≤ i && i < m.stop with
    | some m => (publicWord.drop (i - m.start)).take 1
    | none => g.bytes
  match header with
  | some m =>
      if m.start ≤ i && i < m.stop then bytes.map fun b => if b == lineFeed then b else 0x20
      else bytes
  | none => bytes

/-- The source as the grammar of Java takes it; none if nothing has to be masked. -/
def masked (source : List UInt8) (isTrigger : Bool) : Option (List UInt8) :=
  let glyphs := Text.Utf8.glyphs source
  let inSource (p : Pattern Char) : Pattern Glyph := p.through Glyph.char Glyph.backward
  let globals := (inSource globalWord).findAll glyphs
  let header := if isTrigger then (inSource triggerHeader).find? glyphs else none
  if globals.isEmpty && header.isNone then
    none
  else
    some (glyphs.zipIdx.flatMap fun (g, i) => maskGlyph globals header i g)

/-- The root of the tree to walk: that of the masked source if there is one to be had. -/
def root? (parse : Parser) (d : Document) (root : Option Place) : Option Place :=
  root.map fun r =>
    match (masked d.bytes (isTrigger d.path)).bind (parse "java") with
    | some n => .root n
    | none => r

end SourceIndex.Idiom.Apex
