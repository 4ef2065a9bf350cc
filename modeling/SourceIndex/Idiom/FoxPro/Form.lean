import SourceIndex.Document
import SourceIndex.Text.Case
import SourceIndex.Text.CodePage
import SourceIndex.Text.Name

/-!
# FoxPro: forms

A form is a table of controls and a heap of memos, packed behind the size of the table. A row of
the table holds short texts itself and the numbers of the blocks where its long texts start.
-/

/-!
## Octets

Parts of a list of octets, and the numbers that octets write.
-/

namespace SourceIndex.Octets

/-- The octets from an offset on, if there are so many. -/
def slice? (bytes : List UInt8) (offset size : Nat) : Option (List UInt8) :=
  let part := (bytes.drop offset).take size
  if part.length = size ∧ offset ≤ bytes.length then some part else none

/-- The number that octets write with the lowest digit first. -/
def little : List UInt8 → Nat
  | [] => 0
  | b :: rest => b.toNat + 0x100 * little rest

/-- The number that octets write with the highest digit first. -/
def big (bytes : List UInt8) : Nat :=
  little bytes.reverse

/-- The number of so many octets at an offset, with the lowest digit first. -/
def littleAt? (bytes : List UInt8) (offset size : Nat) : Option Nat :=
  (slice? bytes offset size).map little

/-- The number of so many octets at an offset, with the highest digit first. -/
def bigAt? (bytes : List UInt8) (offset size : Nat) : Option Nat :=
  (slice? bytes offset size).map big

end SourceIndex.Octets

/-! ## Tables and memos -/

namespace SourceIndex.Idiom.FoxPro

/-- Why some octets are no table of controls. -/
inductive FormError where
  | truncated
  | unknownVersion (version : UInt8)
  | badLayout (headerSize : Nat)
  deriving Repr, DecidableEq

/-- One control of a form. -/
structure Control where
  index : Nat
  isDeleted : Bool
  platform : String
  name : String
  parent : String
  classLocation : String
  methods : String
  deriving Repr, DecidableEq

namespace Control

/-- The name of a control under its parent. -/
def path (c : Control) : String :=
  Text.qualify (some c.parent) c.name "."

/-- Is the row a control that still exists? -/
def isLive (c : Control) : Bool :=
  !c.isDeleted && Text.trim c.platform != "COMMENT"

end Control

namespace Form

/-- The octets of the table and those of the heap. -/
def unpack (bytes : List UInt8) : List UInt8 × List UInt8 :=
  match Octets.bigAt? bytes 0 4 with
  | none => (bytes, [])
  | some size => (bytes.drop 4).splitAt size

/-- The first octets of tables that can be read. -/
def versions : List UInt8 :=
  [0x02, 0x03, 0x04, 0x05, 0x30, 0x31, 0x32, 0x43, 0x63, 0x83, 0x8B, 0xCB, 0xF5, 0xFB]

/-- Size of the header before the columns, and size of a column's description. -/
def headerUnit : Nat :=
  32

/-- A column of a table. -/
structure Column where
  name : String
  kind : UInt8
  offset : Nat
  size : Nat
  deriving Repr, DecidableEq

/-- The column that some octets describe. Its name ends with a zero. -/
def Column.ofBytes (bytes : List UInt8) : Column :=
  { name := String.ofList (Text.Utf8.decode ((bytes.take 11).takeWhile (· != 0)))
    kind := bytes.getD 11 0
    offset := Octets.little ((bytes.drop 12).take 4)
    size := (bytes.getD 16 0).toNat }

/-- So many parts of one size, as long as there are whole parts. -/
def parts (size : Nat) : Nat → List UInt8 → List (List UInt8)
  | 0, _ => []
  | count + 1, bytes =>
      match Octets.slice? bytes 0 size with
      | some part => part :: parts size count (bytes.drop size)
      | none => []

/-- The columns that a header describes, up to the mark that ends the descriptions. A column has to
start inside a row. -/
def columns (header : List UInt8) (rowSize : Nat) : List Column :=
  let descriptions := (parts headerUnit header.length (header.drop headerUnit)).takeWhile fun b =>
    b.head? != some 0x0D
  (descriptions.map Column.ofBytes).filter fun c => c.offset < rowSize

/-- A heap of memos. -/
structure Heap where
  bytes : List UInt8
  maxMemo : Nat

namespace Heap

variable (heap : Heap)

/-- Size of a block; 64 octets if the heap does not tell. -/
def blockSize : Nat :=
  ((Octets.bigAt? heap.bytes 6 2).filter (0 < ·)).getD 64

/-- Is the heap long enough to hold a memo? -/
def isUsable : Bool :=
  512 ≤ heap.bytes.length

/-- The memo that starts with a block, unless it is empty or too long. -/
def memo? (block : Nat) : Option (List UInt8) := do
  let offset := block * heap.blockSize
  let size ← (Octets.bigAt? heap.bytes (offset + 4) 4).filter fun size =>
    block != 0 && size != 0 && size ≤ heap.maxMemo
  Octets.slice? heap.bytes (offset + 8) size

/-- The text of the memo that starts with a block. -/
def text (block : Nat) : String :=
  String.ofList (((heap.memo? block).map Text.decodeUnknown).getD [])

end Heap

/-- The column of a name; of several the last. -/
def column? (all : List Column) (name : String) : Option Column :=
  (all.filter fun c => c.name == name).getLast?

/-- The short text in a row. -/
def shortText (all : List Column) (row : List UInt8) (name : String) : String :=
  let bytes := (column? all name).bind fun c => Octets.slice? row c.offset c.size
  Text.trim (String.ofList ((bytes.map Text.Utf8.decode).getD []))

/-- The memo whose block a row tells. -/
def longText (all : List Column) (heap : Heap) (row : List UInt8) (name : String) : String :=
  let column := if heap.isUsable then column? all name else none
  let block := (column.filter fun c => c.kind == 'M'.toUInt8).bind fun c =>
    Octets.littleAt? row c.offset 4
  (block.map heap.text).getD ""

/-- The control in a row. -/
def control (all : List Column) (heap : Heap) (index : Nat) (row : List UInt8) : Control :=
  { index
    isDeleted := row.head? == some '*'.toUInt8
    platform := shortText all row "PLATFORM"
    name := longText all heap row "OBJNAME"
    parent := longText all heap row "PARENT"
    classLocation := longText all heap row "CLASSLOC"
    methods := longText all heap row "METHODS" }

/-- The controls of a table with its heap. A row that is cut off ends the table. -/
def controls (limits : Limits) (table heap : List UInt8) : Except FormError (List Control) :=
  if table.length < headerUnit then
    .error .truncated
  else
    let version := table.headD 0
    let count := Octets.little ((table.drop 4).take 4)
    let headerSize := Octets.little ((table.drop 8).take 2)
    let rowSize := Octets.little ((table.drop 10).take 2)
    if !versions.contains version then
      .error (.unknownVersion version)
    else if rowSize = 0 ∨ headerSize < headerUnit then
      .error (.badLayout headerSize)
    else
      let all := columns (table.take headerSize) rowSize
      let rows := parts rowSize (min count limits.formRecords.toNat) (table.drop headerSize)
      .ok (rows.zipIdx.map fun (row, index) =>
        control all ⟨heap, limits.memoSize.toNat⟩ index row)

/-- The controls of a packed form; none if it cannot be read. -/
def controls? (limits : Limits) (bytes : List UInt8) : Option (List Control) :=
  let (table, heap) := unpack bytes
  (controls limits table heap).toOption

end Form

/-- A routine in the methods of a control. -/
structure Procedure where
  keyword : String
  name : String
  /-- Its lines, from the one that opens it to the one that closes it. -/
  code : List String
  deriving Repr, DecidableEq

namespace Procedure

/-- The routine that a line opens. -/
def opened? (line : String) : Option Procedure :=
  let text := Text.trim line
  let upper := Text.upper text
  if Text.startsWith "PROCEDURE " upper || Text.startsWith "FUNCTION " upper then
    let word := text.toList.takeWhile fun c => !Text.isBlank c
    let rest := text.toList.drop (word.length + 1)
    some ⟨Text.upper (String.ofList word), Text.trim (String.ofList rest), [line]⟩
  else
    none

/-- Does a line close a routine? -/
def closes (line : String) : Bool :=
  let upper := Text.upper (Text.trim line)
  Text.startsWith "ENDPROC" upper || Text.startsWith "ENDFUNC" upper

/-- The routine with one more line. -/
def push (p : Procedure) (line : String) : Procedure :=
  { p with code := p.code ++ [line] }

/-- The routines of some lines, after the lines of the one that is open. -/
def splitFrom (current : Option Procedure) : List String → List Procedure
  | [] => current.toList
  | line :: rest =>
      match opened? line with
      | some p => current.toList ++ splitFrom (some p) rest
      | none =>
          if closes line then
            (current.map fun p => p.push line).toList ++ splitFrom none rest
          else
            splitFrom (current.map fun p => p.push line) rest

/-- The routines of the methods of a control. One ends where it is closed, where the next one
begins, or with the text. -/
def split (methods : String) : List Procedure :=
  splitFrom none (Text.splitChar '\n' methods)

end Procedure

/-- The made-up line of something in a form: a thousand lines for each control, and so many more.
The count stops at the greatest line. -/
def formLine (index offset : Nat) : UInt32 :=
  let greatest := 0xFFFFFFFF
  (max 1 (min greatest (min greatest (index * 1000) + offset))).toUInt32

/-- Is the file a form? -/
def isForm (path : String) : Bool :=
  Text.endsWith ".scx" (Text.lower path)

end SourceIndex.Idiom.FoxPro
