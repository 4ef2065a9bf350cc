import SourceIndex.Document
import SourceIndex.Json.Reader
import SourceIndex.Record.Symbol

/-!
# Records as JSON

A record is written as an object with one member for each field. It is read from an object, in
which unknown members are passed over, or from an array of all fields in their order. A missing
member counts as null.
-/

namespace SourceIndex

/-- All that was extracted from one file. -/
structure FileExtraction where
  path : String
  language : String
  symbols : List Symbol
  references : List Reference
  /-- Digest of the octets. -/
  contentHash : String
  deriving Repr, DecidableEq, Inhabited

namespace Json

/-- The values of the fields of a record, from an object or from a complete array. -/
def fieldsOf? (keys : List String) : Json → Option (List (Option Json))
  | object members => valuesOf? keys members
  | array items => if items.length = keys.length then some (items.map some) else none
  | _ => none

/-- A 32-bit number. -/
def word? (v : Json) : Option UInt32 :=
  (natBelow? UInt32.size v).map Nat.toUInt32

/-- A truth value. -/
def bool? : Json → Option Bool
  | bool b => some b
  | _ => none

end Json

open Json

/-- A visibility: its word, or an object with the word as its only key and null beside it. -/
def Visibility.ofJson? : Json → Option Visibility
  | .string w => Visibility.ofWord? w
  | .object [(some w, .null)] => Visibility.ofWord? w
  | _ => none

namespace Symbol

/-- The fields in their order. -/
def keys : List String :=
  ["name", "qualified_name", "kind", "signature", "line_start", "line_end", "docstring",
    "visibility", "is_exported", "parent_name", "default_value"]

/-- A symbol as JSON. -/
def toJson (s : Symbol) : Json :=
  .ofMembers (keys.zip
    [.string s.name, .string s.qualifiedName, .string s.kind.word, ofText? s.signature,
      ofNat s.lineStart.toNat, ofNat s.lineEnd.toNat, ofText? s.docstring,
      .string s.visibility.word, .bool s.isExported, ofText? s.parentName,
      ofText? s.defaultValue])

/-- The symbol that a JSON value gives. -/
def ofJson? (v : Json) : Option Symbol :=
  match fieldsOf? keys v with
  | some [some name, some qualifiedName, some kind, signature, some lineStart, some lineEnd,
      docstring, some visibility, some isExported, parentName, defaultValue] => do
      some
        { name := ← name.text?
          qualifiedName := ← qualifiedName.text?
          kind := SymbolKind.ofWord (← kind.text?)
          signature := ← (signature.getD .null).nullable?
          lineStart := ← lineStart.word?
          lineEnd := ← lineEnd.word?
          docstring := ← (docstring.getD .null).nullable?
          visibility := ← Visibility.ofJson? visibility
          isExported := ← isExported.bool?
          parentName := ← (parentName.getD .null).nullable?
          defaultValue := ← (defaultValue.getD .null).nullable? }
  | _ => none

end Symbol

namespace Reference

/-- The fields in their order. -/
def keys : List String :=
  ["source_name", "target_name", "kind", "line", "import_path"]

/-- A reference as JSON. -/
def toJson (r : Reference) : Json :=
  .ofMembers (keys.zip
    [ofText? r.sourceName, .string r.targetName, .string r.kind.word, ofNat r.line.toNat,
      ofText? r.importPath])

/-- The reference that a JSON value gives. -/
def ofJson? (v : Json) : Option Reference :=
  match fieldsOf? keys v with
  | some [sourceName, some targetName, some kind, some line, importPath] => do
      some
        { sourceName := ← (sourceName.getD .null).nullable?
          targetName := ← targetName.text?
          kind := ReferenceKind.ofWord (← kind.text?)
          line := ← line.word?
          importPath := ← (importPath.getD .null).nullable? }
  | _ => none

end Reference

namespace FileExtraction

/-- The fields in their order. -/
def keys : List String :=
  ["path", "language", "symbols", "references", "content_hash"]

/-- An extraction as JSON. -/
def toJson (f : FileExtraction) : Json :=
  .ofMembers (keys.zip
    [.string f.path, .string f.language, .array (f.symbols.map Symbol.toJson),
      .array (f.references.map Reference.toJson), .string f.contentHash])

/-- The extraction that a JSON value gives. -/
def ofJson? (v : Json) : Option FileExtraction :=
  match fieldsOf? keys v with
  | some [some path, some language, some (.array symbols), some (.array references),
      some contentHash] => do
      some
        { path := ← path.text?
          language := ← language.text?
          symbols := ← symbols.mapM Symbol.ofJson?
          references := ← references.mapM Reference.ofJson?
          contentHash := ← contentHash.text? }
  | _ => none

end FileExtraction

namespace Limits

/-- The limits in their order. -/
def keys : List String :=
  ["max_walk_depth", "generic_max_depth", "markup_max_depth", "max_scx_records",
    "max_memo_bytes", "literal_max_len"]

/-- The limits as a list of numbers. -/
def toList (l : Limits) : List UInt64 :=
  [l.walkDepth, l.genericDepth, l.markupDepth, l.formRecords, l.memoSize, l.literalSize]

/-- Limits as JSON. -/
def toJson (l : Limits) : Json :=
  .ofMembers (keys.zip (l.toList.map fun n => ofNat n.toNat))

/-- A limit as it is given, or its standard value. -/
def limit? (standard : UInt64) : Option Json → Option UInt64
  | none => some standard
  | some v => (natBelow? UInt64.size v).map Nat.toUInt64

/-- The limits that some values give, as far as they are given. -/
def ofValues? (values : List (Option Json)) : Option Limits :=
  let standard : Limits := {}
  match (values ++ List.replicate (6 - values.length) none).zipWith (fun v s => limit? s v)
      standard.toList with
  | [a, b, c, d, e, f] => do
      some
        { walkDepth := ← a, genericDepth := ← b, markupDepth := ← c, formRecords := ← d,
          memoSize := ← e, literalSize := ← f }
  | _ => none

/-- The limits that a JSON value gives: an object with some of the keys, or an array with the
first of the limits. -/
def ofJson? : Json → Option Limits
  | .object members => (valuesOf? keys members).bind ofValues?
  | .array items => if items.length ≤ 6 then ofValues? (items.map some) else none
  | _ => none

/-- The limits that a text in JSON gives. -/
def read? (text : String) : Option Limits :=
  (Json.read? text).bind ofJson?

end Limits

end SourceIndex
