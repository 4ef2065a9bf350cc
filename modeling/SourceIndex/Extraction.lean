import SourceIndex.Backends
import SourceIndex.Digest
import SourceIndex.Record.Coding

/-!
# Extraction

From the path and the octets of a file to its symbols and references.
-/

namespace SourceIndex.Extraction

/-- The root of the tree of a file under the grammar of its language; none for a language that is
read line by line. -/
def root? (parse : Parser) (language path : String) (bytes : List UInt8) :
    Except ExtractError (Option Place) :=
  if Language.hasNoGrammar language then
    .ok none
  else do
    let grammar ← Language.grammarOf language
    let tree ← (parse grammar bytes).elim (.error (.unsupported (.tree path))) .ok
    .ok (some (.root tree))

/-- The extraction of one file. -/
def file (limits : Limits) (parse : Parser) (path : String) (bytes : List UInt8) :
    Except ExtractError FileExtraction := do
  let language ← (Language.ofPath? path).elim (.error (.unsupported (.language path))) .ok
  let extractor := Extractor.ofLanguage language
  let root ← root? parse language path bytes
  let d : Document := { path, bytes, limits }
  .ok
    { path
      language
      symbols := extractor.symbols parse d root
      references := extractor.references parse d root
      contentHash := Digest.hexDigest bytes }

/-- The extraction of a file of which the content is known if the file exists. -/
def stored (limits : Limits) (parse : Parser) (path : String) (content : Option (List UInt8)) :
    Except ExtractError FileExtraction :=
  match content with
  | some bytes => file limits parse path bytes
  | none => .error (.missingFile path)

/-- The extractions of some files, each with its own outcome. -/
def batch (limits : Limits) (files : List (String × List UInt8 × Parser)) :
    List (Except ExtractError FileExtraction) :=
  files.map fun (path, bytes, parse) => file limits parse path bytes

end SourceIndex.Extraction
