/-!
# Letter case

Upper and lower case as far as a comparison with an ASCII word can see it. A character whose
other-case form holds no ASCII letter is left alone, since no ASCII word can tell.
-/

namespace SourceIndex.Text

/-- The lower-case form of a character. -/
def lowerChar (c : Char) : List Char :=
  match c with
  | '\u0130' => ['i', '\u0307']
  | '\u212A' => ['k']
  | c => [c.toLower]

/-- The upper-case form of a character; ligatures and the sharp s take several letters. -/
def upperChar (c : Char) : List Char :=
  match c with
  | '\u00DF' => ['S', 'S']
  | '\u0131' => ['I']
  | '\u0149' => ['\u02BC', 'N']
  | '\u017F' => ['S']
  | '\u01F0' => ['J', '\u030C']
  | '\u1E96' => ['H', '\u0331']
  | '\u1E97' => ['T', '\u0308']
  | '\u1E98' => ['W', '\u030A']
  | '\u1E99' => ['Y', '\u030A']
  | '\u1E9A' => ['A', '\u02BE']
  | '\uFB00' => ['F', 'F']
  | '\uFB01' => ['F', 'I']
  | '\uFB02' => ['F', 'L']
  | '\uFB03' => ['F', 'F', 'I']
  | '\uFB04' => ['F', 'F', 'L']
  | '\uFB05' => ['S', 'T']
  | '\uFB06' => ['S', 'T']
  | c => [c.toUpper]

/-- A text in lower case, for comparison with ASCII words. -/
def lower (text : String) : String :=
  String.ofList (text.toList.flatMap lowerChar)

/-- A text in upper case, for comparison with ASCII words. -/
def upper (text : String) : String :=
  String.ofList (text.toList.flatMap upperChar)

/-- A text with its ASCII letters in lower case and all else kept. -/
def lowerAscii (text : String) : String :=
  String.ofList (text.toList.map Char.toLower)

/-- Equal up to the case of ASCII letters. -/
def sameAscii (a b : String) : Bool :=
  lowerAscii a == lowerAscii b

end SourceIndex.Text
