/-!
# Parts of a text

Taking a text apart at a given word: at its start, at its end, at its first or last occurrence,
or at all of them.
-/

namespace SourceIndex.Text

namespace Chars

/-- What follows `word` at the start of a text. -/
def dropPrefix? (word text : List Char) : Option (List Char) :=
  word.isPrefixOf? text

/-- What stands before `word` at the end of a text. -/
def dropSuffix? (word text : List Char) : Option (List Char) :=
  word.isSuffixOf? text

/-- The text before and after the first occurrence of `word`. -/
def splitFirst? (word : List Char) : List Char → Option (List Char × List Char)
  | [] => if word.isEmpty then some ([], []) else none
  | c :: rest =>
      match dropPrefix? word (c :: rest) with
      | some after => some ([], after)
      | none => (splitFirst? word rest).map fun (before, after) => (c :: before, after)

/-- The text before and after the last occurrence of `word`. -/
def splitLast? (word text : List Char) : Option (List Char × List Char) :=
  (splitFirst? word.reverse text.reverse).map fun (after, before) =>
    (before.reverse, after.reverse)

/-- Does `word` occur? -/
def has (word text : List Char) : Bool :=
  (splitFirst? word text).isSome

/-- The parts between the characters that satisfy `p`, from the middle of a part on, of which
`part` was read, backwards. -/
def splitWhereFrom (p : Char → Bool) (part : List Char) : List Char → List (List Char)
  | [] => [part.reverse]
  | c :: rest =>
      if p c then part.reverse :: splitWhereFrom p [] rest else splitWhereFrom p (c :: part) rest

/-- The parts between the characters that satisfy `p`; one more than there are such characters. -/
def splitWhere (p : Char → Bool) (text : List Char) : List (List Char) :=
  splitWhereFrom p [] text

/-- Every occurrence of `word`, read from the left without overlap, becomes `other`; `skip`
characters of an occurrence are still to be dropped. -/
def replaceFrom (word other : List Char) : Nat → List Char → List Char
  | _, [] => []
  | skip + 1, _ :: rest => replaceFrom word other skip rest
  | 0, c :: rest =>
      if word.isPrefixOf (c :: rest) then
        other ++ replaceFrom word other (word.length - 1) rest
      else
        c :: replaceFrom word other 0 rest

/-- Every occurrence of the non-empty `word`, read from the left without overlap, becomes
`other`. -/
def replace (word other text : List Char) : List Char :=
  replaceFrom word other 0 text

/-- The longest start of a text, in whole characters, that takes at most `room` octets. -/
def takeOctets (room : Nat) : List Char → List Char
  | [] => []
  | c :: rest => if c.utf8Size ≤ room then c :: takeOctets (room - c.utf8Size) rest else []

end Chars

/-- What follows `word` at the start of a text. -/
def dropPrefix? (word text : String) : Option String :=
  (Chars.dropPrefix? word.toList text.toList).map String.ofList

/-- What stands before `word` at the end of a text. -/
def dropSuffix? (word text : String) : Option String :=
  (Chars.dropSuffix? word.toList text.toList).map String.ofList

/-- The text without `word` at its start, if it is there. -/
def dropPrefix (word text : String) : String :=
  (dropPrefix? word text).getD text

/-- The text without `word` at its end, if it is there. -/
def dropSuffix (word text : String) : String :=
  (dropSuffix? word text).getD text

/-- Does the text start with `word`? -/
def startsWith (word text : String) : Bool :=
  word.toList.isPrefixOf text.toList

/-- Does the text end with `word`? -/
def endsWith (word text : String) : Bool :=
  word.toList.isSuffixOf text.toList

/-- The text before and after the first occurrence of `word`. -/
def splitFirst? (word text : String) : Option (String × String) :=
  (Chars.splitFirst? word.toList text.toList).map fun (a, b) => (String.ofList a, String.ofList b)

/-- The text before and after the last occurrence of `word`. -/
def splitLast? (word text : String) : Option (String × String) :=
  (Chars.splitLast? word.toList text.toList).map fun (a, b) => (String.ofList a, String.ofList b)

/-- Does `word` occur in the text? -/
def has (word text : String) : Bool :=
  Chars.has word.toList text.toList

/-- The part after the last occurrence of `word`, or the whole text. -/
def afterLast (word text : String) : String :=
  match splitLast? word text with
  | some (_, after) => after
  | none => text

/-- The part before the first occurrence of `word`, or the whole text. -/
def beforeFirst (word text : String) : String :=
  match splitFirst? word text with
  | some (before, _) => before
  | none => text

/-- The parts between the copies of `c`. -/
def splitChar (c : Char) (text : String) : List String :=
  (Chars.splitWhere (· == c) text.toList).map String.ofList

/-- Every occurrence of `word` becomes `other`. -/
def replace (word other text : String) : String :=
  String.ofList (Chars.replace word.toList other.toList text.toList)

/-- The first `n` characters. -/
def take (n : Nat) (text : String) : String :=
  String.ofList (text.toList.take n)

/-- The longest start in whole characters that takes at most `room` octets. -/
def takeOctets (room : Nat) (text : String) : String :=
  String.ofList (Chars.takeOctets room text.toList)

/-- Every copy of the non-empty `word` at the start is dropped; `rounds` bounds their number. -/
def dropAllFrom (word : List Char) : Nat → List Char → List Char
  | 0, text => text
  | rounds + 1, text =>
      match Chars.dropPrefix? word text with
      | some rest => dropAllFrom word rounds rest
      | none => text

/-- The text without the copies of the non-empty `word` at its start. -/
def dropAll (word text : String) : String :=
  String.ofList (dropAllFrom word.toList text.length text.toList)

/-- Number of octets. -/
def size (text : String) : Nat :=
  text.utf8ByteSize

end SourceIndex.Text
