import SourceIndex.Json.Basic

/-!
# Reading JSON

A strict reader: one value, with nothing around it but spaces, tabs, line feeds and carriage
returns. Numbers and strings follow the grammar to the letter.
-/

namespace SourceIndex.Json

/-- The blanks between tokens. -/
def isGap (c : Char) : Bool :=
  c == ' ' || c == '\t' || c == '\n' || c == '\r'

/-- Without the blanks in front. -/
def skipGap (text : List Char) : List Char :=
  text.dropWhile isGap

/-- The value of a hexadecimal digit. -/
def hexValue? (c : Char) : Option Nat :=
  if c.isDigit then some (c.toNat - '0'.toNat)
  else if 'a' ≤ c ∧ c ≤ 'f' then some (c.toNat - 'a'.toNat + 10)
  else if 'A' ≤ c ∧ c ≤ 'F' then some (c.toNat - 'A'.toNat + 10)
  else none

/-- The units of a string up to its closing quote, and what follows. An escape with four digits
gives one unit, which may be half of a surrogate pair. -/
def readUnits : List Char → Option (List Nat × List Char)
  | [] => none
  | '"' :: rest => some ([], rest)
  | '\\' :: 'u' :: a :: b :: c :: d :: rest => do
      let unit := (← hexValue? a) * 0x1000 + (← hexValue? b) * 0x100 + (← hexValue? c) * 0x10 +
        (← hexValue? d)
      let (units, rest) ← readUnits rest
      some (unit :: units, rest)
  | '\\' :: c :: rest => do
      let unit ← escape? c
      let (units, rest) ← readUnits rest
      some (unit :: units, rest)
  | c :: rest => do
      if c.toNat < 0x20 ∨ c = '\\' then none
      let (units, rest) ← readUnits rest
      some (c.toNat :: units, rest)
where
  escape? (c : Char) : Option Nat :=
    match c with
    | '"' => some 0x22
    | '\\' => some 0x5C
    | '/' => some 0x2F
    | 'b' => some 0x08
    | 'f' => some 0x0C
    | 'n' => some 0x0A
    | 'r' => some 0x0D
    | 't' => some 0x09
    | _ => none

/-- The text that some units write, if every half of a surrogate pair has its partner. -/
def joinUnits : List Nat → Option (List Char)
  | [] => some []
  | u :: rest =>
      if 0xD800 ≤ u ∧ u < 0xDC00 then
        match rest with
        | v :: rest' =>
            if 0xDC00 ≤ v ∧ v < 0xE000 then
              (joinUnits rest').map
                (Char.ofNat (0x10000 + (u - 0xD800) * 0x400 + (v - 0xDC00)) :: ·)
            else
              none
        | [] => none
      else if 0xDC00 ≤ u ∧ u < 0xE000 then
        none
      else
        (joinUnits rest).map (Char.ofNat u :: ·)

/-- A string whose opening quote has been read; the text is missing where it is broken. -/
def readString (text : List Char) : Option (Option String × List Char) :=
  (readUnits text).map fun (units, rest) => ((joinUnits units).map String.ofList, rest)

/-- A run of digits and what follows. -/
def spanDigits (text : List Char) : List Char × List Char :=
  text.span Char.isDigit

/-- The digits before the point: a zero alone, or a run that starts with another digit. -/
def readWhole (text : List Char) : Option (List Char × List Char) :=
  match text with
  | '0' :: rest => some (['0'], rest)
  | _ =>
      let (digits, rest) := spanDigits text
      if digits.isEmpty then none else some (digits, rest)

/-- A point with the digits after it, if there is one. -/
def readFraction (text : List Char) : Option (List Char × List Char) :=
  match text with
  | '.' :: rest =>
      let (digits, rest) := spanDigits rest
      if digits.isEmpty then none else some ('.' :: digits, rest)
  | _ => some ([], text)

/-- An exponent, if there is one. -/
def readExponent (text : List Char) : Option (List Char × List Char) :=
  match text with
  | e :: rest =>
      if e == 'e' || e == 'E' then
        let (sign, rest) :=
          match rest with
          | '+' :: rest => (['+'], rest)
          | '-' :: rest => (['-'], rest)
          | _ => ([], rest)
        let (digits, rest) := spanDigits rest
        if digits.isEmpty then none else some (e :: sign ++ digits, rest)
      else
        some ([], text)
  | [] => some ([], text)

/-- A number and what follows. -/
def readNumber (text : List Char) : Option (Json × List Char) := do
  let (sign, text) :=
    match text with
    | '-' :: rest => (['-'], rest)
    | _ => ([], text)
  let (whole, text) ← readWhole text
  let (fraction, text) ← readFraction text
  let (power, text) ← readExponent text
  some (number (String.ofList (sign ++ whole ++ fraction ++ power)), text)

mutual

/-- A value and what follows, at most so deep. -/
def readValue : Nat → List Char → Option (Json × List Char)
  | 0, _ => none
  | depth + 1, text =>
      match skipGap text with
      | 'n' :: 'u' :: 'l' :: 'l' :: rest => some (null, rest)
      | 't' :: 'r' :: 'u' :: 'e' :: rest => some (bool true, rest)
      | 'f' :: 'a' :: 'l' :: 's' :: 'e' :: rest => some (bool false, rest)
      | '"' :: rest => do
          let (s, rest) ← readString rest
          some ((s.map string).getD broken, rest)
      | '[' :: rest =>
          match skipGap rest with
          | ']' :: rest => some (array [], rest)
          | rest => do
              let (items, rest) ← readItems depth rest
              some (array items, rest)
      | '\x7b' :: rest =>
          match skipGap rest with
          | '\x7d' :: rest => some (object [], rest)
          | rest => do
              let (members, rest) ← readMembers depth rest
              some (object members, rest)
      | rest => readNumber rest

/-- The items of a list up to its closing bracket; at least one. -/
def readItems : Nat → List Char → Option (List Json × List Char)
  | 0, _ => none
  | depth + 1, text => do
      let (item, rest) ← readValue depth text
      match skipGap rest with
      | ']' :: rest => some ([item], rest)
      | ',' :: rest =>
          let (items, rest) ← readItems depth rest
          some (item :: items, rest)
      | _ => none

/-- The members of an object up to its closing brace; at least one. -/
def readMembers : Nat → List Char → Option (List (Option String × Json) × List Char)
  | 0, _ => none
  | depth + 1, text => do
      match skipGap text with
      | '"' :: rest =>
          let (key, rest) ← readString rest
          match skipGap rest with
          | ':' :: rest =>
              let (value, rest) ← readValue depth rest
              match skipGap rest with
              | '\x7d' :: rest => some ([(key, value)], rest)
              | ',' :: rest =>
                  let (members, rest) ← readMembers depth rest
                  some ((key, value) :: members, rest)
              | _ => none
          | _ => none
      | _ => none

end

/-- The value that a text writes. -/
def read? (text : String) : Option Json := do
  let chars := text.toList
  let (value, rest) ← readValue (2 * chars.length + 2) chars
  if (skipGap rest).isEmpty then some value else none

end SourceIndex.Json
