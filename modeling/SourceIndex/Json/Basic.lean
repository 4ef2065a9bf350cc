import SourceIndex.Text.Number

/-!
# JSON values

Values as they are written: the members of an object keep their order and their repetitions, and
a number keeps its spelling. A string may hold half of a surrogate pair alone, which is no text;
such a string is known only to be broken.
-/

namespace SourceIndex

/-- A JSON value. -/
inductive Json where
  | null
  | bool (value : Bool)
  | number (token : String)
  | string (text : String)
  /-- A string that is no text. -/
  | broken
  | array (items : List Json)
  /-- Members in order; a key that is no text is missing. -/
  | object (members : List (Option String × Json))
  deriving Inhabited

namespace Json

/-- An object of members with proper keys. -/
def ofMembers (members : List (String × Json)) : Json :=
  object (members.map fun (k, v) => (some k, v))

/-- The value of a text that may be missing. -/
def ofText? : Option String → Json
  | some s => string s
  | none => null

/-- The value of a number. -/
def ofNat (n : Nat) : Json :=
  number (toString n)

/-- The text of a string. -/
def text? : Json → Option String
  | string s => some s
  | _ => none

/-- The text of a string, or none for null; fails on all else. -/
def nullable? : Json → Option (Option String)
  | null => some none
  | string s => some (some s)
  | _ => none

/-- The number that a run of digits writes. -/
def digits? : List Char → Nat → Option Nat
  | [], n => some n
  | c :: rest, n => if c.isDigit then digits? rest (n * 10 + (c.toNat - '0'.toNat)) else none

/-- A number written with digits only, below a bound. -/
def natBelow? (bound : Nat) : Json → Option Nat
  | number token => (digits? token.toList 0).filter (· < bound)
  | _ => none

/-- The value that the members of an object give to a key, if there is one; a key that occurs twice
makes the object unreadable. -/
def valueOf? (members : List (Option String × Json)) (key : String) : Option (Option Json) :=
  match members.filter fun m => m.1 == some key with
  | [] => some none
  | [m] => some (some m.2)
  | _ => none

/-- The values that the members of an object give to some keys. Other keys are passed over, but one
that is no text makes the object unreadable. -/
def valuesOf? (keys : List String) (members : List (Option String × Json)) :
    Option (List (Option Json)) :=
  if members.any fun m => m.1.isNone then none else keys.mapM (valueOf? members)

/-- The first value of a key, if the value is an object. -/
def get? (key : String) : Json → Option Json
  | object members => members.findSome? fun m => if m.1 == some key then some m.2 else none
  | _ => none

/-- A character inside a written string. -/
def escapeChar (c : Char) : List Char :=
  match c with
  | '"' => ['\\', '"']
  | '\\' => ['\\', '\\']
  | '\n' => ['\\', 'n']
  | '\r' => ['\\', 'r']
  | '\t' => ['\\', 't']
  | '\x08' => ['\\', 'b']
  | '\x0c' => ['\\', 'f']
  | c =>
      if c.toNat < 0x20 then
        '\\' :: 'u' :: '0' :: '0' :: Text.hexDigits c.toNat
      else
        [c]

/-- A written string. -/
def quote (text : String) : String :=
  String.ofList ('"' :: text.toList.flatMap escapeChar ++ ['"'])

mutual

/-- The written form of a value. A broken string is written empty. -/
def render : Json → String
  | null => "null"
  | bool true => "true"
  | bool false => "false"
  | number token => token
  | string text => quote text
  | broken => quote ""
  | array items => "[" ++ ",".intercalate (renderAll items) ++ "]"
  | object members => "\x7b" ++ ",".intercalate (renderMembers members) ++ "\x7d"

/-- The written forms of some values. -/
def renderAll : List Json → List String
  | [] => []
  | v :: vs => render v :: renderAll vs

/-- The written forms of some members. -/
def renderMembers : List (Option String × Json) → List String
  | [] => []
  | (k, v) :: ms => (quote (k.getD "") ++ ":" ++ render v) :: renderMembers ms

end

end Json

end SourceIndex
