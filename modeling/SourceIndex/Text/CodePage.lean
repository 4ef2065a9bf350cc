import SourceIndex.Text.Utf8

/-!
# Octets that do not say how they are encoded
-/

/-!
## UTF-16

A decoding that never fails: a surrogate without its partner, and whatever is left over at the end,
becomes one replacement character.
-/

namespace SourceIndex.Text.Utf16

/-- Does a unit open a pair? -/
def isHigh (unit : Nat) : Bool :=
  0xD800 ≤ unit && unit < 0xDC00

/-- Does a unit close a pair? -/
def isLow (unit : Nat) : Bool :=
  0xDC00 ≤ unit && unit < 0xE000

/-- The character that a pair of units stands for. -/
def pair (high low : Nat) : Char :=
  Char.ofNat (0x10000 + (high - 0xD800) * 0x400 + (low - 0xDC00))

/-- What a unit after an open pair, if there is one, yields, and the pair it leaves open. -/
def step (opened : Option Nat) (unit : Nat) : List Char × Option Nat :=
  match opened with
  | some high =>
      if isLow unit then ([pair high unit], none)
      else if isHigh unit then ([Utf8.replacement], some unit)
      else ([Utf8.replacement, Char.ofNat unit], none)
  | none =>
      if isLow unit then ([Utf8.replacement], none)
      else if isHigh unit then ([], some unit)
      else ([Char.ofNat unit], none)

/-- Decoding after an open pair, if there is one; `unit` makes a unit of two octets. -/
def decodeFrom (unit : UInt8 → UInt8 → Nat) (opened : Option Nat) : List UInt8 → List Char
  | a :: b :: rest =>
      let (text, next) := step opened (unit a b)
      text ++ decodeFrom unit next rest
  | [_] => [Utf8.replacement]
  | [] => if opened.isSome then [Utf8.replacement] else []

/-- The text of octets with the low octet of each unit first. -/
def decodeLittle (bytes : List UInt8) : List Char :=
  decodeFrom (fun a b => a.toNat + 0x100 * b.toNat) none bytes

/-- The text of octets with the high octet of each unit first. -/
def decodeBig (bytes : List UInt8) : List Char :=
  decodeFrom (fun a b => 0x100 * a.toNat + b.toNat) none bytes

end SourceIndex.Text.Utf16

/-!
## Code pages

The text of octets that do not say how they are encoded. A byte order mark decides; without one,
octets that are UTF-8 are read as such, and all others with the code page that yields the most
printable characters.
-/

namespace SourceIndex.Text

/-- A code page: the code points of the octets from 128 on. Octets below are ASCII. -/
structure CodePage where
  upper : List Nat

namespace CodePage

/-- Western Europe. -/
def windows1252 : CodePage where
  upper := [0x20AC, 0x0081, 0x201A, 0x0192, 0x201E, 0x2026, 0x2020, 0x2021, 0x02C6, 0x2030, 0x0160,
    0x2039, 0x0152, 0x008D, 0x017D, 0x008F, 0x0090, 0x2018, 0x2019, 0x201C, 0x201D, 0x2022,
    0x2013, 0x2014, 0x02DC, 0x2122, 0x0161, 0x203A, 0x0153, 0x009D, 0x017E, 0x0178] ++
    List.range' 0xA0 96

/-- Cyrillic. -/
def windows1251 : CodePage where
  upper := [0x0402, 0x0403, 0x201A, 0x0453, 0x201E, 0x2026, 0x2020, 0x2021, 0x20AC, 0x2030, 0x0409,
    0x2039, 0x040A, 0x040C, 0x040B, 0x040F, 0x0452, 0x2018, 0x2019, 0x201C, 0x201D, 0x2022,
    0x2013, 0x2014, 0x0098, 0x2122, 0x0459, 0x203A, 0x045A, 0x045C, 0x045B, 0x045F, 0x00A0,
    0x040E, 0x045E, 0x0408, 0x00A4, 0x0490, 0x00A6, 0x00A7, 0x0401, 0x00A9, 0x0404, 0x00AB,
    0x00AC, 0x00AD, 0x00AE, 0x0407, 0x00B0, 0x00B1, 0x0406, 0x0456, 0x0491, 0x00B5, 0x00B6,
    0x00B7, 0x0451, 0x2116, 0x0454, 0x00BB, 0x0458, 0x0405, 0x0455, 0x0457, 0x0410, 0x0411,
    0x0412, 0x0413, 0x0414, 0x0415, 0x0416, 0x0417, 0x0418, 0x0419, 0x041A, 0x041B, 0x041C,
    0x041D, 0x041E, 0x041F, 0x0420, 0x0421, 0x0422, 0x0423, 0x0424, 0x0425, 0x0426, 0x0427,
    0x0428, 0x0429, 0x042A, 0x042B, 0x042C, 0x042D, 0x042E, 0x042F, 0x0430, 0x0431, 0x0432,
    0x0433, 0x0434, 0x0435, 0x0436, 0x0437, 0x0438, 0x0439, 0x043A, 0x043B, 0x043C, 0x043D,
    0x043E, 0x043F, 0x0440, 0x0441, 0x0442, 0x0443, 0x0444, 0x0445, 0x0446, 0x0447, 0x0448,
    0x0449, 0x044A, 0x044B, 0x044C, 0x044D, 0x044E, 0x044F]

/-- Arabic. -/
def windows1256 : CodePage where
  upper := [0x20AC, 0x067E, 0x201A, 0x0192, 0x201E, 0x2026, 0x2020, 0x2021, 0x02C6, 0x2030, 0x0679,
    0x2039, 0x0152, 0x0686, 0x0698, 0x0688, 0x06AF, 0x2018, 0x2019, 0x201C, 0x201D, 0x2022,
    0x2013, 0x2014, 0x06A9, 0x2122, 0x0691, 0x203A, 0x0153, 0x200C, 0x200D, 0x06BA, 0x00A0,
    0x060C, 0x00A2, 0x00A3, 0x00A4, 0x00A5, 0x00A6, 0x00A7, 0x00A8, 0x00A9, 0x06BE, 0x00AB,
    0x00AC, 0x00AD, 0x00AE, 0x00AF, 0x00B0, 0x00B1, 0x00B2, 0x00B3, 0x00B4, 0x00B5, 0x00B6,
    0x00B7, 0x00B8, 0x00B9, 0x061B, 0x00BB, 0x00BC, 0x00BD, 0x00BE, 0x061F, 0x06C1, 0x0621,
    0x0622, 0x0623, 0x0624, 0x0625, 0x0626, 0x0627, 0x0628, 0x0629, 0x062A, 0x062B, 0x062C,
    0x062D, 0x062E, 0x062F, 0x0630, 0x0631, 0x0632, 0x0633, 0x0634, 0x0635, 0x0636, 0x00D7,
    0x0637, 0x0638, 0x0639, 0x063A, 0x0640, 0x0641, 0x0642, 0x0643, 0x00E0, 0x0644, 0x00E2,
    0x0645, 0x0646, 0x0647, 0x0648, 0x00E7, 0x00E8, 0x00E9, 0x00EA, 0x00EB, 0x0649, 0x064A,
    0x00EE, 0x00EF, 0x064B, 0x064C, 0x064D, 0x064E, 0x00F4, 0x064F, 0x0650, 0x00F7, 0x0651,
    0x00F9, 0x0652, 0x00FB, 0x00FC, 0x200E, 0x200F, 0x06D2]

/-- The character of an octet. -/
def char (page : CodePage) (b : UInt8) : Char :=
  if b < 0x80 then Char.ofNat b.toNat else Char.ofNat (page.upper.getD (b.toNat - 0x80) 0xFFFD)

/-- The text of some octets. -/
def decode (page : CodePage) (bytes : List UInt8) : List Char :=
  bytes.map page.char

/-- Is the character no control character, or one that a line of text may hold? -/
def isPrintable (c : Char) : Bool :=
  let n := c.toNat
  let isControl := n < 0x20 || (0x7F ≤ n && n < 0xA0)
  !isControl || c == '\n' || c == '\r' || c == '\t'

/-- Number of printable characters that a code page yields. -/
def score (page : CodePage) (bytes : List UInt8) : Nat :=
  (page.decode bytes).countP isPrintable

/-- Number of octets that the choice of a code page rests on. -/
def sampleSize : Nat :=
  8192

/-- The code pages to choose from, in order of preference. -/
def pages : List CodePage :=
  [windows1252, windows1251, windows1256]

/-- The first code page that yields the most printable characters. -/
def choose (bytes : List UInt8) : CodePage :=
  let sample := bytes.take sampleSize
  let best := (pages.map fun page => page.score sample).foldl max 0
  (pages.find? fun page => page.score sample == best).getD windows1252

end CodePage

/-- Are the octets UTF-8 throughout? -/
def isUtf8 (bytes : List UInt8) : Bool :=
  Utf8.encode (Utf8.decode bytes) == bytes

/-- The text of octets of an unknown encoding. -/
def decodeUnknown (bytes : List UInt8) : List Char :=
  match bytes with
  | 0xEF :: 0xBB :: 0xBF :: rest => Utf8.decode rest
  | 0xFF :: 0xFE :: rest => Utf16.decodeLittle rest
  | 0xFE :: 0xFF :: rest => Utf16.decodeBig rest
  | _ => if isUtf8 bytes then Utf8.decode bytes else (CodePage.choose bytes).decode bytes

end SourceIndex.Text
