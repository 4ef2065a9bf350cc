/-!
# UTF-8

Encoding of characters into octets, and a decoding that never fails: every maximal run of octets
that starts a character and cannot be continued becomes one replacement character.
-/

namespace SourceIndex.Text.Utf8

/-- The character that stands for octets which decode to nothing. -/
def replacement : Char := '\uFFFD'

/-- The octets of one character. -/
def encodeChar (c : Char) : List UInt8 :=
  let n := c.toNat
  if n < 0x80 then
    [n.toUInt8]
  else if n < 0x800 then
    [(0xC0 + n / 0x40).toUInt8, (0x80 + n % 0x40).toUInt8]
  else if n < 0x10000 then
    [(0xE0 + n / 0x1000).toUInt8, (0x80 + n / 0x40 % 0x40).toUInt8, (0x80 + n % 0x40).toUInt8]
  else
    [(0xF0 + n / 0x40000).toUInt8, (0x80 + n / 0x1000 % 0x40).toUInt8,
      (0x80 + n / 0x40 % 0x40).toUInt8, (0x80 + n % 0x40).toUInt8]

/-- The octets of a text. -/
def encode (text : List Char) : List UInt8 :=
  text.flatMap encodeChar

/-- A character of which the first octets have been read. -/
structure Pending where
  /-- Octets still to come after the next one. -/
  more : Nat
  /-- The bits read so far. -/
  bits : Nat
  /-- Least value of the next octet. -/
  low : UInt8
  /-- Greatest value of the next octet. -/
  high : UInt8
  deriving Repr, DecidableEq

/-- What an octet at the start of a character yields, and what it leaves open. -/
def start (b : UInt8) : List Char × Option Pending :=
  let n := b.toNat
  if n < 0x80 then ([Char.ofNat n], none)
  else if n < 0xC2 then ([replacement], none)
  else if n < 0xE0 then ([], some ⟨0, n - 0xC0, 0x80, 0xBF⟩)
  else if n = 0xE0 then ([], some ⟨1, 0, 0xA0, 0xBF⟩)
  else if n = 0xED then ([], some ⟨1, 0xD, 0x80, 0x9F⟩)
  else if n < 0xF0 then ([], some ⟨1, n - 0xE0, 0x80, 0xBF⟩)
  else if n = 0xF0 then ([], some ⟨2, 0, 0x90, 0xBF⟩)
  else if n < 0xF4 then ([], some ⟨2, n - 0xF0, 0x80, 0xBF⟩)
  else if n = 0xF4 then ([], some ⟨2, 4, 0x80, 0x8F⟩)
  else ([replacement], none)

/-- One octet after another: a continuation in range goes on, any other octet ends the open
character as a replacement and is read afresh. -/
def step : Option Pending → UInt8 → List Char × Option Pending
  | none, b => start b
  | some p, b =>
      if p.low ≤ b ∧ b ≤ p.high then
        let bits := p.bits * 0x40 + (b.toNat - 0x80)
        match p.more with
        | 0 => ([Char.ofNat bits], none)
        | more + 1 => ([], some ⟨more, bits, 0x80, 0xBF⟩)
      else
        let (text, next) := start b
        (replacement :: text, next)

/-- Decoding from an open character on. -/
def decodeFrom : Option Pending → List UInt8 → List Char
  | none, [] => []
  | some _, [] => [replacement]
  | state, b :: rest =>
      let (text, next) := step state b
      text ++ decodeFrom next rest

/-- The text of any octets, with replacement characters where they are not UTF-8. -/
def decode (bytes : List UInt8) : List Char :=
  decodeFrom none bytes

/-- Octets read as one character, or one octet that starts no character. -/
structure Glyph where
  char : Option Char
  bytes : List UInt8
  /-- The character that is found at the end of the glyph when the octets are read backwards. -/
  backward : Option Char
  deriving Repr, DecidableEq

/-- The character whose octets come first, with their number. -/
def firstChar? (bytes : List UInt8) : Option (Char × Nat) :=
  [1, 2, 3, 4].findSome? fun k =>
    match decode (bytes.take k) with
    | [c] => if encodeChar c = bytes.take k then some (c, k) else none
    | _ => none

/-- Does an octet go on with a character that another one starts? -/
def isContinuation (b : UInt8) : Bool :=
  0x80 ≤ b && b < 0xC0

/-- The character that is found by reading backwards, nearest octet first: the way back leads to the
last octet that is no continuation, but over four octets at most, and the character that starts
there is the answer even if continuations are left over behind it. -/
def lastChar? (behind : List UInt8) : Option Char :=
  let near := behind.take 4
  let size := (near.takeWhile isContinuation).length + 1
  (firstChar? (near.take size).reverse).map Prod.fst

/-- The glyphs of some octets of which the first `skip` belong to the glyph before; `behind` holds
the octets before them, the nearest first. -/
def glyphsFrom (behind : List UInt8) : Nat → List UInt8 → List Glyph
  | _, [] => []
  | skip + 1, b :: rest => glyphsFrom (b :: behind) skip rest
  | 0, b :: rest =>
      match firstChar? (b :: rest) with
      | some (c, k) => ⟨some c, (b :: rest).take k, some c⟩ :: glyphsFrom (b :: behind) (k - 1) rest
      | none => ⟨none, [b], lastChar? (b :: behind)⟩ :: glyphsFrom (b :: behind) 0 rest

/-- Octets as glyphs, which together are all of the octets. -/
def glyphs (bytes : List UInt8) : List Glyph :=
  glyphsFrom [] 0 bytes

/-- Number of octets that a text takes. -/
def size : List Char → Nat
  | [] => 0
  | c :: rest => c.utf8Size + size rest

end SourceIndex.Text.Utf8
