/-!
# Digits and written numbers
-/

/-!
## Hexadecimal digits

Numbers below 256 written with two digits in lower case.
-/

namespace SourceIndex.Text

/-- The digit of a number below 16. -/
def hexDigit (n : Nat) : Char :=
  Char.ofNat (if n < 10 then '0'.toNat + n else 'a'.toNat + (n - 10))

/-- The two digits of a number below 256. -/
def hexDigits (n : Nat) : List Char :=
  [hexDigit (n / 16), hexDigit (n % 16)]

/-!
## Numbers in texts
-/

/-- The digits at the start of a text, and what follows them. -/
def spanDigits (text : List Char) : List Char × List Char :=
  text.span Char.isDigit

/-- Is the text an exponent with digits, or nothing? -/
def isExponent (text : List Char) : Bool :=
  match text with
  | [] => true
  | e :: rest =>
      let digits :=
        match rest with
        | '+' :: rest => rest
        | '-' :: rest => rest
        | _ => rest
      (e == 'e' || e == 'E') && !digits.isEmpty && digits.all Char.isDigit

/-- Is the text a decimal number without a sign: digits with or without a point among them, at
least one digit, and an exponent or none? -/
def isUnsignedDecimal (text : List Char) : Bool :=
  let (whole, rest) := spanDigits text
  match rest with
  | '.' :: rest =>
      let (fraction, rest) := spanDigits rest
      (!whole.isEmpty || !fraction.isEmpty) && isExponent rest
  | _ => !whole.isEmpty && isExponent rest

/-- Does the text write a floating-point number: a decimal number, an infinity or no number, with
a sign or without? -/
def isFloat (text : String) : Bool :=
  let unsigned :=
    match text.toList with
    | '+' :: rest => rest
    | '-' :: rest => rest
    | chars => chars
  let name := String.ofList (unsigned.map Char.toLower)
  ["inf", "infinity", "nan"].contains name || isUnsignedDecimal unsigned

end SourceIndex.Text
