/-! Texts are strings of bytes. Expressions, messages and output are read, measured and cut byte by
byte, so a place in a text is a count of the bytes before it. -/
namespace DiceFormula

abbrev Text := List UInt8

def ascii (characters : List Char) : Text := characters.map Char.toUInt8

def utf8 (string : String) : Text := string.toList.flatMap String.utf8EncodeChar

namespace Text

def isDigit (b : UInt8) : Bool := 48 ≤ b && b ≤ 57

/-- The space and the five controls from tab to carriage return. -/
def isBlank (b : UInt8) : Bool := b == 32 || 9 ≤ b && b ≤ 13

def isUpper (b : UInt8) : Bool := 65 ≤ b && b ≤ 90

def isLetter (b : UInt8) : Bool := isUpper b || 97 ≤ b && b ≤ 122

def lower (t : Text) : Text := t.map fun b => if isUpper b then b + 32 else b

def digit (n : Nat) : UInt8 := 48 + n.toUInt8

def ofNat (n : Nat) : Text :=
  if n < 10 then [digit n] else ofNat (n / 10) ++ [digit (n % 10)]
termination_by n
decreasing_by omega

def ofInt (n : Int) : Text :=
  if n < 0 then '-'.toUInt8 :: ofNat n.natAbs else ofNat n.natAbs

def value (digits : Text) : Nat := digits.foldl (fun n d => 10 * n + (d.toNat - 48)) 0

def trimLeft (t : Text) : Text := t.dropWhile isBlank

def trim (t : Text) : Text := ((trimLeft t).reverse.dropWhile isBlank).reverse

def joined (separator : Text) (parts : List Text) : Text := separator.intercalate parts

/-- A line on the terminal ends at the first zero byte. -/
def untilZero (t : Text) : Text := t.takeWhile (· ≠ 0)

end Text

end DiceFormula
