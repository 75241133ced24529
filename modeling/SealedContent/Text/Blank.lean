/-! # Blank characters

`isBlank` is the Unicode property White_Space: the blanks of ASCII, the two of Latin-1, and the
spaces and separators beyond. `trim` removes blanks at both ends of a text.
-/

namespace SealedContent.Text

/-- The Unicode property White_Space. -/
def isBlank (c : Char) : Bool :=
  let n := c.toNat
  (0x9 ≤ n && n ≤ 0xD) || n == 0x20 || n == 0x85 || n == 0xA0 || n == 0x1680 ||
    (0x2000 ≤ n && n ≤ 0x200A) || n == 0x2028 || n == 0x2029 || n == 0x202F || n == 0x205F ||
    n == 0x3000

/-- A text without the blanks at its ends. -/
def trim (text : List Char) : List Char :=
  ((text.dropWhile isBlank).reverse.dropWhile isBlank).reverse

/-- Equality of texts up to the case of ASCII letters. -/
def sameIgnoringCase (a b : List Char) : Bool := a.map Char.toLower == b.map Char.toLower

/-- What follows a given text at the head of another, up to the case of ASCII letters. -/
def dropStart? (start text : List Char) : Option (List Char) :=
  if sameIgnoringCase (text.take start.length) start then some (text.drop start.length) else none

/-- The parts of a text before and after its first character of a class. -/
def splitFirst? (isSeparator : Char → Bool) : List Char → Option (List Char × List Char)
  | [] => none
  | c :: rest =>
    if isSeparator c then some ([], rest)
    else (splitFirst? isSeparator rest).map fun (before, after) => (c :: before, after)

end SealedContent.Text
