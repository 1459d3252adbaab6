/-!
# Blank characters

The characters that separate words in a text.
-/

namespace Reachability.Text

def blankRanges : List (Nat × Nat) := [
  (9, 13), (32, 32), (133, 133), (160, 160), (5760, 5760), (8192, 8202), (8232, 8233),
  (8239, 8239), (8287, 8287), (12288, 12288)]

def isBlank (char : Char) : Bool :=
  blankRanges.any fun range => range.1 ≤ char.toNat && char.toNat ≤ range.2

def trimBlanks (chars : List Char) : List Char :=
  ((chars.dropWhile isBlank).reverse.dropWhile isBlank).reverse

end Reachability.Text
