import Reachability.Text.Printable

/-!
# Quoted texts

`quote` writes a text between double quotes and escapes what is not printable.
-/

namespace Reachability.Text

def hexadecimal (width number : Nat) : String :=
  let digits := Nat.toDigits 16 number
  String.ofList (List.replicate (width - digits.length) '0' ++ digits)

def quoteChar (char : Char) : String :=
  if char = '"' then "\\\""
  else if char = '\\' then "\\\\"
  else if isPrintable char then char.toString
  else match char.toNat with
    | 7 => "\\a"
    | 8 => "\\b"
    | 12 => "\\f"
    | 10 => "\\n"
    | 13 => "\\r"
    | 9 => "\\t"
    | 11 => "\\v"
    | code =>
      if code < 32 || code = 127 then "\\x" ++ hexadecimal 2 code
      else if code < 65536 then "\\u" ++ hexadecimal 4 code
      else "\\U" ++ hexadecimal 8 code

def escape (text : String) : String := String.join (text.toList.map quoteChar)

def quote (text : String) : String := "\"" ++ escape text ++ "\""

end Reachability.Text
