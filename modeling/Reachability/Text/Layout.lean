/-!
# Layout of texts

Indentation of lines, joining of printed values and emphasis on terminals.
-/

namespace Reachability.Text

def trimRight (text : String) (trimmed : Char) : String :=
  String.ofList (text.toList.reverse.dropWhile (· = trimmed)).reverse

def lines (text : String) : List String := (trimRight text '\n').splitOn "\n"

def indent (text : String) (width : Nat) : String :=
  let pad := String.ofList (List.replicate width ' ')
  "\n".intercalate ((lines text).map (pad ++ ·))

def padRight (width : Nat) (text : String) : String :=
  text ++ String.ofList (List.replicate (width - text.length) ' ')

inductive Printed where
  | text (text : String)
  | number (value : Int)
deriving DecidableEq, Repr

def Printed.toText : Printed → String
  | text shown => shown
  | number value => toString value

/-- Values one after the other, with a blank between two numbers only. -/
def joined : List Printed → String
  | [] => ""
  | [last] => last.toText
  | .number first :: .number second :: rest =>
    toString first ++ " " ++ joined (.number second :: rest)
  | first :: rest => first.toText ++ joined rest

inductive Emphasis where
  | bold | faint | red | green | yellow | cyan
deriving DecidableEq, Repr

def Emphasis.code : Emphasis → String
  | bold => "1"
  | faint => "2"
  | red => "1;31"
  | green => "1;32"
  | yellow => "1;33"
  | cyan => "1;36"

def emphasize (onTerminal : Bool) (emphasis : Emphasis) (values : List Printed) : String :=
  if onTerminal then "\x1b[" ++ emphasis.code ++ "m" ++ joined values ++ "\x1b[0m"
  else joined values

end Reachability.Text
