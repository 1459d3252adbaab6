import Reachability.Text.Pattern
import Reachability.Text.Quoted

/-!
# Graph drawings

Drawings in the DOT language.  Names and attribute values that are not
identifiers of that language are quoted.
-/

namespace Reachability.Graph

abbrev Attributes := List (String × String)

structure DrawnNode where
  id : Nat
  attributes : Attributes

structure DrawnEdge where
  source : Nat
  target : Nat
  attributes : Attributes

structure Drawing where
  name : String
  nodes : List DrawnNode
  edges : List DrawnEdge

namespace Dot

def isNameStart (char : Char) : Bool :=
  Text.isLetter char || char = '_' || (128 ≤ char.toNat && char.toNat ≤ 255)

def isName (chars : List Char) : Bool :=
  match chars with
  | [] => false
  | first :: rest => isNameStart first && rest.all fun char => isNameStart char || Text.isDigit char

def isNumeral (chars : List Char) : Bool :=
  let chars := match chars with
    | '-' :: rest => rest
    | _ => chars
  let whole := chars.takeWhile Text.isDigit
  match chars.dropWhile Text.isDigit with
  | [] => !whole.isEmpty
  | '.' :: fraction => fraction.all Text.isDigit && !(whole.isEmpty && fraction.isEmpty)
  | _ => false

def isCharacter (code : Nat) : Bool := code < 0xD800 || (0xDFFF < code && code ≤ 0x10FFFF)

def skipHex? (count : Nat) (checked : Bool) (chars : List Char) : Option (List Char) :=
  let digits := chars.take count
  if digits.length = count && digits.all Text.isHexDigit &&
      (!checked || isCharacter (Text.digitsValue 16 digits)) then
    some (chars.drop count)
  else none

def skipEscape? : List Char → Option (List Char)
  | [] => none
  | first :: rest =>
    if first ∈ ['a', 'b', 'f', 'n', 'r', 't', 'v', '\\', '"'] then some rest
    else if first = 'x' then skipHex? 2 false rest
    else if first = 'u' then skipHex? 4 true rest
    else if first = 'U' then skipHex? 8 true rest
    else
      let digits := (first :: rest).take 3
      if digits.length = 3 && digits.all Text.isOctalDigit && Text.digitsValue 8 digits ≤ 255 then
        some (rest.drop 2)
      else none

def closesQuote : Nat → List Char → Bool
  | 0, _ => false
  | _, [] => false
  | _ + 1, ['"'] => true
  | fuel + 1, char :: rest =>
    if char = '"' || char = '\n' then false
    else if char = '\\' then
      match skipEscape? rest with
      | some rest => closesQuote fuel rest
      | none => false
    else closesQuote fuel rest

def isQuoted (chars : List Char) : Bool :=
  match chars with
  | '"' :: rest => closesQuote chars.length rest
  | _ => false

def isMarkup (chars : List Char) : Bool :=
  2 ≤ chars.length && chars.head? = some '<' && chars.getLast? = some '>'

def keywords : List String := ["node", "edge", "graph", "digraph", "subgraph", "strict"]

def foldCase (char : Char) : Char := if char.toNat = 0x17F then 's' else char.toLower

def isKeyword (text : String) : Bool := keywords.contains (text.map foldCase)

def isIdentifier (text : String) : Bool :=
  let chars := text.toList
  isName chars || isNumeral chars || isQuoted chars || isMarkup chars

def identifier (text : String) : String :=
  if !isKeyword text && isIdentifier text then text else Text.quote text

def assignment (entry : String × String) : String := entry.1 ++ "=" ++ identifier entry.2

def attributes : Attributes → String
  | [] => ""
  | [entry] => " [" ++ assignment entry ++ "]"
  | entries =>
    " [\n" ++ String.join (entries.map fun entry => "    " ++ assignment entry ++ "\n") ++ "  ]"

def nodeName (id : Nat) : String := "n" ++ toString id

def nodeLine (node : DrawnNode) : String :=
  "  " ++ nodeName node.id ++ attributes node.attributes ++ ";\n"

def edgeLine (edge : DrawnEdge) : String :=
  "  " ++ nodeName edge.source ++ " -> " ++ nodeName edge.target ++
    attributes edge.attributes ++ ";\n"

end Dot

def Drawing.text (drawing : Drawing) : String :=
  let nodes := drawing.nodes.mergeSort fun a b => a.id ≤ b.id
  let edges := drawing.edges.mergeSort fun a b =>
    a.source < b.source || (a.source = b.source && a.target ≤ b.target)
  let name := if drawing.name = "" then "" else Dot.identifier drawing.name ++ " "
  let nodePart := if nodes.isEmpty then "" else
    "  // Node definitions.\n" ++ String.join (nodes.map Dot.nodeLine)
  let edgePart := if edges.isEmpty then "" else
    "\n  // Edge definitions.\n" ++ String.join (edges.map Dot.edgeLine)
  "strict digraph " ++ name ++ "\x7b\n" ++ nodePart ++ edgePart ++ "\x7d"

end Reachability.Graph
