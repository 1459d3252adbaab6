/-!
# Tokens

Keywords, operators and delimiters are all called symbols here.
-/

namespace Reachability.Source

inductive LiteralKind where
  | int | float | imaginary | char | string
deriving DecidableEq, Repr

def LiteralKind.text : LiteralKind → String
  | int => "INT"
  | float => "FLOAT"
  | imaginary => "IMAG"
  | char => "CHAR"
  | string => "STRING"

inductive Token where
  | name (text : String)
  | literal (kind : LiteralKind) (text : String)
  | symbol (text : String)
deriving DecidableEq, Repr

def keywords : List String := [
  "break", "case", "chan", "const", "continue", "default", "defer", "else", "fallthrough", "for",
  "func", "go", "goto", "if", "import", "interface", "map", "package", "range", "return", "select",
  "struct", "switch", "type", "var"]

def operators : List String := [
  "<<=", ">>=", "&^=", "...",
  "&&", "||", "<-", "++", "--", "==", "!=", "<=", ">=", ":=", "+=", "-=", "*=", "/=", "%=", "&=",
  "|=", "^=", "<<", ">>", "&^",
  "+", "-", "*", "/", "%", "&", "|", "^", "<", ">", "=", "!", "(", ")", "[", "]", "\x7b", "\x7d",
  ",", ";", ".", ":", "~"]

def Token.ofWord (word : String) : Token :=
  if keywords.contains word then .symbol word else .name word

/-- Whether a statement can end with the token, so that the end of the line ends the statement
too. -/
def Token.endsStatement : Token → Bool
  | name _ | literal _ _ => true
  | symbol text =>
    ["break", "continue", "fallthrough", "return", "++", "--", ")", "]", "\x7d"].contains text

/-- A token and the place of its first byte; the first byte of a text has place one. -/
structure Word where
  pos : Nat
  token : Token
deriving DecidableEq, Repr

inductive Lexeme where
  | word (word : Word)
  | comment (pos : Nat) (text : String)
  | lineEnd (pos : Nat)
deriving DecidableEq, Repr

/-- The words of a text, with a semicolon wherever a line ends after a token that can end a
statement. `pending` says that the last token can. -/
def Lexeme.words (pending : Bool) : List Lexeme → List Word
  | [] => if pending then [⟨0, .symbol ";"⟩] else []
  | .word found :: rest => found :: words found.token.endsStatement rest
  | .comment pos text :: rest =>
    if pending && text.contains '\n' then ⟨pos, .symbol ";"⟩ :: words false rest
    else words pending rest
  | .lineEnd pos :: rest =>
    if pending then ⟨pos, .symbol ";"⟩ :: words false rest else words false rest

end Reachability.Source
