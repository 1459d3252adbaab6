import Reachability.Source.Tree

/-!
# Reading trees

`Grammar` collects the readers that the rules call for the parts inside their own
part, and `Grammar.deep` closes this recursion up to a depth.
-/

namespace Reachability.Source

abbrev Reader := StateT (List Word) Option

namespace Reader

def peek : Reader (Option Token) := fun words => some (words.head?.map Word.token, words)

def pos : Reader Nat := fun words => some ((words.head?.map Word.pos).getD 0, words)

def sees (text : String) : Reader Bool := fun words =>
  some (words.head?.map Word.token == some (.symbol text), words)

def seesAny (texts : List String) : Reader Bool := do
  match ← peek with
  | some (.symbol text) => return texts.contains text
  | _ => return false

def skip : Reader Unit
  | [] => none
  | _ :: rest => some ((), rest)

def accept (text : String) : Reader Bool := do
  if ← sees text then
    skip
    return true
  else return false

def expect (text : String) : Reader Unit := do
  if ← sees text then skip else failure

def name : Reader (Nat × String)
  | ⟨pos, .name text⟩ :: rest => some ((pos, text), rest)
  | _ => none

/-- The end of a statement: a semicolon, which can be left out before a closing bracket. -/
def semicolon : Reader Unit := do
  if ← seesAny [")", "\x7d"] then return () else expect ";"

def unlessSees (text : String) (item : Reader α) : Reader (List α) := do
  if ← sees text then return [] else return [← item]

def required (result : Reader (Option α)) : Reader α := do
  match ← result with
  | some value => return value
  | none => failure

def repeatWhile (holds : Reader Bool) (item : Reader α) : Nat → Reader (List α)
  | 0 => failure
  | fuel + 1 => do
      if ← holds then
        let first ← item
        let rest ← repeatWhile holds item fuel
        return first :: rest
      else return []

def many (holds : Reader Bool) (item : Reader α) : Reader (List α) := fun words =>
  repeatWhile holds item (words.length + 1) words

private def repeatFrom (step : α → Reader (Option α)) : Nat → α → Reader α
  | 0, _ => failure
  | fuel + 1, value => do
      match ← step value with
      | some next => repeatFrom step fuel next
      | none => return value

def extend (step : α → Reader (Option α)) (value : α) : Reader α := fun words =>
  repeatFrom step (words.length + 1) value words

private def listFuel (closing : String) (item : Reader α) : Nat → Reader (List α)
  | 0 => failure
  | fuel + 1 => do
      if ← sees closing then return []
      let first ← item
      if ← accept "," then
        let rest ← listFuel closing item fuel
        return first :: rest
      else if ← sees closing then return [first]
      else failure

/-- Items separated by commas before a closing bracket, which stays.  A comma may follow the last
one. -/
def listBefore (closing : String) (item : Reader α) : Reader (List α) := fun words =>
  listFuel closing item (words.length + 1) words

def commaList (item : Reader α) : Reader (List α) := do
  let first ← item
  let rest ← many (sees ",") (do skip; item)
  return first :: rest

end Reader

/-- The readers of the parts inside a part.  In the header of a control statement an opening brace
starts the body and not the elements of a composite value. -/
structure Grammar where
  expr : (header : Bool) → Reader SourceExpr
  unary : (header : Bool) → Reader SourceExpr
  type? : Reader (Option SourceExpr)
  elements : Reader (List SourceExpr)
  stmt : Reader SourceStmt

namespace Grammar

def none : Grammar :=
  { expr := fun _ => failure
    unary := fun _ => failure
    type? := failure
    elements := failure
    stmt := failure }

def deep (next : Grammar → Grammar) : Nat → Grammar
  | 0 => none
  | depth + 1 => next (deep next depth)

def type (inner : Grammar) : Reader SourceExpr := Reader.required inner.type?

def bracketed (inner : Grammar) : Reader SourceExpr := inner.expr false

end Grammar

end Reachability.Source
